/-
  Which items of a state share their lookahead.

  An item refers to its lookahead by the number of a slot.  What is written into a slot is written
  for all items that have it, so it matters who shares one (`State.SlotsApart`):

    * kernel items come first, each with a slot of its own;
    * behind them stand rules with the dot in front, and two of these share a slot exactly if they
      have the same left side.

  A closed state is of this kind, whatever its kernel is (`State.Closed.slotsApart`), so the states
  of all stages are.
-/
import Mathlib
import Lalr.Proofs.Stages

namespace Lalr

open SymbolSet

namespace State

variable {g : Grammar} {s : State}

/-- The slots of a state's items. -/
structure SlotsApart (g : Grammar) (s : State) : Prop where
  kernelSize_le : s.kernelSize ≤ s.items.size
  /-- every item has a lookahead -/
  slot_lt : ∀ {i : Nat} {item : Item}, s.items[i]? = some item → item.slot < s.lookaheads.size
  /-- the kernel has the first slots, in order -/
  kernel : ∀ {i : Nat} {item : Item}, i < s.kernelSize → s.items[i]? = some item →
    item.origin = none ∧ item.slot = i
  /-- behind it stand rules brought in by their left sides -/
  added : ∀ {i : Nat} {item : Item}, s.kernelSize ≤ i → s.items[i]? = some item →
    item.core.dot = 0 ∧ item.core.rule < g.rules.size ∧
      item.origin = some (g.rule item.core.rule).lhs ∧ s.kernelSize ≤ item.slot
  /-- two items share a slot only behind the kernel, exactly if they have the same left side -/
  slot_eq_iff : ∀ {i j : Nat} {item item' : Item}, s.items[i]? = some item →
    s.items[j]? = some item' → (item.slot = item'.slot ↔
      i = j ∨ (s.kernelSize ≤ i ∧ s.kernelSize ≤ j ∧
        (g.rule item.core.rule).lhs = (g.rule item'.core.rule).lhs))
  /-- only terminals are in lookaheads -/
  member_lt : ∀ {i t : Nat}, InTable s.lookaheads i t → t < g.terminalCount

namespace Closed

variable (wf : g.WellFormed) (h : Closed g s) {i j : Nat} {item item' : Item}
include wf h

/-- The slot of a kernel item is its place. -/
theorem slot_of_lt (hitem : s.items[i]? = some item) (hi : i < s.kernelSize) :
    item.slot = i ∧ item.origin = none := by
  rw [h.items_eq] at hitem
  rw [← h.proper.kernel_size] at hi
  exact (h.isClosure wf).isPartial.slot_of_lt h.proper.kernel.numbered hitem hi

/-- The slot of an item behind the kernel is that of its left side. -/
theorem slot?_of_le (hitem : s.items[i]? = some item) (hi : s.kernelSize ≤ i) :
    item.core.dot = 0 ∧ item.core.rule < g.rules.size ∧
      item.origin = some (g.rule item.core.rule).lhs ∧
      (s.closure g).slot? (g.rule item.core.rule).lhs = some item.slot := by
  rw [h.items_eq] at hitem
  rw [← h.proper.kernel_size] at hi
  obtain ⟨-, r, hr⟩ := (h.isClosure wf).isPartial.added_of_le hitem hi
  have hrule : item.core.rule = r := congrArg Core.rule hr.core
  rw [hrule]
  exact ⟨congrArg Core.dot hr.core, hr.rule_lt, hr.origin, hr.slot⟩

theorem slot_range_of_le (hitem : s.items[i]? = some item) (hi : s.kernelSize ≤ i) :
    s.kernelSize ≤ item.slot ∧ item.slot < s.lookaheads.size := by
  have hslot := (h.isClosure wf).isPartial.slot_range (h.slot?_of_le wf hitem hi).2.2.2
  rw [h.proper.kernel_size, ← h.size_eq] at hslot
  exact hslot

/-- Both places are among the kernel's, both are behind it, or the slots differ. -/
theorem slot_eq_iff (hitem : s.items[i]? = some item) (hitem' : s.items[j]? = some item') :
    item.slot = item'.slot ↔ i = j ∨ (s.kernelSize ≤ i ∧ s.kernelSize ≤ j ∧
      (g.rule item.core.rule).lhs = (g.rule item'.core.rule).lhs) := by
  -- kernel items have the slots of their places, all others have slots behind these
  rcases Nat.lt_or_ge i s.kernelSize with hi | hi
  · have hslot := (h.slot_of_lt wf hitem hi).1
    rcases Nat.lt_or_ge j s.kernelSize with hj | hj
    · have hslot' := (h.slot_of_lt wf hitem' hj).1
      omega
    · have hslot' := (h.slot_range_of_le wf hitem' hj).1
      omega
  · rcases Nat.lt_or_ge j s.kernelSize with hj | hj
    · have hslot := (h.slot_range_of_le wf hitem hi).1
      have hslot' := (h.slot_of_lt wf hitem' hj).1
      omega
    · have hslot := (h.slot?_of_le wf hitem hi).2.2.2
      have hslot' := (h.slot?_of_le wf hitem' hj).2.2.2
      constructor
      · intro heq
        rw [← heq] at hslot'
        exact Or.inr ⟨hi, hj, (h.isClosure wf).isPartial.slot_inj hslot hslot'⟩
      · rintro (rfl | ⟨-, -, hlhs⟩)
        · rw [Option.some.inj (hitem.symm.trans hitem')]
        · rw [hlhs, hslot'] at hslot
          exact (Option.some.inj hslot).symm

/-- Of a closed state nothing else needs to be known. -/
theorem slotsApart : s.SlotsApart g where
  kernelSize_le := h.proper.items_le
  slot_lt {i item} hitem := by
    rcases Nat.lt_or_ge i s.kernelSize with hi | hi
    · rw [(h.slot_of_lt wf hitem hi).1]
      exact Nat.lt_of_lt_of_le hi h.proper.looks_le
    · exact (h.slot_range_of_le wf hitem hi).2
  kernel hi hitem := (h.slot_of_lt wf hitem hi).symm
  added hi hitem := by
    obtain ⟨hdot, hrule, horigin, -⟩ := h.slot?_of_le wf hitem hi
    exact ⟨hdot, hrule, horigin, (h.slot_range_of_le wf hitem hi).1⟩
  slot_eq_iff hitem hitem' := h.slot_eq_iff wf hitem hitem'
  member_lt ht := h.member_lt wf ht

end Closed

end State

/-! ## The states of a construction

  Every state of every stage is closed, so nothing else is needed. -/

namespace Construction

variable {d : Declarations} {settings : Settings} {c : Construction}

/-- In every stage the items of a state have their lookaheads apart, except for those that were
    added for the same nonterminal. -/
theorem slots_apart (h : d.build settings = .ok c) {s : Stage}
    (hs : Stage.Reaches c.analysis (Stage.start c.analysis) s) {p : Nat}
    (hp : p < s.work.states.size) : (s.work.state p).SlotsApart c.grammar := by
  have wf := wellFormed h
  rw [analysis_eq h] at hs
  exact (((Stage.Inv.start wf).reaches wf hs).sound.closed hp).slotsApart wf

/-- The theorem for the last stage of sums, and for the first one.  There the two rules of `E` share
    a slot, and the rule of `T` has another one. -/
theorem slots_apart_sums : ∃ c s, sums.build = .ok c ∧
    Stage.Reaches c.analysis (Stage.start c.analysis) s ∧ s.next c.analysis = none ∧
    (∀ p < s.work.states.size, (s.work.state p).SlotsApart c.grammar) ∧
    ((Stage.start c.analysis).work.state 0).SlotsApart c.grammar ∧
    ((Stage.start c.analysis).work.state 0).items.toList.map (·.slot) = [0, 1, 1, 2] := by
  obtain ⟨s, hreach, hdone, -⟩ := exists_final sums_build
  refine ⟨_, s, sums_build, hreach, hdone, fun p hp => slots_apart sums_build hreach hp,
    slots_apart sums_build .refl Nat.one_pos, ?_⟩
  decide +kernel

end Construction

end Lalr
