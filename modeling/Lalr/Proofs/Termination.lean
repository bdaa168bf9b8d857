/-
  The work on the automaton ends.

  Every piece of work explores a state or takes one off the stack, and a state is put on the stack
  only when a kernel lookahead grows.  So `explored + total` outruns the stack by at least the
  number of steps (`Inv.work`).  Where all rules are short it is bounded:

    1. a signature is a set of cores, and no two states have the same one, so there are at most
       `2 ^ coreCount` states (`Sound.size_le`);
    2. a kernel has at most `coreCount` items, each with a set of terminals (`Sound.total_le`).

  The limit of `Automaton.ofAnalysis` lies above that bound, so its work is done
  (`Automaton.finished_of_isShort`): every state is explored, and none is left that grew
  (`Automaton.ofAnalysis_spec`).
-/
import Mathlib
import Lalr.Proofs.Exploration

namespace Lalr

open SymbolSet State

variable {g : Grammar}

namespace Worklist

/-! ## Cores

  Cores of the rules are a finite set.  A dot that is moved stays in its rule, so no other cores
  come up. -/

/-- The cores of a grammar. -/
def cores (g : Grammar) : List Core :=
  (List.range g.rules.size).flatMap fun r =>
    (List.range ((g.rule r).rhs.length + 1)).map (Core.mk r)

theorem length_cores (g : Grammar) : (cores g).length = coreCount g := by
  have hfold : ∀ (rs : List Rule) (n : Nat), rs.foldl (fun n r => n + r.rhs.length + 1) n =
      n + (rs.map fun r => r.rhs.length + 1).sum := by
    intro rs
    induction rs with
    | nil => exact fun n => rfl
    | cons r rs ih =>
      intro n
      rw [List.foldl_cons, ih, List.map_cons, List.sum_cons]
      omega
  rw [coreCount, ← Array.foldl_toList, hfold, g.toList_rules, Nat.zero_add, cores,
    List.length_flatMap, List.map_map]
  congr 1
  refine List.map_congr_left fun r _ => ?_
  simp

/-- A dot moved over a symbol stands in a rule of the grammar, not past its end. -/
theorem advance_mem_cores {b : Core} {x : Symbol} (h : b.next? g = some x) :
    b.advance ∈ cores g := by
  have hle : (b.dot + 1) % 65536 ≤ (g.rule b.rule).rhs.length :=
    (Nat.mod_le _ _).trans (Core.dot_lt_of_next? h)
  exact List.mem_flatMap.mpr ⟨b.rule, List.mem_range.mpr (Core.rule_lt_of_next? h),
    List.mem_map.mpr ⟨(b.dot + 1) % 65536, List.mem_range.mpr (Nat.lt_succ_of_le hle), rfl⟩⟩

theorem zero_mem_cores (wf : g.WellFormed) : (⟨0, 0⟩ : Core) ∈ cores g :=
  List.mem_flatMap.mpr ⟨0, List.mem_range.mpr wf.rules_pos,
    List.mem_map.mpr ⟨0, List.mem_range.mpr (Nat.succ_pos _), rfl⟩⟩

/-! ## How many states there are

  Signatures are sorted, so that as lists they are told apart by their members. -/

variable {E : Edges} {w : Worklist}

/-- The signatures of states are made of the grammar's cores. -/
theorem Sound.mem_cores (wf : g.WellFormed) (h : Sound g E w) {p : Nat} (hp : p < w.states.size)
    {c : Core} (hc : c ∈ (w.state p).signature) : c ∈ cores g := by
  rcases Nat.eq_zero_or_pos p with rfl | hpos
  · rw [h.start.2, List.mem_singleton] at hc
    exact hc ▸ zero_mem_cores wf
  · obtain ⟨q, x, he⟩ := h.entered hp hpos
    obtain ⟨b, -, hnext, rfl⟩ := (h.edge_signature he).mp hc
    exact advance_mem_cores hnext

section

variable (hg : g.IsShort)

include hg

/-- The kernel of a state has at most as many items as there are cores. -/
theorem Sound.kernelSize_le (wf : g.WellFormed) (h : Sound g E w) {p : Nat}
    (hp : p < w.states.size) : (w.state p).kernelSize ≤ coreCount g := by
  obtain ⟨l, hl, hsig, hkernel⟩ := h.signed hp
  have hsub : l ⊆ cores g := fun c hc =>
    h.mem_cores wf hp (by rw [hsig, List.mem_mergeSort]; exact hc)
  have hlen := ((hl.nodup hg).subperm hsub).length_le
  have hsize := congrArg List.length hkernel
  rw [List.length_map, Array.length_toList, (h.closed hp).proper.kernel_size,
    List.length_take] at hsize
  rw [length_cores] at hlen
  omega

/-- States with the same cores in their signatures are the same state. -/
theorem Sound.eq_of_signature (wf : g.WellFormed) (h : Sound g E w) {p q : Nat}
    (hp : p < w.states.size)
    (hq : q < w.states.size)
    (hsame : ∀ c, c ∈ (w.state p).signature ↔ c ∈ (w.state q).signature) : p = q := by
  -- a state that is entered by an edge does not have the core of the first state
  have hzero : ∀ {r}, r < w.states.size → 0 < r →
      ¬ ∀ c, c ∈ (w.state 0).signature ↔ c ∈ (w.state r).signature := by
    intro r hr hpos hall
    obtain ⟨q, x, he⟩ := h.entered hr hpos
    have hmem := (hall ⟨0, 0⟩).mp (by rw [h.start.2]; exact List.mem_singleton_self _)
    obtain ⟨b, -, hnext, heq⟩ := (h.edge_signature he).mp hmem
    rw [Core.advance_eq (hg.core b) hnext] at heq
    injection heq with h1 h2
    exact absurd h2 (Nat.succ_ne_zero _).symm
  rcases Nat.eq_zero_or_pos p with rfl | hp0 <;> rcases Nat.eq_zero_or_pos q with rfl | hq0
  · rfl
  · exact absurd hsame (hzero hq hq0)
  · exact absurd (fun c => (hsame c).symm) (hzero hp hp0)
  · obtain ⟨p', x, hx⟩ := h.entered hp hp0
    obtain ⟨q', y, hy⟩ := h.entered hq hq0
    obtain ⟨c, hc⟩ := List.exists_mem_of_ne_nil _ (h.edge_nonempty hx)
    have hc' := (hsame c).mp hc
    obtain ⟨b, hb, hnext, heq⟩ := (h.edge_signature hx).mp hc
    obtain ⟨b', hb', hnext', heq'⟩ := (h.edge_signature hy).mp hc'
    have hb : b = b' := ((h.closed (h.edge_src hx)).fits wf hb).advance_inj
      ((h.closed (h.edge_src hy)).fits wf hb') (heq.symm.trans heq')
    have hxy : x = y := by
      rw [hb, hnext'] at hnext
      injection hnext with hnext
      exact hnext.symm
    refine h.distinct hp hq ((h.edge_entry hx).trans ?_) ((h.signed hp).ext hg (h.signed hq) hsame)
    rw [h.edge_entry hy, hxy]

/-- The signatures of the states are different sets of cores. -/
theorem Sound.size_le (wf : g.WellFormed) (h : Sound g E w) :
    w.states.size ≤ 2 ^ coreCount g := by
  have hmaps : ∀ p ∈ Finset.range w.states.size,
      (w.state p).signature.toFinset ∈ (cores g).toFinset.powerset := by
    intro p hp
    rw [Finset.mem_powerset]
    intro c hc
    rw [List.mem_toFinset] at hc ⊢
    exact h.mem_cores wf (Finset.mem_range.mp hp) hc
  have hinj : ∀ p ∈ Finset.range w.states.size, ∀ q ∈ Finset.range w.states.size,
      (w.state p).signature.toFinset = (w.state q).signature.toFinset → p = q := by
    intro p hp q hq heq
    refine h.eq_of_signature hg wf (Finset.mem_range.mp hp) (Finset.mem_range.mp hq) fun c => ?_
    rw [← List.mem_toFinset, ← List.mem_toFinset, heq]
  have hcard := Finset.card_le_card_of_injOn _ hmaps hinj
  rw [Finset.card_range, Finset.card_powerset] at hcard
  have hle : (cores g).toFinset.card ≤ coreCount g :=
    (List.toFinset_card_le _).trans (length_cores g).le
  exact hcard.trans (Nat.pow_le_pow_right (by decide) hle)

/-- There is an end to what the states can gain. -/
theorem Sound.total_le (wf : g.WellFormed) (h : Sound g E w) :
    total g w ≤ 2 ^ coreCount g * (coreCount g * g.alphabet.size) := by
  have hone : ∀ p ∈ Finset.range w.states.size,
      weight g (w.state p) ≤ coreCount g * g.alphabet.size := by
    intro p hp
    exact (tally_le _ _ _).trans (Nat.mul_le_mul (h.kernelSize_le hg wf (Finset.mem_range.mp hp))
      (Nat.le_add_right _ _))
  have hsum := Finset.sum_le_card_nsmul _ _ _ hone
  rw [Finset.card_range, smul_eq_mul] at hsum
  exact hsum.trans (Nat.mul_le_mul_right _ (h.size_le hg wf))

end

/-! ## The run

  As many steps as the limit allows would raise the measure past its bound, unless the work was
  done before. -/

/-- Steps keep the invariant. -/
theorem Inv.run (wf : g.WellFormed) (limit : Nat) {w : Worklist} (h : Inv g w) :
    Inv g (run (Analysis.ofGrammar g) limit w) := by
  induction limit generalizing w with
  | zero => exact h
  | succ limit ih =>
    rw [Worklist.run]
    split
    · exact h
    · rename_i hleft
      exact ih (h.work wf hleft rfl).1

/-- Enough steps finish the work. -/
theorem Inv.isDone_run (wf : g.WellFormed) (hg : g.IsShort) (limit : Nat) {w : Worklist}
    (h : Inv g w) (hlimit : 2 ^ coreCount g * (coreCount g * g.alphabet.size + 1) + w.grown.length <
      limit + (w.explored + total g w)) :
    (Worklist.run (Analysis.ofGrammar g) limit w).isDone = true := by
  induction limit generalizing w with
  | zero =>
    have hexplored := h.sound.explored_le.trans (h.sound.size_le hg wf)
    have htotal := h.sound.total_le hg wf
    rw [Nat.mul_add, Nat.mul_one] at hlimit
    omega
  | succ limit ih =>
    rw [Worklist.run]
    split
    · assumption
    · rename_i hleft
      obtain ⟨hinv, hgain⟩ := h.work wf hleft rfl
      exact ih hinv (by omega)

/-- When no work is left, every state is explored and none is on the stack. -/
theorem Inv.of_isDone {w : Worklist} (h : Inv g w) (hdone : w.isDone = true) :
    Inv g { w with explored := w.states.size, grown := [] } := by
  obtain ⟨hsize, hgrown⟩ := isDone_iff.mp hdone
  obtain ⟨states, explored, grown, emptyItems, entered⟩ := w
  obtain rfl : grown = [] := hgrown
  obtain rfl : explored = states.size := Nat.le_antisymm h.sound.explored_le hsize
  exact h

end Worklist

namespace Automaton

/-- With short rules the work is done within the limit. -/
theorem finished_of_isShort (wf : g.WellFormed) (hg : g.IsShort) :
    (ofAnalysis (Analysis.ofGrammar g)).finished = true := by
  refine (Worklist.Inv.start wf).isDone_run wf hg (Worklist.stepLimit g) ?_
  show _ + 0 < Worklist.stepLimit g + _
  rw [Worklist.stepLimit, Nat.one_shiftLeft]
  omega

/-- The finished automaton as a worklist. -/
def worklist (automaton : Automaton) : Worklist where
  states := automaton.states
  explored := automaton.states.size
  grown := []
  emptyItems := automaton.emptyItems
  entered := automaton.entered

/-- When the work is done the invariant holds, with every state explored and none left that grew. -/
theorem ofAnalysis_spec (wf : g.WellFormed)
    (hfinished : (ofAnalysis (Analysis.ofGrammar g)).finished = true) :
    Worklist.Inv g (ofAnalysis (Analysis.ofGrammar g)).worklist :=
  ((Worklist.Inv.start wf).run wf (Worklist.stepLimit g)).of_isDone hfinished

end Automaton

end Lalr
