/-
  Cores and their dots.

  The dot of a core is counted in 16 bits.  What is true of every core that comes up is `Core.Fits`:
  its dot stands in its rule, at a place that the count can name.  Moving a dot keeps that
  (`Fits.advance`), and no two dots are moved to one place (`Fits.advance_inj`).

  A rule is short if the count can name each of its places.  In a short rule a dot is moved behind
  the next symbol (`Core.advance_eq`); in a longer one it is once moved back to the front.  So

    1. only short rules are ever completed (`Fits.isShort_of_complete`);
    2. cores of short rules are met once where cores of longer ones may repeat (`Core.Distinct`).
-/
import Mathlib
import Lalr.Item
import Lalr.Proofs.Growth
import Lalr.Proofs.WellFormed

namespace Lalr

variable {g : Grammar}

namespace Core

/-! ## The symbol after the dot

  A core may name a rule that does not exist, or a place past its end.  There is no symbol after
  the dot then, so that a symbol after the dot says that both are in range. -/

/-- The symbol after the dot is the first of those after it. -/
theorem next?_eq_some {c : Core} {x : Symbol} :
    c.next? g = some x ↔ ∃ rest, c.afterDot g = x :: rest := by
  rw [next?, List.head?_eq_some_iff]

theorem next?_of_afterDot {c : Core} {x : Symbol} {rest : List Symbol}
    (h : c.afterDot g = x :: rest) : c.next? g = some x :=
  next?_eq_some.mpr ⟨rest, h⟩

/-- The symbol after the dot, by its place in the right side. -/
theorem next?_eq_getElem? (g : Grammar) (c : Core) :
    c.next? g = (g.rule c.rule).rhs[c.dot]? := by
  rw [next?, afterDot_eq, List.head?_drop]

/-- It stands in the right side. -/
theorem next?_mem {c : Core} {x : Symbol} (h : c.next? g = some x) :
    x ∈ (g.rule c.rule).rhs := by
  obtain ⟨rest, hrest⟩ := next?_eq_some.mp h
  rw [afterDot_eq] at hrest
  exact List.mem_of_mem_drop (hrest ▸ List.mem_cons_self)

/-- Nothing stands behind the dot. -/
theorem isComplete_iff {c : Core} :
    c.isComplete g = true ↔ (g.rule c.rule).rhs.length ≤ c.dot := by
  rw [isComplete, afterDot_eq, List.isEmpty_iff, List.drop_eq_nil_iff]

/-- A dot with a symbol after it is not at the end. -/
theorem dot_lt_of_next? {c : Core} {x : Symbol} (h : c.next? g = some x) :
    c.dot < (g.rule c.rule).rhs.length := by
  rw [next?_eq_getElem?] at h
  exact (List.getElem?_eq_some_iff.mp h).1

/-- Past the rules of the grammar there are no symbols. -/
theorem rule_lt_of_next? {c : Core} {x : Symbol} (h : c.next? g = some x) :
    c.rule < g.rules.size := by
  by_contra hlt
  have hmem := next?_mem h
  rw [Grammar.rule, getD_of_size_le _ (Nat.le_of_not_lt hlt)] at hmem
  exact absurd hmem List.not_mem_nil

/-- A nonterminal after a dot is one of the grammar's, and not the added start symbol. -/
theorem nonterminal_of_next? (wf : g.WellFormed) {c : Core} {a : Nat}
    (h : c.next? g = some (.nonterminal a)) : 0 < a ∧ a < g.nonterminalCount := by
  have hr := rule_lt_of_next? h
  have hmem := next?_mem h
  refine ⟨Nat.pos_of_ne_zero fun h0 => ?_, wf.rhs_has hr _ hmem⟩
  subst h0
  rcases Nat.eq_zero_or_pos c.rule with hz | hpos
  · rw [hz, wf.rhs_zero] at hmem
    obtain ⟨b, hb, hbpos⟩ := wf.start_inner
    rw [hb] at hmem
    simp only [List.mem_cons, Symbol.nonterminal.injEq, List.not_mem_nil, or_false] at hmem
    rcases hmem with hmem | hmem
    · omega
    · exact absurd hmem (by simp)
  · exact (wf.rhs_inner hpos hr _ hmem).2 rfl

/-! ## Dots that are moved

  The count has 65536 values, so the dot behind the last symbol that it can count is moved to the
  front.  In a short rule no symbol is that far on. -/

/-- The dot behind the next symbol, however far that is. -/
def succ (c : Core) : Core :=
  ⟨c.rule, c.dot + 1⟩

/-- A short rule has so few symbols that 16 bits count the places in it. -/
theorem isShort_iff {c : Core} :
    c.isShort g = true ↔ (g.rule c.rule).rhs.length < 65536 := by
  rw [isShort, decide_eq_true_iff, g.tails_eq, Rule.allTails, Array.getD_eq_getD_getElem?,
    Array.getElem?_map, Grammar.rule, Array.getD_eq_getD_getElem?]
  cases g.rules[c.rule]? with
  | none => decide
  | some rule =>
    show (tailsOf rule.rhs).length ≤ 65536 ↔ rule.rhs.length < 65536
    rw [Grammar.length_tailsOf, Nat.lt_iff_add_one_le]

/-- Before a symbol of a short rule the count has a next place. -/
theorem advance_eq {c : Core} (hshort : c.isShort g = true) {x : Symbol}
    (hnext : c.next? g = some x) : c.advance = c.succ := by
  have hlt := dot_lt_of_next? hnext
  have hlen := isShort_iff.mp hshort
  rw [advance, succ, Nat.mod_eq_of_lt (by omega)]

/-- The dot stands in the rule, at a place that 16 bits can name. -/
structure Fits (g : Grammar) (c : Core) : Prop where
  rule_lt : c.rule < g.rules.size
  dot_le : c.dot ≤ (g.rule c.rule).rhs.length
  dot_lt : c.dot < 65536

namespace Fits

variable {c d : Core}

/-- Items start with the dot in front. -/
theorem front {r : Nat} (hr : r < g.rules.size) : (⟨r, 0⟩ : Core).Fits g :=
  ⟨hr, Nat.zero_le _, Nat.zero_lt_succ _⟩

/-- A dot that is moved stays in its rule: it gets behind the symbol, or starts over. -/
theorem advance (h : c.Fits g) {x : Symbol} (hnext : c.next? g = some x) :
    c.advance.Fits g where
  rule_lt := h.rule_lt
  dot_le := (Nat.mod_le _ _).trans (dot_lt_of_next? hnext)
  dot_lt := Nat.mod_lt _ (by decide)

/-- No two dots are moved to one place, though some are moved back to the front: only the dot behind
    symbol 65535 is. -/
theorem advance_inj (h : c.Fits g) (h' : d.Fits g) (heq : c.advance = d.advance) : c = d := by
  have hc := h.dot_lt
  have hd := h'.dot_lt
  obtain ⟨r, i⟩ := c
  obtain ⟨r', i'⟩ := d
  simp only [Core.advance, Core.mk.injEq] at heq hc hd ⊢
  omega

/-- A dot that is not moved back to the front is moved behind the symbol. -/
theorem advance_eq_succ (h : c.Fits g) (hdot : 0 < c.advance.dot) : c.advance = c.succ := by
  have hlt := h.dot_lt
  simp only [Core.advance, Core.succ, Core.mk.injEq, true_and] at hdot ⊢
  omega

/-- The dot of a longer rule never gets to its end. -/
theorem isShort_of_complete (h : c.Fits g) (hcomplete : c.isComplete g = true) :
    c.isShort g = true := by
  exact isShort_iff.mpr (Nat.lt_of_le_of_lt (isComplete_iff.mp hcomplete) h.dot_lt)

/-- A complete core has its dot at the end, and not further on. -/
theorem dot_of_complete (h : c.Fits g) (hcomplete : c.isComplete g = true) :
    c.dot = (g.rule c.rule).rhs.length :=
  Nat.le_antisymm h.dot_le (isComplete_iff.mp hcomplete)

end Fits

/-! ## Lists of cores -/

/-- No core of a short rule is there twice. -/
def Distinct (g : Grammar) (cores : List Core) : Prop :=
  (cores.filter (·.isShort g)).Nodup

theorem Distinct.sublist {l m : List Core} (h : Distinct g m) (hsub : l.Sublist m) :
    Distinct g l :=
  List.Nodup.sublist (hsub.filter _) h

/-- If all rules are short, no core is there twice. -/
theorem Distinct.nodup_of_forall {l : List Core} (h : Distinct g l)
    (hshort : ∀ c ∈ l, c.isShort g = true) : l.Nodup := by
  rwa [Distinct, List.filter_eq_self.mpr hshort] at h

/-- Dots that are moved stay apart. -/
theorem Distinct.map_advance {l : List Core} (h : Distinct g l) (hfits : ∀ c ∈ l, c.Fits g) :
    Distinct g (l.map Core.advance) := by
  have hfilter : (l.map Core.advance).filter (·.isShort g) =
      (l.filter (·.isShort g)).map Core.advance := by
    rw [List.filter_map]
    rfl
  rw [Distinct, hfilter]
  exact h.map_on fun c hc d hd heq =>
    (hfits c (List.mem_of_mem_filter hc)).advance_inj (hfits d (List.mem_of_mem_filter hd)) heq

end Core

/-- All rules are short. -/
def Grammar.IsShort (g : Grammar) : Prop :=
  ∀ r, (g.rule r).rhs.length < 65536

/-- Only the rules that there are count. -/
theorem Grammar.isShort_iff : g.IsShort ↔ ∀ rule ∈ g.rules, rule.rhs.length < 65536 := by
  constructor
  · intro h rule hrule
    obtain ⟨r, hr⟩ := Array.mem_iff_getElem?.mp hrule
    have hlt := h r
    rwa [Grammar.rule, Array.getD_eq_getD_getElem?, hr] at hlt
  · intro h r
    rw [Grammar.rule, Array.getD_eq_getD_getElem?]
    cases hr : g.rules[r]? with
    | none => decide
    | some rule => exact h rule (Array.mem_of_getElem? hr)

/-- All cores are then of short rules. -/
theorem Grammar.IsShort.core (h : g.IsShort) (c : Core) : c.isShort g = true :=
  Core.isShort_iff.mpr (h c.rule)

theorem Core.Distinct.nodup {cores : List Core} (h : Core.Distinct g cores) (hg : g.IsShort) :
    cores.Nodup :=
  h.nodup_of_forall fun c _ => hg.core c

end Lalr
