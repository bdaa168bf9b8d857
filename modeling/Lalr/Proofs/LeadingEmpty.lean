/-
  Which nonterminals are marked.

  A nonterminal is marked if an empty rule is reached from it through leading symbols
  (`Grammar.LeadsToEmpty`), and only then.

    1. A pass takes no mark back and reports a change exactly if it sets one, so each pass but the
       last sets one, and they end (`exists_stopsAfter`).
    2. Every mark has a chain of leading symbols that ends at an empty rule (`Sound`).
    3. A pass that reports nothing has found every rule obeyed (`pass_stayed`), so no chain
       is missed.

  Together: `isMarked_iff`.  It asks of the grammar only that left sides are nonterminals, so rules
  may stand in any order (`ofGrammar_perm`).
-/
import Mathlib
import Lalr.LeadingEmpty
import Lalr.Proofs.Derivation
import Lalr.Proofs.Reports
import Lalr.Proofs.WellFormed

namespace Lalr

/-! ## Leading symbols

  `LeadsToEmpty` is a chain from a nonterminal on.  A set of nonterminals that obeys all rules
  has every nonterminal from which such a chain begins. -/

namespace Grammar

variable {g : Grammar} {P : Nat → Prop} {a b : Nat}

/-- The rules of a grammar are those with numbers. -/
theorem mem_rules {rule : Rule} : rule ∈ g.rules ↔ ∃ r, r < g.rules.size ∧ g.rule r = rule := by
  rw [← Array.mem_toList_iff, g.toList_rules, List.mem_map]
  simp only [List.mem_range]

/-- Left sides are nonterminals. -/
theorem WellFormed.lhs_of_mem (wf : g.WellFormed) :
    ∀ rule ∈ g.rules, rule.lhs < g.nonterminalCount := by
  intro rule hmem
  obtain ⟨r, hr, rfl⟩ := mem_rules.mp hmem
  exact wf.lhs_lt hr

/-- A rule of nonterminal `a` begins with nonterminal `b`. -/
def LeadsTo (g : Grammar) (a b : Nat) : Prop :=
  ∃ rule ∈ g.rules, rule.lhs = a ∧ rule.rhs.head? = some (.nonterminal b)

/-- Nonterminal `a` has an empty rule. -/
def HasEmptyRule (g : Grammar) (a : Nat) : Prop :=
  ∃ rule ∈ g.rules, rule.lhs = a ∧ rule.rhs = []

/-- An empty rule is reached from nonterminal `a` through leading symbols. -/
def LeadsToEmpty (g : Grammar) (a : Nat) : Prop :=
  ∃ b, Relation.ReflTransGen g.LeadsTo a b ∧ g.HasEmptyRule b

/-- A right side is empty, or it begins with a nonterminal that is in `P`. -/
def BeginsIn (P : Nat → Prop) : List Symbol → Prop
  | [] => True
  | .terminal _ :: _ => False
  | .nonterminal b :: _ => P b

/-- What begins with members of a smaller set begins with members of a larger one. -/
theorem BeginsIn.mono {Q : Nat → Prop} (h : ∀ a, P a → Q a) {α : List Symbol} (hα : BeginsIn P α) :
    BeginsIn Q α := by
  match α with
  | [] => exact trivial
  | .terminal _ :: _ => exact hα
  | .nonterminal b :: _ => exact h b hα

/-- With such a right side the left side of a rule is in `P` as well. -/
def Obeyed (g : Grammar) (P : Nat → Prop) : Prop :=
  ∀ rule ∈ g.rules, BeginsIn P rule.rhs → P rule.lhs

/-- A nonterminal leads wherever the nonterminals lead that its rules begin with. -/
theorem LeadsToEmpty.step (h : g.LeadsTo a b) (hb : g.LeadsToEmpty b) : g.LeadsToEmpty a := by
  obtain ⟨z, hchain, hz⟩ := hb
  exact ⟨z, hchain.head h, hz⟩

/-- The set of the nonterminals that lead to empty rules obeys all rules. -/
theorem obeyed_leadsToEmpty (g : Grammar) : g.Obeyed g.LeadsToEmpty := by
  intro rule hmem hbegins
  cases hrhs : rule.rhs with
  | nil => exact ⟨rule.lhs, .refl, rule, hmem, rfl, hrhs⟩
  | cons x rest =>
    rw [hrhs] at hbegins
    cases x with
    | terminal t => exact hbegins.elim
    | nonterminal b =>
      have hb : g.LeadsToEmpty b := hbegins
      exact hb.step ⟨rule, hmem, rfl, by rw [hrhs, List.head?_cons]⟩

/-- Induction on the chain, from its end. -/
theorem LeadsToEmpty.of_obeyed (hP : g.Obeyed P) (h : g.LeadsToEmpty a) : P a := by
  obtain ⟨z, hchain, rule, hmem, rfl, hrhs⟩ := h
  induction hchain using Relation.ReflTransGen.head_induction_on with
  | refl => exact hP rule hmem (by rw [hrhs]; trivial)
  | head hlead _ ih =>
    obtain ⟨rule', hmem', rfl, hhead⟩ := hlead
    obtain ⟨rest, hrhs'⟩ := List.head?_eq_some_iff.mp hhead
    exact hP rule' hmem' (by rw [hrhs']; exact ih)

/-- What can vanish does so by way of leading symbols. -/
theorem Vanishes.leadsToEmpty (h : g.Vanishes [.nonterminal a]) : g.LeadsToEmpty a := by
  have hbegins : ∀ α, g.Vanishes α → BeginsIn g.LeadsToEmpty α := by
    intro α hα
    induction hα with
    | nil => trivial
    | cons hr _ _ ih => exact g.obeyed_leadsToEmpty _ (mem_rules.mpr ⟨_, hr, rfl⟩) ih
  exact hbegins _ h

end Grammar

open Grammar

namespace LeadingEmpty

variable {g : Grammar} {acc : LeadingEmpty × Bool} {r : Rule}

/-- Every nonterminal below `n` has a mark, or none has. -/
def uniform (n : Nat) (b : Bool) : LeadingEmpty :=
  ⟨Array.replicate n b⟩

/-- With all marks alike, each is the one that was asked for. -/
theorem isMarked_uniform {n a : Nat} (ha : a < n) (b : Bool) : (uniform n b).isMarked a = b := by
  rw [isMarked, uniform, Array.getD_eq_getD_getElem?, Array.getElem?_replicate, if_pos ha]
  rfl

/-- The facts that the marks tell. -/
def Holds (e : LeadingEmpty) (a : Nat) : Prop :=
  e.isMarked a = true

/-- What a pass asks of a right side, said about the marks that are set. -/
theorem leads_iff {e : LeadingEmpty} {α : List Symbol} : e.leads α = true ↔ BeginsIn e.Holds α := by
  match α with
  | [] => exact iff_of_true rfl trivial
  | .terminal _ :: _ => exact iff_of_false Bool.false_ne_true id
  | .nonterminal _ :: _ => exact Iff.rfl

/-- There is a mark for every nonterminal, and no mark is set without reason. -/
structure Sound (g : Grammar) (e : LeadingEmpty) : Prop where
  size : e.marks.size = g.nonterminalCount
  leads : ∀ a, e.Holds a → g.LeadsToEmpty a

/-- Only nonterminals have marks. -/
theorem Sound.lt {e : LeadingEmpty} (h : Sound g e) {a : Nat} (ha : e.Holds a) :
    a < g.nonterminalCount := by
  by_contra hge
  rw [Holds, isMarked, getD_of_size_le _ (by rw [h.size]; omega)] at ha
  exact absurd ha (by decide)

/-- No mark is set without reason where none is set. -/
theorem Sound.none (g : Grammar) : Sound g (uniform g.nonterminalCount false) where
  size := Array.size_replicate
  leads a h := by
    rw [Holds, isMarked, uniform, getD_replicate] at h
    exact absurd h (by decide)

/-! ## One pass

  A rule is read in the marks that are there at that moment, those included that the same pass
  has set. -/

/-- Setting a mark sets this one and no other. -/
theorem isMarked_mark {e : LeadingEmpty} {a b : Nat} (ha : a < e.marks.size) :
    (LeadingEmpty.mk (e.marks.setIfInBounds a true)).isMarked b = true ↔
      b = a ∨ e.isMarked b = true :=
  getD_setIfInBounds_true ha b

/-- Reading a rule takes no mark back, sets none without reason, and reports exactly whether it sets
    one. -/
theorem readRule_reports (hlhs : r.lhs < g.nonterminalCount) (hmem : r ∈ g.rules)
    (h : Sound g acc.1) : Sound g (readRule acc r).1 ∧ ReportsNew Holds acc (readRule acc r) := by
  rw [readRule]
  split
  · rename_i hcond
    rw [Bool.and_eq_true, Bool.not_eq_true'] at hcond
    obtain ⟨hleads, hnot⟩ := hcond
    have hlt : r.lhs < acc.1.marks.size := h.size ▸ hlhs
    refine ⟨⟨Array.size_setIfInBounds.trans h.size, fun a ha => ?_⟩, ⟨fun a ha => ?_, ?_⟩⟩
    · rcases (isMarked_mark hlt).mp ha with rfl | ha
      · exact g.obeyed_leadsToEmpty r hmem ((leads_iff.mp hleads).mono h.leads)
      · exact h.leads a ha
    · exact (isMarked_mark hlt).mpr (Or.inr ha)
    · refine iff_of_true rfl (Or.inr ⟨r.lhs, (isMarked_mark hlt).mpr (Or.inl rfl), ?_⟩)
      rw [Holds, hnot]
      exact Bool.false_ne_true
  · exact ⟨h, .refl Holds acc⟩

/-- A rule that was read without a report is obeyed. -/
theorem readRule_stayed (h : (readRule acc r).2 = false) : acc.2 = false ∧
    (readRule acc r).1 = acc.1 ∧ (BeginsIn acc.1.Holds r.rhs → acc.1.Holds r.lhs) := by
  rw [readRule] at h ⊢
  split at h
  · exact absurd h (by simp)
  · rename_i hcond
    rw [if_neg hcond]
    refine ⟨h, rfl, fun hbegins => ?_⟩
    by_contra hnot
    rw [Holds, Bool.not_eq_true] at hnot
    exact hcond (by rw [leads_iff.mpr hbegins, hnot]; rfl)

/-- A pass reads the rules from the first to the last. -/
theorem pass_eq (g : Grammar) (e : LeadingEmpty) :
    pass g e = g.rules.toList.foldl readRule (e, false) := by
  rw [pass, Array.foldl_toList]

/-- A pass without a report has found every rule obeyed, and changed nothing. -/
theorem pass_stayed {e : LeadingEmpty} (h : (pass g e).2 = false) :
    (pass g e).1 = e ∧ g.Obeyed e.Holds := by
  rw [pass_eq] at h ⊢
  obtain ⟨-, hsame, hobeyed⟩ := foldl_stayed
    (Q := fun e r => BeginsIn e.Holds r.rhs → e.Holds r.lhs) readRule_stayed h
  exact ⟨hsame, fun rule hmem => hobeyed rule (Array.mem_toList_iff.mpr hmem)⟩

/-! ## All passes

  The order of the rules decides how many passes it takes, and nothing else. -/

section

variable (hlhs : ∀ rule ∈ g.rules, rule.lhs < g.nonterminalCount)
include hlhs

/-- So a pass does what reading one rule does. -/
theorem pass_reports {e : LeadingEmpty} (h : Sound g e) :
    Sound g (pass g e).1 ∧ ReportsNew Holds (e, false) (pass g e) := by
  rw [pass_eq]
  refine ReportsNew.foldl (fun rule hmem acc hacc => ?_) h
  have hrule := Array.mem_toList_iff.mp hmem
  exact readRule_reports (hlhs rule hrule) hrule hacc

/-- The passes come to an end, after as many as there are nonterminals at the latest: each but the
    last sets a mark. -/
theorem exists_stopsAfter : ∃ k, k ≤ g.nonterminalCount ∧
    StopsAfter (pass g) (uniform g.nonterminalCount false) k ∧
    ofGrammar g = rounds (pass g) k (uniform g.nonterminalCount false) := by
  obtain ⟨k, hk, hstops, hresult⟩ :=
    ReportsNew.exists_stopsAfter (K := Finset.range g.nonterminalCount)
    (fun e he => pass_reports hlhs he) (fun e he a ha => Finset.mem_range.mpr (he.lt ha)) (.none g)
  rw [Finset.card_range] at hk hresult
  refine ⟨k, hk, hstops, ?_⟩
  have hlast := hresult (g.nonterminalCount + 1) (Nat.lt_succ_self _)
  rw [rounds_succ, (pass_stayed hstops.last).1] at hlast
  exact hlast

/-- Where the passes end, all rules are obeyed, and no mark is set without reason. -/
theorem ofGrammar_spec : Sound g (ofGrammar g) ∧ g.Obeyed (ofGrammar g).Holds := by
  obtain ⟨k, -, hstops, hresult⟩ := exists_stopsAfter hlhs
  have hsound := rounds_induction (fun e (he : Sound g e) => (pass_reports hlhs he).1) (.none g) k
  rw [hresult]
  exact ⟨hsound, (pass_stayed hstops.last).2⟩

/-- The marked nonterminals are those that lead to a nonterminal with an empty rule. -/
theorem isMarked_iff {a : Nat} : (ofGrammar g).isMarked a = true ↔ g.LeadsToEmpty a :=
  ⟨(ofGrammar_spec hlhs).1.leads a, fun h => h.of_obeyed (ofGrammar_spec hlhs).2⟩

/-- The rules may be read in any order. -/
theorem ofGrammar_perm {g' : Grammar} (halphabet : g'.alphabet = g.alphabet)
    (hperm : g'.rules.toList.Perm g.rules.toList) : ofGrammar g' = ofGrammar g := by
  have hmem : ∀ rule, rule ∈ g'.rules ↔ rule ∈ g.rules := by
    intro rule
    rw [← Array.mem_toList_iff, hperm.mem_iff, Array.mem_toList_iff]
  have hcount : g'.nonterminalCount = g.nonterminalCount := by
    rw [nonterminalCount, nonterminalCount, halphabet]
  have hlhs' : ∀ rule ∈ g'.rules, rule.lhs < g'.nonterminalCount := by
    intro rule hrule
    rw [hcount]
    exact hlhs rule ((hmem rule).mp hrule)
  -- what the marks are about does not depend on the order of the rules
  have hleads : g'.LeadsTo = g.LeadsTo := by
    funext a b
    simp only [LeadsTo, hmem]
  have hempty : g'.HasEmptyRule = g.HasEmptyRule := by
    funext a
    simp only [HasEmptyRule, hmem]
  have hsize : (ofGrammar g').marks.size = (ofGrammar g).marks.size := by
    rw [(ofGrammar_spec hlhs').1.size, (ofGrammar_spec hlhs).1.size, hcount]
  -- so neither do the marks, entry by entry
  have hmarks : (ofGrammar g').marks = (ofGrammar g).marks := by
    refine ext_getD false hsize fun a => Bool.eq_iff_iff.mpr ?_
    have hiff : (ofGrammar g').isMarked a = true ↔ (ofGrammar g).isMarked a = true := by
      rw [isMarked_iff hlhs', isMarked_iff hlhs, LeadsToEmpty, LeadsToEmpty, hleads, hempty]
    exact hiff
  exact congrArg LeadingEmpty.mk hmarks

end

/-- The left side of an empty rule is marked. -/
theorem isMarked_of_empty (wf : g.WellFormed) {r : Nat} (hr : r < g.rules.size)
    (hrhs : (g.rule r).rhs = []) : (ofGrammar g).isMarked (g.rule r).lhs = true :=
  (isMarked_iff wf.lhs_of_mem).mpr ⟨_, .refl, _, mem_rules.mpr ⟨r, hr, rfl⟩, rfl, hrhs⟩

end LeadingEmpty

end Lalr
