/-
  What was computed to stand first, and to vanish, is what does.

  That the passes over the rules end is known (`Lalr.Proofs.Pass`).  What they find is followed by
  two invariants:

    1. `Firsts.Sound`: whatever is marked does vanish, and whatever is in a set does begin a string
       derived from the nonterminal.  Every pass keeps it.
    2. `Firsts.Settled`: a pass that reports no change has found every rule obeyed.  The facts that
       hold by the rules of `Vanishes` and `Begins` are then all there.

  Together: `isNullable_iff` and `mem_firstOf_iff`, and `ofSymbols_spec` for strings of symbols.
  `ofGrammar_exact` says it in terms of `Derives`.
-/
import Mathlib
import Lalr.First
import Lalr.Proofs.Derivation
import Lalr.Proofs.Pass

namespace Lalr

open Grammar SymbolSet

/-! ## Terminals that begin something are in the alphabet -/

/-- What a string can begin with is a terminal. -/
theorem Grammar.WellFormed.begins_lt {g : Grammar} (wf : g.WellFormed) {t : Nat} {α : List Symbol}
    (h : g.Begins t α) (hα : ∀ x ∈ α, g.alphabet.Has x) : t < g.terminalCount := by
  induction h with
  | terminal => exact hα _ (List.mem_cons_self ..)
  | rule hr _ ih => exact ih (wf.rhs_has hr)
  | skip _ _ ih => exact ih fun x hx => hα x (List.mem_cons_of_mem _ hx)

namespace Firsts

variable {g : Grammar}

/-! ## Reading a string of symbols

  Reading goes on as long as symbols are marked.  `Leads` says the same of the sets, without an
  order in which they are read. -/

/-- Are all symbols of the string marked nonterminals? -/
def AllNullable (f : Firsts) : List Symbol → Prop
  | [] => True
  | .terminal _ :: _ => False
  | .nonterminal a :: rest => f.isNullable a = true ∧ f.AllNullable rest

/-- Is `t` first in the string, as far as the sets tell? -/
def Leads (f : Firsts) (t : Nat) : List Symbol → Prop
  | [] => False
  | .terminal u :: _ => u = t
  | .nonterminal a :: rest => t ∈ f.firstOf a ∨ (f.isNullable a = true ∧ f.Leads t rest)

/-- What `ofSymbols` adds to a set, and what it says about vanishing. -/
theorem ofSymbols_reads (f : Firsts) (α : List Symbol) (acc : SymbolSet) :
    (∀ t, t ∈ (f.ofSymbols α acc).1 ↔ t ∈ acc ∨ f.Leads t α) ∧
      ((f.ofSymbols α acc).2 = true ↔ f.AllNullable α) := by
  -- along the string, for as long as what is read may vanish
  induction α generalizing acc with
  | nil => simp [ofSymbols, Leads, AllNullable]
  | cons x α ih =>
    cases x with
    | terminal u =>
      simp only [ofSymbols, Leads, AllNullable, mem_insert]
      exact ⟨fun t => by rw [eq_comm (a := t)], by simp⟩
    | nonterminal a =>
      simp only [ofSymbols, Leads, AllNullable]
      by_cases ha : f.isNullable a = true
      · rw [if_pos ha]
        obtain ⟨h1, h2⟩ := ih (acc.union (f.firstOf a)).1
        refine ⟨fun t => ?_, ?_⟩
        · rw [h1, mem_union, or_assoc]
          simp [ha]
        · rw [h2]
          simp [ha]
      · rw [if_neg ha]
        refine ⟨fun t => ?_, by simp [ha]⟩
        rw [mem_union]
        simp [ha]

/-! ## Invariant: everything found is so

  Sound tables stay so, in whatever order the rules are read: what has been found at some moment
  is so. -/

/-- The tables have a place for every nonterminal, and what they say is so. -/
structure Sound (g : Grammar) (f : Firsts) : Prop where
  size_nullable : f.nullable.size = g.nonterminalCount
  size_first : f.first.size = g.nonterminalCount
  vanishes : ∀ a, f.isNullable a = true → g.Vanishes [.nonterminal a]
  begins : ∀ a t, t ∈ f.firstOf a → g.Begins t [.nonterminal a]

/-- Empty tables say nothing wrong. -/
theorem Sound.empty (g : Grammar) : Sound g (empty g.nonterminalCount) where
  size_nullable := Array.size_replicate
  size_first := Array.size_replicate
  vanishes a h := by
    rw [isNullable, Firsts.empty, Array.getD_eq_getD_getElem?, Array.getElem?_replicate] at h
    split at h <;> exact absurd h (by decide)
  begins a t h := by
    rw [firstOf, Firsts.empty, getD_replicate] at h
    exact absurd h (not_mem_empty t)

/-- New members of a set that do begin the nonterminal keep the tables sound. -/
theorem Sound.withFirst {f : Firsts} (h : Sound g f) {sets : Array SymbolSet}
    (hsize : sets.size = f.first.size)
    (hsets : ∀ a t, InTable sets a t → InTable f.first a t ∨ g.Begins t [.nonterminal a]) :
    Sound g { f with first := sets } where
  size_nullable := h.size_nullable
  size_first := hsize.trans h.size_first
  vanishes := h.vanishes
  begins a t ht := (hsets a t ht).elim (h.begins a t) id

/-! ## One rule

  A right side is read symbol by symbol.  The symbols that were passed vanish, so that what
  begins the rest begins the left side. -/

/-- Reading the rest `α` of a right side, of which it is known that what begins `α` begins
    nonterminal `a`. -/
theorem absorb_spec {a : Nat} (ha : a < g.nonterminalCount) {α : List Symbol} {f : Firsts}
    (h : Sound g f) (grew : Bool) (hα : ∀ t, g.Begins t α → g.Begins t [.nonterminal a]) :
    Sound g (absorb a α f grew).1 ∧ ((absorb a α f grew).2.2 = true → g.Vanishes α) := by
  -- along the string, for as long as what is read may vanish
  induction α generalizing f grew with
  | nil => exact ⟨h, fun _ => .nil⟩
  | cons x α ih =>
    have hsize : a < f.first.size := by
      rw [h.size_first]
      exact ha
    cases x with
    | terminal u =>
      refine ⟨h.withFirst (size_insertAt ..) fun b t hb => ?_,
        fun hc => absurd hc (by simp [absorb])⟩
      rcases (inTable_insertAt hsize).mp hb with hb | ⟨rfl, rfl⟩
      · exact Or.inl hb
      · exact Or.inr (hα _ .terminal)
    | nonterminal b =>
      have hf : Sound g { f with first := (absorbAt f.first a b).1 } := by
        refine h.withFirst (size_absorbAt ..) fun c t hc => ?_
        rcases (inTable_absorbAt hsize).mp hc with hc | ⟨rfl, hb⟩
        · exact Or.inl hc
        · exact Or.inr (hα t ((h.begins b t hb).append_right α))
      rw [absorb_nonterminal]
      by_cases hb : f.isNullable b = true
      · rw [if_pos hb]
        have hvan : g.Vanishes [.nonterminal b] := h.vanishes b hb
        obtain ⟨hs, hv⟩ := ih hf (grew || (absorbAt f.first a b).2) fun t ht => hα t (.skip hvan ht)
        exact ⟨hs, fun hc => hvan.append (hv hc)⟩
      · rw [if_neg hb]
        exact ⟨hf, fun hc => absurd hc (by simp)⟩

/-- Reading a rule adds nothing wrong. -/
theorem readRule_spec (wf : g.WellFormed) {acc : Firsts × Bool} {r : Nat} (h : Sound g acc.1)
    (hr : r < g.rules.size) : Sound g (readRule acc (g.rule r)).1 := by
  obtain ⟨hs, hv⟩ := absorb_spec (wf.lhs_lt hr) h acc.2 fun t ht => .rule hr ht
  rw [readRule]
  split
  · rename_i f grew heq
    rw [heq] at hs
    exact hs
  · rename_i f grew heq
    rw [heq] at hs hv
    split
    · exact hs
    · have hlhs : (g.rule r).lhs < f.nullable.size := by
        rw [hs.size_nullable]
        exact wf.lhs_lt hr
      refine ⟨?_, hs.size_first, fun b hb => ?_, hs.begins⟩
      · show (f.nullable.setIfInBounds _ true).size = _
        rw [Array.size_setIfInBounds, hs.size_nullable]
      · rcases (isNullable_mark hlhs).mp hb with hb | rfl
        · exact hs.vanishes b hb
        · exact .cons hr (hv rfl) .nil

/-! ## A pass without a change has found every rule obeyed

  Such a pass wrote nothing, so all its rules were read in the tables that it ended with. -/

/-- Where the reading of `α` reports nothing, it changed nothing, and nonterminal `a` had all that
    it looked for. -/
theorem absorb_stayed {a : Nat} {α : List Symbol} {f : Firsts} {grew : Bool}
    (h : (absorb a α f grew).2.1 = false) :
    grew = false ∧ (absorb a α f grew).1 = f ∧ (∀ t, f.Leads t α → t ∈ f.firstOf a) ∧
      ((absorb a α f grew).2.2 = true ↔ f.AllNullable α) := by
  -- a report is never taken back, so no symbol read on the way had anything new
  induction α generalizing f grew with
  | nil => exact ⟨h, rfl, fun t ht => ht.elim, by simp [absorb, AllNullable]⟩
  | cons x α ih =>
    cases x with
    | terminal u =>
      have h' : (grew || (insertAt f.first a u).2) = false := h
      rw [Bool.or_eq_false_iff] at h'
      obtain ⟨heq, hmem⟩ := insertAt_eq_of_stayed h'.2
      refine ⟨h'.1, ?_, fun t ht => ?_, by simp [absorb, AllNullable]⟩
      · show ({ f with first := (insertAt f.first a u).1 } : Firsts) = f
        rw [heq]
      · have ht : u = t := ht
        exact ht ▸ hmem
    | nonterminal b =>
      rw [absorb_nonterminal] at h ⊢
      by_cases hb : f.isNullable b = true
      · rw [if_pos hb] at h ⊢
        obtain ⟨hgrew, hf, hleads, hall⟩ := ih h
        rw [Bool.or_eq_false_iff] at hgrew
        obtain ⟨heq, hsub⟩ := absorbAt_eq_of_stayed hgrew.2
        rw [heq] at hf hleads hall ⊢
        refine ⟨hgrew.1, hf, ?_, ?_⟩
        · rintro t (ht | ⟨-, ht⟩)
          · exact hsub t ht
          · exact hleads t ht
        · rw [hall, AllNullable]
          exact ⟨fun h => ⟨hb, h⟩, fun h => h.2⟩
      · rw [if_neg hb] at h ⊢
        have h' : (grew || (absorbAt f.first a b).2) = false := h
        rw [Bool.or_eq_false_iff] at h'
        obtain ⟨heq, hsub⟩ := absorbAt_eq_of_stayed h'.2
        refine ⟨h'.1, ?_, ?_, ?_⟩
        · show ({ f with first := (absorbAt f.first a b).1 } : Firsts) = f
          rw [heq]
        · rintro t (ht | ⟨hc, -⟩)
          · exact hsub t ht
          · exact absurd hc hb
        · simp [AllNullable, hb]

/-- The tables obey every rule of the list. -/
def Settled (f : Firsts) (rules : List Rule) : Prop :=
  ∀ r ∈ rules, (∀ t, f.Leads t r.rhs → t ∈ f.firstOf r.lhs) ∧
    (f.AllNullable r.rhs → f.isNullable r.lhs = true)

/-- If reading a rule reports nothing new, the tables have all that the rule says. -/
theorem readRule_stayed {acc : Firsts × Bool} {r : Rule} (h : (readRule acc r).2 = false) :
    acc.2 = false ∧ (readRule acc r).1 = acc.1 ∧
      (∀ t, acc.1.Leads t r.rhs → t ∈ acc.1.firstOf r.lhs) ∧
      (acc.1.AllNullable r.rhs → acc.1.isNullable r.lhs = true) := by
  rw [readRule] at h ⊢
  split at h
  · rename_i f grew heq
    have hgrew : (absorb r.lhs r.rhs acc.1 acc.2).2.1 = false := by rw [heq]; exact h
    obtain ⟨h1, h2, h3, h4⟩ := absorb_stayed hgrew
    rw [heq] at h2 h4
    exact ⟨h1, h2, h3, fun hall => absurd (h4.mpr hall) (by simp)⟩
  · rename_i f grew heq
    split at h
    · rename_i hold
      have hgrew : (absorb r.lhs r.rhs acc.1 acc.2).2.1 = false := by rw [heq]; exact h
      obtain ⟨h1, h2, h3, h4⟩ := absorb_stayed hgrew
      rw [heq] at h2 h4
      have hf : f = acc.1 := h2
      exact ⟨h1, by rw [if_pos hold]; exact h2, h3, fun _ => hf ▸ hold⟩
    · exact absurd h (by simp)

/-! ## Passes

  What holds of reading one rule is carried over the rules of a pass, and over all passes. -/

/-- Neither does reading many. -/
theorem foldl_readRule_spec (wf : g.WellFormed) (rs : List Nat) (hrs : ∀ r ∈ rs, r < g.rules.size)
    {acc : Firsts × Bool} (h : Sound g acc.1) : Sound g ((rs.map g.rule).foldl readRule acc).1 := by
  induction rs generalizing acc with
  | nil => exact h
  | cons r rs ih =>
    exact ih (fun s hs => hrs s (List.mem_cons_of_mem _ hs))
      (readRule_spec wf h (hrs r (List.mem_cons_self ..)))

/-- And if reading many reports nothing new, the tables have all that they say. -/
theorem foldl_readRule_stayed (rs : List Rule) {acc : Firsts × Bool}
    (h : (rs.foldl readRule acc).2 = false) :
    acc.2 = false ∧ (rs.foldl readRule acc).1 = acc.1 ∧ Settled acc.1 rs :=
  foldl_stayed (Q := fun (f : Firsts) (r : Rule) => (∀ t, f.Leads t r.rhs → t ∈ f.firstOf r.lhs) ∧
    (f.AllNullable r.rhs → f.isNullable r.lhs = true)) readRule_stayed h

/-- So a pass adds nothing wrong. -/
theorem pass_spec (wf : g.WellFormed) {f : Firsts} (h : Sound g f) : Sound g (pass g f).1 := by
  rw [pass_eq]
  exact foldl_readRule_spec wf _ (fun r hr => List.mem_range.mp hr) h

/-- The result is sound and obeys every rule. -/
theorem ofGrammar_spec (wf : g.WellFormed) :
    Sound g (ofGrammar g) ∧ Settled (ofGrammar g) ((List.range g.rules.size).map g.rule) := by
  obtain ⟨k, -, hstops, hresult⟩ := exists_stopsAfter wf (.empty g _)
  have hsound := rounds_induction (fun f hf => pass_spec wf hf) (Sound.empty g) k
  have hstay := hstops.last
  rw [pass_eq] at hstay
  rw [ofGrammar, hresult]
  exact ⟨hsound, (foldl_readRule_stayed _ hstay).2.2⟩

/-! ## Exactness

  Tables that are sound and obey every rule hold exactly the derivable facts: induction on the
  relations of `Derivation` shows that none is missing. -/

section

variable (wf : g.WellFormed)
include wf

/-- Where the passes end, every rule is obeyed. -/
theorem settled_rule {r : Nat} (hr : r < g.rules.size) :
    (∀ t, (ofGrammar g).Leads t (g.rule r).rhs → t ∈ (ofGrammar g).firstOf (g.rule r).lhs) ∧
      ((ofGrammar g).AllNullable (g.rule r).rhs →
        (ofGrammar g).isNullable (g.rule r).lhs = true) :=
  (ofGrammar_spec wf).2 _ (List.mem_map.mpr ⟨r, List.mem_range.mpr hr, rfl⟩)

/-- The tables know which strings vanish. -/
theorem allNullable_iff {α : List Symbol} : (ofGrammar g).AllNullable α ↔ g.Vanishes α := by
  constructor
  · induction α with
    | nil => exact fun _ => .nil
    | cons x α ih =>
      cases x with
      | terminal u => exact fun h => h.elim
      | nonterminal a => exact fun h => ((ofGrammar_spec wf).1.vanishes a h.1).append (ih h.2)
  · intro h
    induction h with
    | nil => trivial
    | cons hr _ _ ihead itail => exact ⟨(settled_rule wf hr).2 ihead, itail⟩

/-- A nonterminal is marked if and only if it vanishes. -/
theorem isNullable_iff {a : Nat} :
    (ofGrammar g).isNullable a = true ↔ g.Vanishes [.nonterminal a] := by
  rw [← allNullable_iff wf]
  exact ⟨fun h => ⟨h, trivial⟩, fun h => h.1⟩

/-- They know what strings begin with. -/
theorem leads_iff {t : Nat} {α : List Symbol} : (ofGrammar g).Leads t α ↔ g.Begins t α := by
  constructor
  · induction α with
    | nil => exact fun h => h.elim
    | cons x α ih =>
      cases x with
      | terminal u =>
        rintro (rfl : u = t)
        exact .terminal
      | nonterminal a =>
        rintro (h | ⟨h1, h2⟩)
        · exact ((ofGrammar_spec wf).1.begins a t h).append_right α
        · exact .skip ((isNullable_iff wf).mp h1) (ih h2)
  · intro h
    induction h with
    | terminal => exact rfl
    | rule hr _ ih => exact Or.inl ((settled_rule wf hr).1 t ih)
    | skip head _ ih => exact Or.inr ⟨(isNullable_iff wf).mpr head, ih⟩

/-- A terminal is in the set of a nonterminal if and only if it begins a string derived from it. -/
theorem mem_firstOf_iff {a t : Nat} :
    t ∈ (ofGrammar g).firstOf a ↔ g.Begins t [.nonterminal a] := by
  rw [← leads_iff wf]
  exact ⟨Or.inl, fun h => h.elim id fun h => h.2.elim⟩

/-- What begins a string of symbols, and whether it vanishes. -/
theorem ofSymbols_spec (α : List Symbol) :
    (∀ t, t ∈ ((ofGrammar g).ofSymbols α ∅).1 ↔ g.Begins t α) ∧
      (((ofGrammar g).ofSymbols α ∅).2 = true ↔ g.Vanishes α) := by
  obtain ⟨h1, h2⟩ := ofSymbols_reads (ofGrammar g) α ∅
  refine ⟨fun t => ?_, h2.trans (allNullable_iff wf)⟩
  rw [h1, leads_iff wf]
  exact ⟨fun h => h.resolve_left (not_mem_empty t), Or.inr⟩

end

/-- For every grammar that declarations resolve to, the tables say what the nonterminals derive.
    Reading a string of symbols into a set adds the terminals that a derived string can begin with,
    and no other. -/
theorem ofGrammar_exact {d : Declarations} {g : Grammar} (h : d.resolve = .ok g) :
    (∀ a, ((ofGrammar g).isNullable a = true ↔ g.Derives [.nonterminal a] [])
      ∧ ∀ t, t ∈ (ofGrammar g).firstOf a ↔ ∃ rest, g.Derives [.nonterminal a] (.terminal t :: rest))
    ∧ ∀ (β : List Symbol) (R : SymbolSet),
        (∀ t, t ∈ ((ofGrammar g).ofSymbols β R).1 ↔
          t ∈ R ∨ ∃ rest, g.Derives β (.terminal t :: rest))
        ∧ (((ofGrammar g).ofSymbols β R).2 = true ↔ g.Derives β []) := by
  have wf : g.WellFormed := (Declarations.resolved h).wellFormed
  constructor
  · intro a
    constructor
    · rw [isNullable_iff wf]
      exact vanishes_iff_derives
    · intro t
      rw [mem_firstOf_iff wf]
      exact begins_iff_derives
  · intro β R
    obtain ⟨hset, hall⟩ := ofSymbols_reads (ofGrammar g) β R
    constructor
    · intro t
      rw [hset, leads_iff wf, begins_iff_derives]
    · rw [hall, allNullable_iff wf]
      exact vanishes_iff_derives

/-- `X` vanishes; `c` can begin what `W` derives, but `w` cannot; and `X Y Z` adds `d` to the set
    that it is read into. -/
theorem ofGrammar_exact_lateMarks :
    lateMarks.resolve = .ok lateMarksGrammar
      ∧ lateMarksGrammar.Derives [.nonterminal 2] []
      ∧ (∃ rest, lateMarksGrammar.Derives [.nonterminal 4] (.terminal 3 :: rest))
      ∧ (¬ ∃ rest, lateMarksGrammar.Derives [.nonterminal 4] (.terminal 4 :: rest))
      ∧ 1 ∈ ((ofGrammar lateMarksGrammar).ofSymbols
          [.nonterminal 2, .nonterminal 3, .nonterminal 1] ⟨16⟩).1 := by
  have hres : lateMarks.resolve = .ok lateMarksGrammar := by cbv
  have hX : (ofGrammar lateMarksGrammar).isNullable 2 = true := by cbv
  have hW : (ofGrammar lateMarksGrammar).firstOf 4 = ⟨12⟩ := by cbv
  have hZ : (ofGrammar lateMarksGrammar).firstOf 1 = ⟨14⟩ := by cbv
  obtain ⟨htables, hread⟩ := ofGrammar_exact hres
  refine ⟨hres, (htables 2).1.mp hX, ((htables 4).2 3).mp ?_, ?_, ((hread _ _).1 1).mpr ?_⟩
  · rw [hW]
    decide
  · rw [← (htables 4).2 4, hW]
    decide
  · obtain ⟨rest, hd⟩ := ((htables 1).2 1).mp (by rw [hZ]; decide)
    have hY : (ofGrammar lateMarksGrammar).isNullable 3 = true := by cbv
    exact Or.inr ⟨rest, ((htables 2).1.mp hX).append (((htables 3).1.mp hY).append hd)⟩

end Firsts

end Lalr
