/-
  Raw codes are told apart.

  Every raw code is some terminal's or the symbol of an unknown token (`symbolOf_cases`).  In a
  grammar that comes out of declarations no two terminals have one code, so the code of a terminal
  is translated back to it (`symbolOf_rawCode`): the codes that were declared do not clash, and
  those that were given are neither declared nor given before (`nodup_assign`).

  The end of input has code 0, unless a token is declared under its name.  Names are told apart as
  well, since each is collected once (`Resolved.nodup_names`).
-/
import Mathlib
import Lalr.Proofs.Build
import Lalr.Proofs.Growth

namespace Lalr

namespace Vocabulary

/-! ## Giving codes

  A free code is found by counting up from a first candidate.  There are enough steps for it: of
  more numbers than are taken one is free. -/

/-- Of more numbers than are taken one is free. -/
theorem exists_free (taken : List Nat) (code : Nat) :
    ∃ k, k ≤ taken.length ∧ code + k ∉ taken := by
  by_contra hall
  have hmaps : ∀ k ∈ Finset.range (taken.length + 1), code + k ∈ taken.toFinset := by
    intro k hk
    rw [List.mem_toFinset]
    by_contra hfree
    exact hall ⟨k, Nat.le_of_lt_succ (Finset.mem_range.mp hk), hfree⟩
  have hcard := Finset.card_le_card_of_injOn (code + ·) hmaps
    fun i _ j _ h => Nat.add_left_cancel h
  have hle := List.toFinset_card_le taken
  rw [Finset.card_range] at hcard
  omega

/-- If enough steps are allowed to come to a free number, the least one is found. -/
theorem leastFree_spec {taken : List Nat} {steps code : Nat}
    (h : ∃ k, k ≤ steps ∧ code + k ∉ taken) :
    IsLeast {k | code ≤ k ∧ k ∉ taken} (leastFree taken steps code) := by
  induction steps generalizing code with
  | zero =>
    obtain ⟨k, hk, hfree⟩ := h
    obtain rfl : k = 0 := Nat.le_zero.mp hk
    exact ⟨⟨Nat.le_refl code, hfree⟩, fun k hk => hk.1⟩
  | succ steps ih =>
    rw [leastFree]
    split
    · rename_i hin
      have hin : code ∈ taken := by simpa using hin
      obtain ⟨k, hk, hfree⟩ := h
      cases k with
      | zero => exact absurd hin hfree
      | succ k =>
        have hfree' : code + 1 + k ∉ taken := by
          rw [Nat.add_assoc, Nat.add_comm 1 k]
          exact hfree
        obtain ⟨⟨hle, hout⟩, hleast⟩ := ih ⟨k, by omega, hfree'⟩
        refine ⟨⟨by omega, hout⟩, fun j hj => hleast ⟨?_, hj.2⟩⟩
        -- what is free from here on is free beyond the number that is taken
        have hne : code ≠ j := fun heq => hj.2 (heq ▸ hin)
        have hle := hj.1
        omega
    · rename_i hout
      exact ⟨⟨Nat.le_refl code, by simpa using hout⟩, fun k hk => hk.1⟩

/-- Where no two candidates clash, no two of their codes are equal, and none was seen before. -/
theorem nodup_of_clash?_eq_none {v : List Candidate} {seen : List (Nat × String)}
    (h : clash? seen v = none) :
    (v.filterMap (·.code)).Nodup ∧ ∀ code ∈ v.filterMap (·.code), seen.lookup code = none := by
  induction v generalizing seen with
  | nil => exact ⟨List.nodup_nil, fun code hcode => absurd hcode List.not_mem_nil⟩
  | cons c v ih =>
    rw [clash?] at h
    cases hc : c.code with
    | none =>
      rw [hc] at h
      rw [List.filterMap_cons_none hc]
      exact ih h
    | some code =>
      rw [hc] at h
      rw [List.filterMap_cons_some hc]
      cases hseen : seen.lookup code with
      | some first =>
        simp only [hseen] at h
        exact absurd h (by simp)
      | none =>
        simp only [hseen] at h
        obtain ⟨hnodup, hfresh⟩ := ih h
        -- it is remembered when the candidates behind are checked
        have hnot : code ∉ v.filterMap (·.code) := by
          intro hmem
          have hlookup := hfresh code hmem
          rw [List.lookup_cons_self] at hlookup
          exact absurd hlookup (by simp)
        refine ⟨List.nodup_cons.mpr ⟨hnot, hnodup⟩, fun other hother => ?_⟩
        rcases List.mem_cons.mp hother with rfl | hother
        · exact hseen
        · have hlookup := hfresh other hother
          rw [List.lookup_cons] at hlookup
          split at hlookup
          · exact absurd hlookup (by simp)
          · exact hlookup

/-- Codes that are given differ from each other and from those that are taken. -/
theorem nodup_assign {taken : List Nat} {v : List Candidate} (next : Nat)
    (hnodup : (v.filterMap (·.code)).Nodup) (htaken : ∀ code ∈ v.filterMap (·.code), code ∈ taken) :
    ((assign taken next v).map (·.2)).Nodup ∧
      ∀ code ∈ (assign taken next v).map (·.2),
        code ∈ v.filterMap (·.code) ∨ (next ≤ code ∧ code ∉ taken) := by
  induction v generalizing next with
  | nil => exact ⟨List.nodup_nil, fun code hcode => absurd hcode List.not_mem_nil⟩
  | cons c v ih =>
    rw [assign]
    cases hc : c.code with
    | some code =>
      rw [List.filterMap_cons_some hc] at hnodup htaken ⊢
      obtain ⟨hnot, hnodup⟩ := List.nodup_cons.mp hnodup
      obtain ⟨hrest, hmem⟩ := ih next hnodup fun other h => htaken other (List.mem_cons_of_mem _ h)
      refine ⟨List.nodup_cons.mpr ⟨fun hin => ?_, hrest⟩, fun other hother => ?_⟩
      · rcases hmem code hin with h | ⟨-, h⟩
        · exact hnot h
        · exact h (htaken code List.mem_cons_self)
      · rcases List.mem_cons.mp hother with rfl | hother
        · exact Or.inl List.mem_cons_self
        · exact (hmem other hother).imp (List.mem_cons_of_mem _) id
    | none =>
      rw [List.filterMap_cons_none hc] at hnodup htaken ⊢
      -- the candidates behind are given greater numbers
      obtain ⟨hle, hfree⟩ := (leastFree_spec (exists_free taken next)).1
      obtain ⟨hrest, hmem⟩ := ih (leastFree taken taken.length next + 1) hnodup htaken
      refine ⟨List.nodup_cons.mpr ⟨fun hin => ?_, hrest⟩, fun other hother => ?_⟩
      · rcases hmem _ hin with h | ⟨h, -⟩
        · exact hfree (htaken _ h)
        · exact absurd h (Nat.not_succ_le_self _)
      · rcases List.mem_cons.mp hother with rfl | hother
        · exact Or.inr ⟨hle, hfree⟩
        · exact (hmem other hother).imp id (And.imp_left fun hlt => by omega)

/-! ## Collecting names

  Names are collected from the tokens, the levels and the rules, in this order, behind the
  built-in ones.  A name is added only where it is new, so the list stays free of repetitions. -/

section

variable {v : List Candidate}

/-- A candidate is there if its name is. -/
theorem has_iff {name : String} : has v name = true ↔ name ∈ v.map (·.name) := by
  rw [has, List.any_eq_true, List.mem_map]
  simp only [beq_iff_eq]

/-- A new name may be added. -/
theorem nodup_append_new {c : Candidate} (h : (v.map (·.name)).Nodup)
    (hnew : ¬ has v c.name = true) :
    ((v ++ [c]).map (·.name)).Nodup := by
  rw [List.map_append, List.map_singleton]
  exact List.Nodup.append h (List.nodup_singleton _)
    (List.disjoint_singleton.mpr fun hmem => hnew (has_iff.mpr hmem))

/-- Mentioning a name adds it only if it is new. -/
theorem nodup_mention (name : String) (h : (v.map (·.name)).Nodup) :
    ((mention v name).map (·.name)).Nodup := by
  unfold mention
  split
  · exact h
  · rename_i hnew
    exact nodup_append_new h hnew

/-- Declaring a name gives its candidate a code, or adds one. -/
theorem nodup_declare (decl : TokenDecl) (h : (v.map (·.name)).Nodup) :
    ((declare v decl).map (·.name)).Nodup := by
  unfold declare
  split
  · exact h
  · split
    · have hnames : (v.map fun c => if c.name == decl.name then
          { c with code := decl.code.or c.code } else c).map (·.name) = v.map (·.name) := by
        rw [List.map_map]
        refine List.map_congr_left fun c _ => ?_
        show (if _ then _ else _ : Candidate).name = c.name
        split <;> rfl
      rw [hnames]
      exact h
    · rename_i hnew
      exact nodup_append_new h hnew

end

end Vocabulary

open Vocabulary

/-- No name is collected twice. -/
theorem Declarations.nodup_candidates (d : Declarations) : (d.candidates.map (·.name)).Nodup := by
  refine d.candidates_induction (P := fun v => (v.map (·.name)).Nodup) ?_
    (fun v decl _ h => nodup_declare decl h) (fun v name h => ?_) fun v name h => ?_
  · unfold builtIn
    split <;> decide
  · unfold Vocabulary.rank
    split
    · exact h
    · exact nodup_mention name h
  · unfold Vocabulary.quote
    split
    · exact nodup_mention name h
    · exact h

/-- Terminals differ in their names. -/
theorem Resolved.nodup_names {d : Declarations} {g : Grammar} (h : Resolved d g) :
    (g.alphabet.terminals.toList.map (·.name)).Nodup := by
  have hnames : g.alphabet.terminals.toList.map (·.name) = d.candidates.map (·.name) := by
    rw [h.alphabet_eq]
    show ((d.codedTerminals.map _).toArray.toList.map _) = _
    rw [List.toList_toArray, List.map_map]
    show d.codedTerminals.map (·.1) = _
    rw [Declarations.codedTerminals, map_fst_assign, List.map_map]
    rfl
  rw [hnames]
  exact d.nodup_candidates

/-- A terminal is known by its name. -/
theorem Resolved.terminalName_injective {d : Declarations} {g : Grammar} (h : Resolved d g)
    {t u : Nat} (ht : t < g.terminalCount) (hu : u < g.terminalCount)
    (hname : g.alphabet.terminalName t = g.alphabet.terminalName u) : t = u := by
  have hget : ∀ {t}, t < g.terminalCount →
      (g.alphabet.terminals.toList.map (·.name))[t]? = some (g.alphabet.terminalName t) := by
    intro t ht
    rw [List.getElem?_map, Array.getElem?_toList, Alphabet.terminalName,
      Array.getElem?_eq_getElem ht]
    rfl
  refine (List.getElem?_inj ?_ h.nodup_names).mp ((hget ht).trans (hname ▸ (hget hu).symm))
  rw [List.length_map, Array.length_toList]
  exact ht

/-- The raw codes of the terminals differ. -/
theorem Resolved.nodup_codes {d : Declarations} {g : Grammar} (h : Resolved d g) :
    (g.alphabet.terminals.toList.map (·.code)).Nodup := by
  have hcodes : g.alphabet.terminals.toList.map (·.code) = d.codedTerminals.map (·.2) := by
    rw [h.alphabet_eq]
    show ((d.codedTerminals.map _).toArray.toList.map _) = _
    rw [List.toList_toArray, List.map_map]
    rfl
  rw [hcodes]
  exact (nodup_assign firstFreeCode (nodup_of_clash?_eq_none h.no_clash).1 fun _ hcode => hcode).1

/-- The end of input has code 0, unless a token is declared under its name. -/
theorem Resolved.code_zero {d : Declarations} {g : Grammar} (h : Resolved d g)
    (hend : ∀ decl ∈ d.tokens, decl.name ≠ endName) :
    g.alphabet.terminals[0]?.map (·.code) = some 0 := by
  obtain ⟨first, hfirst, rfl⟩ := d.heads_candidates (P := (· = ⟨endName, some 0⟩)) rfl
    fun decl hd c hc hname => absurd (hname.symm.trans (hc ▸ rfl)) (hend decl hd)
  cases hc : d.candidates with
  | nil => simp [hc] at hfirst
  | cons c v =>
    obtain rfl : c = ⟨endName, some 0⟩ := by simpa [hc] using hfirst
    rw [h.alphabet_eq]
    show (d.codedTerminals.map _).toArray[0]?.map _ = _
    rw [Declarations.codedTerminals, hc]
    rfl

/-! ## From raw codes to terminals

  The table that translates is as long as the highest code calls for.  A raw code past its end,
  or with no terminal in it, is an unknown token. -/

namespace Grammar

variable {g : Grammar}

/-- The raw code of terminal `t`. -/
def rawCode (g : Grammar) (t : Nat) : Nat :=
  (g.alphabet.terminals[t]?.map (·.code)).getD 0

/-- The highest code bounds all codes. -/
theorem foldl_max_le (terminals : List Terminal) (high : Nat) :
    high ≤ terminals.foldl (fun high t => max high t.code) high ∧
      ∀ t ∈ terminals, t.code ≤ terminals.foldl (fun high t => max high t.code) high := by
  induction terminals generalizing high with
  | nil => exact ⟨Nat.le_refl high, fun t ht => absurd ht List.not_mem_nil⟩
  | cons t terminals ih =>
    obtain ⟨hhigh, hall⟩ := ih (max high t.code)
    refine ⟨(Nat.le_max_left _ _).trans hhigh, fun u hu => ?_⟩
    rcases List.mem_cons.mp hu with rfl | hu
    · exact (Nat.le_max_right _ _).trans hhigh
    · exact hall u hu

theorem tokenToSymbol_eq (g : Grammar) : g.tokenToSymbol =
    g.alphabet.terminals.toList.zipIdx.foldl
      (fun table e => table.setIfInBounds e.1.code (e.2 : Int))
      (Array.replicate (g.alphabet.terminals.toList.foldl (fun high t => max high t.code) 255 + 1)
        (g.terminalCount : Int)) := by
  rw [tokenToSymbol, ← Array.foldl_toList, ← Array.foldl_toList, Array.toList_zipIdx]

/-- A raw code is a terminal's, or stands for an unknown token. -/
theorem tokenToSymbol_cases (g : Grammar) (raw : Nat) :
    (∃ t, t < g.terminalCount ∧ g.rawCode t = raw ∧
        g.tokenToSymbol.getD raw g.terminalCount = t) ∨
      (g.tokenToSymbol.getD raw g.terminalCount = g.terminalCount ∧
        ∀ t, t < g.terminalCount → g.rawCode t ≠ raw) := by
  rw [tokenToSymbol_eq]
  -- the table is written terminal by terminal: the last writer, or what was there before
  rcases getD_foldl_setIfInBounds (·.1.code) (fun e => (e.2 : Int))
    g.alphabet.terminals.toList.zipIdx
    (Array.replicate (g.alphabet.terminals.toList.foldl (fun high t => max high t.code) 255 + 1)
      (g.terminalCount : Int)) raw g.terminalCount with
    ⟨⟨terminal, t⟩, hmem, hcode, hvalue⟩ | ⟨hsame, hnone⟩
  · have hget : g.alphabet.terminals[t]? = some terminal := by
      rw [← Array.getElem?_toList]
      exact List.mk_mem_zipIdx_iff_getElem?.mp hmem
    refine Or.inl ⟨t, (Array.getElem?_eq_some_iff.mp hget).1, ?_, hvalue⟩
    rw [rawCode, hget]
    exact hcode
  · rw [getD_replicate] at hsame
    refine Or.inr ⟨hsame, fun t ht hcode => ?_⟩
    have hget : g.alphabet.terminals[t]? = some g.alphabet.terminals[t] :=
      Array.getElem?_eq_getElem ht
    rw [rawCode, hget] at hcode
    -- no code lies outside, as the table is as long as the greatest one asks for
    have hle := (foldl_max_le g.alphabet.terminals.toList 255).2 _
      (Array.mem_toList_iff.mpr (Array.getElem_mem ht))
    refine hnone ?_ (g.alphabet.terminals[t], t) ?_ hcode
    · rw [Array.size_replicate, ← hcode]
      exact Nat.lt_succ_of_le hle
    · rw [List.mk_mem_zipIdx_iff_getElem?, Array.getElem?_toList]
      exact hget

/-- The terminal with the raw code; the number of terminals if there is none. -/
def terminalOf (g : Grammar) (raw : Nat) : Nat :=
  g.alphabet.terminals.toList.findIdx (·.code == raw)

/-- The raw code of a terminal belongs to no other. -/
theorem rawCode_injective (hcodes : (g.alphabet.terminals.toList.map (·.code)).Nodup) {t u : Nat}
    (ht : t < g.terminalCount) (hu : u < g.terminalCount) (h : g.rawCode t = g.rawCode u) :
    t = u := by
  have hget : ∀ {t}, t < g.terminalCount →
      (g.alphabet.terminals.toList.map (·.code))[t]? = some (g.rawCode t) := by
    intro t ht
    rw [List.getElem?_map, Array.getElem?_toList, rawCode, Array.getElem?_eq_getElem ht]
    rfl
  refine (List.getElem?_inj ?_ hcodes).mp ((hget ht).trans (h ▸ (hget hu).symm))
  rw [List.length_map, Array.length_toList]
  exact ht

end Grammar

namespace Construction

variable {d : Declarations} {settings : Settings} {c : Construction}

/-- A token is translated to the terminal with its code. -/
theorem symbolOf_eq (h : d.build settings = .ok c) (raw : Nat) :
    c.table.symbolOf raw = c.grammar.terminalOf raw := by
  have hcode : ∀ (t : Nat) (ht : t < c.grammar.alphabet.terminals.toList.length),
      c.grammar.alphabet.terminals.toList[t].code = c.grammar.rawCode t := by
    intro t ht
    rw [Grammar.rawCode, ← Array.getElem?_toList, List.getElem?_eq_getElem ht]
    rfl
  rw [table_eq h]
  rcases c.grammar.tokenToSymbol_cases raw with ⟨t, ht, hraw, hsymbol⟩ | ⟨hsymbol, hnone⟩
  · refine hsymbol.trans (congrArg Nat.cast ?_)
    have ht' : t < c.grammar.alphabet.terminals.toList.length := ht
    refine ((List.findIdx_eq ht').mpr ⟨?_, fun u hu => ?_⟩).symm
    · rw [hcode, beq_iff_eq]
      exact hraw
    · have hu' : u < c.grammar.terminalCount := Nat.lt_trans hu ht
      rw [hcode, beq_eq_false_iff_ne]
      intro hsame
      -- an earlier terminal of the same code would be this one
      have hnodup := (Declarations.build_spec h).1.nodup_codes
      exact absurd (Grammar.rawCode_injective hnodup hu' ht (hsame.trans hraw.symm))
        (Nat.ne_of_lt hu)
  · refine hsymbol.trans (congrArg Nat.cast ?_)
    refine (List.findIdx_eq_length.mpr fun terminal hmem => ?_).symm
    obtain ⟨t, ht, rfl⟩ := List.getElem_of_mem hmem
    rw [hcode, beq_eq_false_iff_ne]
    exact hnone t ht

/-- Every raw code has a symbol. -/
theorem exists_symbolOf (h : d.build settings = .ok c) (raw : Nat) :
    ∃ t : Nat, c.table.symbolOf raw = t :=
  ⟨_, symbolOf_eq h raw⟩

/-- The raw code of a terminal is translated back to it. -/
theorem symbolOf_rawCode (h : d.build settings = .ok c) {t : Nat}
    (ht : t < c.grammar.terminalCount) : c.table.symbolOf (c.grammar.rawCode t) = t := by
  rw [table_eq h]
  rcases c.grammar.tokenToSymbol_cases (c.grammar.rawCode t) with
    ⟨u, hu, hcode, hvalue⟩ | ⟨-, hnone⟩
  · have hnodup := (Declarations.build_spec h).1.nodup_codes
    rw [Grammar.rawCode_injective hnodup hu ht hcode] at hvalue
    exact hvalue
  · exact absurd rfl (hnone t ht)

/-- Raw codes of terminals are translated back one by one. -/
theorem map_symbolOf (h : d.build settings = .ok c) {v : List Nat}
    (hv : ∀ t ∈ v, t < c.grammar.terminalCount) :
    (v.map c.grammar.rawCode).map c.table.symbolOf = v.map Nat.cast := by
  rw [List.map_map]
  exact List.map_congr_left fun t ht => symbolOf_rawCode h (hv t ht)

end Construction

end Lalr
