/-
  Which raw code a terminal has, and what a raw code stands for.

    1. A code that is known stays (`Vocabulary.assign_known`).
    2. The others are given in order, and the counter only moves forward.  All that it has passed
       was taken or given before, so each terminal gets the least number that is still free
       (`Vocabulary.assign_free`).
    3. What is known of a code comes from the declarations: the last explicit code, or 256, 0 and
       the code point for `error`, `$end` and a literal.  A name with none of these is `Uncoded`.
    4. No two terminals share a code, so the table that translates raw codes is the inverse of this
       numbering, and gives the symbol of an unknown token for all other numbers
       (`Construction.rawCodes_translate`).
-/
import Mathlib
import Lalr.Proofs.Readback
import Lalr.Proofs.Terminals

namespace Lalr

/-! ## Giving codes in order

  Codes are given by one pass over the candidates.  The counter stands past all numbers that it
  has given or passed over, so the least free number from there on is the least one from 257 on. -/

namespace Vocabulary

variable (taken : List Nat) {v : List Candidate} {c : Candidate} {t : Nat}

/-- A candidate with a code keeps it. -/
theorem assign_known (next : Nat) {code : Nat} (hc : v[t]? = some c) (hcode : c.code = some code) :
    (assign taken next v)[t]? = some (c.name, code) := by
  induction v generalizing next t with
  | nil => exact absurd hc (by simp)
  | cons head v ih =>
    cases t with
    | zero =>
      have hc : head = c := by simpa using hc
      subst hc
      simp [assign, hcode]
    | succ t =>
      have hc : v[t]? = some c := by simpa using hc
      rw [assign]
      cases head.code with
      | some known => exact ih next hc
      | none => exact ih _ hc

/-- Has candidate `u` been given number `k`, which was not its own? -/
def Given (taken : List Nat) (next : Nat) (v : List Candidate) (u k : Nat) : Prop :=
  v[u]?.bind (·.code) = none ∧ (assign taken next v)[u]?.map (·.2) = some k

/-- Behind a candidate with a code the others are given what they would be given without it. -/
theorem forall_not_given_known (next t k : Nat) {known : Nat} (hc : c.code = some known) :
    (∀ u < t + 1, ¬ Given taken next (c :: v) u k) ↔ ∀ u < t, ¬ Given taken next v u k := by
  rw [Nat.forall_lt_succ_left]
  simp [Given, assign, hc]

/-- A candidate without a code takes the first free number, and the others are given later ones. -/
theorem forall_not_given_free (next t k : Nat) (hc : c.code = none) :
    (∀ u < t + 1, ¬ Given taken next (c :: v) u k) ↔
      k ≠ leastFree taken taken.length next ∧
        ∀ u < t, ¬ Given taken (leastFree taken taken.length next + 1) v u k := by
  rw [Nat.forall_lt_succ_left]
  simp [Given, assign, hc, eq_comm]

/-- A candidate without a code is given the least number from `next` on that is neither taken nor
    given to an earlier one. -/
theorem assign_free (next : Nat) (hc : v[t]? = some c) (hnone : c.code = none) :
    ∃ code, (assign taken next v)[t]? = some (c.name, code) ∧
      IsLeast {k | next ≤ k ∧ k ∉ taken ∧ ∀ u < t, ¬ Given taken next v u k} code := by
  induction v generalizing next t with
  | nil => exact absurd hc (by simp)
  | cons head v ih =>
    cases t with
    | zero =>
      have hc : head = c := by simpa using hc
      subst hc
      refine ⟨leastFree taken taken.length next, by simp [assign, hnone], ?_⟩
      obtain ⟨⟨hle, hfree⟩, hleast⟩ := leastFree_spec (exists_free taken next)
      constructor
      · exact ⟨hle, hfree, fun u hu => absurd hu (Nat.not_lt_zero u)⟩
      · exact fun k hk => hleast ⟨hk.1, hk.2.1⟩
    | succ t =>
      have hc : v[t]? = some c := by simpa using hc
      cases hhead : head.code with
      | some known =>
        obtain ⟨code, hget, hmem, hleast⟩ := ih next hc
        have hassign : assign taken next (head :: v) =
          (head.name, known) :: assign taken next v := by
          simp [assign, hhead]
        have hgiven := fun k => forall_not_given_known (v := v) taken next t k hhead
        refine ⟨code, by rw [hassign]; exact hget, ⟨hmem.1, hmem.2.1, ?_⟩, fun k hk => ?_⟩
        · exact (hgiven code).mpr hmem.2.2
        · exact hleast ⟨hk.1, hk.2.1, (hgiven k).mp hk.2.2⟩
      | none =>
        obtain ⟨⟨hle, hfree⟩, hfirst⟩ := leastFree_spec (exists_free taken next)
        have hgiven := fun k => forall_not_given_free (v := v) taken next t k hhead
        have hassign : assign taken next (head :: v) =
            (head.name, leastFree taken taken.length next) ::
              assign taken (leastFree taken taken.length next + 1) v := by
          simp [assign, hhead]
        generalize leastFree taken taken.length next = first at *
        obtain ⟨code, hget, hmem, hleast⟩ := ih (first + 1) hc
        refine ⟨code, by rw [hassign]; exact hget, ⟨?_, hmem.2.1, ?_⟩, fun k hk => ?_⟩
        · have hlt := hmem.1
          omega
        · refine (hgiven code).mpr ⟨?_, hmem.2.2⟩
          have hlt := hmem.1
          omega
        · -- what is free and not the number just given lies beyond it
          obtain ⟨hne, hothers⟩ := (hgiven k).mp hk.2.2
          have hpast : first ≤ k := hfirst ⟨hk.1, hk.2.1⟩
          exact hleast ⟨by omega, hk.2.1, hothers⟩

end Vocabulary

open Vocabulary

/-! ## What the declarations know

  A candidate has a code of its own if the declarations tell it.  Whether they do depends on its
  name alone. -/

namespace Declarations

variable {d : Declarations} {name : String}

/-- Nothing tells the raw code of the name. -/
def Uncoded (d : Declarations) (name : String) : Prop :=
  name ≠ errorName ∧ name ≠ endName ∧ declaredCode? d.tokens.toList name = none ∧
    ¬ IsLiteral name

/-- A name without a known code gets one from the counter. -/
theorem knownCode?_eq_none_iff : d.knownCode? name = none ↔ d.Uncoded name := by
  unfold knownCode? Uncoded IsLiteral
  by_cases herror : name = errorName
  · rw [if_pos herror]
    exact iff_of_false (by simp) fun h => h.1 herror
  · rw [if_neg herror, Option.or_eq_none_iff]
    by_cases hend : name = endName
    · rw [if_pos hend]
      exact iff_of_false (by simp) fun h => h.2.1 hend
    · rw [if_neg hend, Option.map_eq_none_iff]
      have hliteral : literalChar? name = none ↔ ¬ ∃ ch, literalChar? name = some ch := by
        rw [Option.eq_none_iff_forall_ne_some, not_exists]
      exact (and_congr_right fun _ => hliteral).trans
        ⟨fun hnot => ⟨herror, hend, hnot⟩, fun hnot => hnot.2.2⟩

end Declarations

namespace Resolved

variable {d : Declarations} {g : Grammar} (h : Resolved d g) {t : Nat}
include h

/-- Behind a terminal stands a candidate: its name, what is known of its code, and the code that it
    ends up with. -/
theorem candidate (ht : t < g.terminalCount) :
    ∃ c, (d.candidates.map withLiteralCode)[t]? = some c ∧ c.name = g.alphabet.terminalName t ∧
      c.code = d.knownCode? c.name ∧ d.codedTerminals[t]? = some (c.name, g.rawCode t) := by
  have hget : g.alphabet.terminals[t]? =
      d.codedTerminals[t]?.map fun p => d.terminal p.1 p.2 := by
    rw [h.alphabet_eq]
    show (d.codedTerminals.map _).toArray[t]? = _
    rw [List.getElem?_toArray, List.getElem?_map]
  have hsome : g.alphabet.terminals[t]? = some g.alphabet.terminals[t] :=
    Array.getElem?_eq_getElem ht
  cases hcoded : d.codedTerminals[t]? with
  | none =>
    rw [hcoded, hsome] at hget
    exact absurd hget (by simp)
  | some coded =>
    rw [hcoded] at hget
    have hname : g.alphabet.terminalName t = coded.1 := by
      rw [Alphabet.terminalName, hget]
      rfl
    have hcode : g.rawCode t = coded.2 := by
      rw [Grammar.rawCode, hget]
      rfl
    -- giving codes keeps the candidates in their order
    have hnames : (d.candidates.map withLiteralCode).map (·.name) =
        d.codedTerminals.map (·.1) := by
      rw [Declarations.codedTerminals, map_fst_assign]
    have hcandidate : (d.candidates.map withLiteralCode)[t]?.map (·.name) = some coded.1 := by
      rw [← List.getElem?_map, hnames, List.getElem?_map, hcoded]
      rfl
    obtain ⟨c, hc, hcname⟩ := Option.map_eq_some_iff.mp hcandidate
    refine ⟨c, hc, hcname.trans hname.symm, ?_, ?_⟩
    · exact d.lists_candidates.2 c (List.mem_of_getElem? hc)
    · rw [hcode, hcname]

theorem length_candidates : (d.candidates.map withLiteralCode).length = g.terminalCount := by
  have hsize : g.terminalCount = d.codedTerminals.length := by
    rw [Grammar.terminalCount, h.alphabet_eq]
    show (d.codedTerminals.map _).toArray.size = _
    rw [List.size_toArray, List.length_map]
  have hnames : d.codedTerminals.map (·.1) = (d.candidates.map withLiteralCode).map (·.name) := by
    rw [Declarations.codedTerminals, map_fst_assign]
  have hlength := congrArg List.length hnames
  simp only [List.length_map] at hlength ⊢
  exact hlength.symm.trans hsize.symm

/-- A known code is the terminal's code. -/
theorem rawCode_known (ht : t < g.terminalCount) {code : Nat}
    (hknown : d.knownCode? (g.alphabet.terminalName t) = some code) : g.rawCode t = code := by
  obtain ⟨c, hc, hname, hcode, hcoded⟩ := h.candidate ht
  rw [hname, hknown] at hcode
  have hkept := assign_known ((d.candidates.map withLiteralCode).filterMap (·.code)) firstFreeCode
    hc hcode
  have heq := hcoded.symm.trans hkept
  injection heq with heq
  injection heq

/-- The taken numbers are the codes of the terminals whose codes are known. -/
theorem mem_taken_iff {k : Nat} : k ∈ (d.candidates.map withLiteralCode).filterMap (·.code) ↔
    ∃ u < g.terminalCount, ¬ d.Uncoded (g.alphabet.terminalName u) ∧ g.rawCode u = k := by
  rw [List.mem_filterMap]
  constructor
  · rintro ⟨c, hc, hcode⟩
    obtain ⟨u, hu⟩ := List.mem_iff_getElem?.mp hc
    have hlt : u < g.terminalCount := by
      rw [← h.length_candidates]
      exact (List.getElem?_eq_some_iff.mp hu).1
    obtain ⟨c', hc', hname, hknown, -⟩ := h.candidate hlt
    obtain rfl : c = c' := Option.some_inj.mp (hu.symm.trans hc')
    rw [hcode, hname] at hknown
    refine ⟨u, hlt, ?_, h.rawCode_known hlt hknown.symm⟩
    rw [← Declarations.knownCode?_eq_none_iff, ← hknown]
    simp
  · rintro ⟨u, hu, huncoded, rfl⟩
    obtain ⟨c, hc, hname, hknown, -⟩ := h.candidate hu
    rw [← Declarations.knownCode?_eq_none_iff, ← ne_eq, Option.ne_none_iff_exists'] at huncoded
    obtain ⟨k, hk⟩ := huncoded
    refine ⟨c, List.mem_of_getElem? hc, ?_⟩
    rw [hknown, hname, hk, h.rawCode_known hu hk]

/-- Codes are given to the terminals whose codes are not known. -/
theorem given_iff {u k : Nat} (hu : u < g.terminalCount) :
    Given ((d.candidates.map withLiteralCode).filterMap (·.code)) firstFreeCode
        (d.candidates.map withLiteralCode) u k ↔
      d.Uncoded (g.alphabet.terminalName u) ∧ g.rawCode u = k := by
  obtain ⟨c, hc, hname, hcode, hcoded⟩ := h.candidate hu
  have hassigned : (assign ((d.candidates.map withLiteralCode).filterMap (·.code)) firstFreeCode
      (d.candidates.map withLiteralCode))[u]? = some (c.name, g.rawCode u) := hcoded
  rw [Given, hc, hassigned, ← Declarations.knownCode?_eq_none_iff, ← hname, ← hcode]
  simp

/-- A terminal whose code is not known has the least number from 257 on that is neither the known
    code of a terminal nor the code of an earlier one that is not known. -/
theorem rawCode_free (ht : t < g.terminalCount)
    (huncoded : d.Uncoded (g.alphabet.terminalName t)) :
    IsLeast {k | 257 ≤ k ∧ ∀ u < g.terminalCount,
      (¬ d.Uncoded (g.alphabet.terminalName u) ∨ u < t) → g.rawCode u ≠ k} (g.rawCode t) := by
  obtain ⟨c, hc, hname, hcode, hcoded⟩ := h.candidate ht
  rw [hname, Declarations.knownCode?_eq_none_iff.mpr huncoded] at hcode
  obtain ⟨code, hget, hleast⟩ := assign_free
    ((d.candidates.map withLiteralCode).filterMap (·.code)) firstFreeCode hc hcode
  have heq := hcoded.symm.trans hget
  injection heq with heq
  injection heq with _ heq
  rw [heq]
  -- both sets are what is left of the numbers from 257 on
  have hset : ∀ k, (∀ u < g.terminalCount,
        (¬ d.Uncoded (g.alphabet.terminalName u) ∨ u < t) → g.rawCode u ≠ k) ↔
      k ∉ (d.candidates.map withLiteralCode).filterMap (·.code) ∧
        ∀ u < t, ¬ Given ((d.candidates.map withLiteralCode).filterMap (·.code)) firstFreeCode
          (d.candidates.map withLiteralCode) u k := by
    intro k
    rw [h.mem_taken_iff]
    constructor
    · intro hall
      refine ⟨?_, fun u hu hgiven => ?_⟩
      · rintro ⟨u, hu, hknown, rfl⟩
        exact hall u hu (Or.inl hknown) rfl
      · have hlt : u < g.terminalCount := Nat.lt_trans hu ht
        exact hall u hlt (Or.inr hu) ((h.given_iff hlt).mp hgiven).2
    · rintro ⟨htaken, hgiven⟩ u hu hbefore heq
      by_cases hknown : d.Uncoded (g.alphabet.terminalName u)
      · have hut : u < t := hbefore.resolve_left (not_not.mpr hknown)
        exact hgiven u hut ((h.given_iff hu).mpr ⟨hknown, heq⟩)
      · exact htaken ⟨u, hu, hknown, heq⟩
  simp only [hset]
  exact hleast

end Resolved

/-! ## The numbering and the way back

  The example has explicit codes, a literal and free codes that are all in each other's way. -/

/-- The raw codes of the terminals are those that the declarations call for. -/
structure Declarations.Codes (d : Declarations) (g : Grammar) : Prop where
  /-- No two terminals share a code. -/
  injective : ∀ t < g.terminalCount, ∀ u < g.terminalCount, g.rawCode t = g.rawCode u → t = u
  error : ∀ t < g.terminalCount, g.alphabet.terminalName t = errorName → g.rawCode t = 256
  /-- Of several explicit codes the last one counts. -/
  explicit : ∀ t < g.terminalCount, g.alphabet.terminalName t ≠ errorName →
    ∀ code, declaredCode? d.tokens.toList (g.alphabet.terminalName t) = some code →
      g.rawCode t = code
  endOfInput : ∀ t < g.terminalCount, g.alphabet.terminalName t = endName →
    declaredCode? d.tokens.toList endName = none → g.rawCode t = 0
  literal : ∀ t < g.terminalCount, ∀ ch, literalChar? (g.alphabet.terminalName t) = some ch →
    declaredCode? d.tokens.toList (g.alphabet.terminalName t) = none → g.rawCode t = ch.toNat
  /-- The others get, in order, the least code that no known one and no earlier one of them uses. -/
  free : ∀ t < g.terminalCount, d.Uncoded (g.alphabet.terminalName t) →
    IsLeast {k | 257 ≤ k ∧ ∀ u < g.terminalCount,
      (¬ d.Uncoded (g.alphabet.terminalName u) ∨ u < t) → g.rawCode u ≠ k} (g.rawCode t)

/-- All of it, for the grammar that declarations resolve to. -/
theorem Resolved.codes {d : Declarations} {g : Grammar} (h : Resolved d g) : d.Codes g where
  injective _ ht _ hu heq := Grammar.rawCode_injective h.nodup_codes ht hu heq
  error t ht hname := by
    apply h.rawCode_known ht
    rw [Declarations.knownCode?, if_pos hname]
    rfl
  explicit t ht hname code hcode := by
    apply h.rawCode_known ht
    rw [Declarations.knownCode?, if_neg hname, hcode]
    rfl
  endOfInput t ht hname hnone := by
    apply h.rawCode_known ht
    rw [hname, Declarations.knownCode?, if_neg (by decide), hnone, if_pos rfl]
    rfl
  literal t ht ch hch hnone := by
    have hnot : ∀ name, literalChar? name = none → g.alphabet.terminalName t ≠ name := by
      rintro name hname heq
      rw [heq, hname] at hch
      exact absurd hch (by simp)
    apply h.rawCode_known ht
    rw [Declarations.knownCode?, if_neg (hnot errorName (by decide)), hnone,
      if_neg (hnot endName (by decide)), hch]
    rfl
  free _ ht huncoded := h.rawCode_free ht huncoded

namespace Construction

variable {d : Declarations} {settings : Settings} {c : Construction}

/-- Raw codes and the table that translates them are inverse to each other. -/
theorem rawCodes_translate (h : d.build settings = .ok c) :
    d.Codes c.grammar ∧ ∀ raw,
      (∀ t < c.grammar.terminalCount, c.grammar.rawCode t = raw → c.table.symbolOf raw = t) ∧
      ((∀ t < c.grammar.terminalCount, c.grammar.rawCode t ≠ raw) →
        c.table.symbolOf raw = c.table.invalidSymbol) := by
  refine ⟨(Declarations.build_spec h).1.codes, fun raw => ⟨?_, fun hnone => ?_⟩⟩
  · rintro t ht rfl
    exact symbolOf_rawCode h ht
  · rw [invalidSymbol_eq h, table_eq h]
    rcases c.grammar.tokenToSymbol_cases raw with ⟨t, ht, hraw, -⟩ | ⟨hinvalid, -⟩
    · exact absurd hraw (hnone t ht)
    · exact hinvalid

/-- Codes stand in each other's way: `NUM` takes 257 in the end, and the literal has code point 259.
    -/
def crowded : Declarations where
  tokens := #[⟨"ID", none⟩, ⟨"NUM", some 999⟩, ⟨"'+'", some 300⟩, ⟨"NUM", some 257⟩, ⟨"END", none⟩]
  rules := #[⟨"S", ["ID", "NUM", "'+'", "'ă'", "END"], none, none⟩, ⟨"S", ["error"], none, none⟩]

/-- The grammar that they declare. -/
def crowdedGrammar : Grammar where
  alphabet :=
    { terminals := #[⟨"$end", 0, none⟩, ⟨"error", 256, none⟩, ⟨"ID", 258, none⟩, ⟨"NUM", 257, none⟩,
        ⟨"'+'", 300, none⟩, ⟨"END", 260, none⟩, ⟨"'ă'", 259, none⟩]
      nonterminals := #["$start", "S"] }
  rules := #[⟨0, [.nonterminal 1, .terminal 0], none, none⟩,
    ⟨1, [.terminal 2, .terminal 3, .terminal 4, .terminal 6, .terminal 5], none, none⟩,
    ⟨1, [.terminal 1], none, none⟩]

/-- `END` gets 260 and is found again under it; no terminal is found under a code far past the
    table. -/
theorem rawCodes_translate_crowded : ∃ c, crowded.build = .ok c ∧ crowded.Codes c.grammar ∧
    c.grammar.rawCode 5 = 260 ∧ c.table.symbolOf 260 = 5 ∧
    c.table.symbolOf 4000000000 = c.table.invalidSymbol := by
  have hstates : (Automaton.ofAnalysis (Analysis.ofGrammar crowdedGrammar)).states.size ≤ 9 := by
    cbv
  have hbuild : crowded.build = .ok (Construction.ofGrammar {} crowdedGrammar) :=
    Declarations.build_of_isShort (by cbv) (Grammar.isShort_iff.mpr (by decide)) (by decide) hstates
      (by decide)
  obtain ⟨hcodes, htranslate⟩ := rawCodes_translate hbuild
  have hfar : ∀ t < (Construction.ofGrammar {} crowdedGrammar).grammar.terminalCount,
      (Construction.ofGrammar {} crowdedGrammar).grammar.rawCode t ≠ 4000000000 := by
    show ∀ t < crowdedGrammar.terminalCount, crowdedGrammar.rawCode t ≠ 4000000000
    decide
  exact ⟨_, hbuild, hcodes, rfl, (htranslate 260).1 5 (by decide) rfl, (htranslate _).2 hfar⟩

end Construction

end Lalr
