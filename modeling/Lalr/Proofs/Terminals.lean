/-
  The terminals of declarations, and the raw codes that are known of them.

    1. A name is a terminal for one of five reasons (`Declarations.IsTerminal`).  Terminals are
       counted in the order in which these reasons come up (`terminals`): the built-in ones,
       declared tokens, names in precedence levels, literals in the rules.
    2. A declaration knows the code of some of them (`knownCode?`).
    3. The candidates that are collected are these terminals in this order with these codes
       (`lists_candidates`).  Collecting is a chain of steps of two kinds, and each adds one name at
       the end if it is new (`Lists.mention`, `Lists.declare`).
    4. A clash is found exactly if two terminals share a known code, and it is the first one
       (`clash?_of_firstClash`, `clash?_of_distinct`).
-/
import Mathlib
import Lalr.Proofs.Codes

namespace Lalr

/-! ## Which names are terminals

  The five reasons say what a terminal is without saying in which order they are looked at.  The
  order comes in with the list. -/

/-- Is the name a character literal? -/
def IsLiteral (name : String) : Prop :=
  ∃ c, literalChar? name = some c

namespace Declarations

/-- Is the name the left side of a rule? -/
def IsLeftSide (d : Declarations) (name : String) : Prop :=
  ∃ r ∈ d.rules, r.lhs = name

/-- Does a token, a precedence level or a rule mention the name?  A rule mentions what stands on its
    right side and what lends it its precedence. -/
def Mentions (d : Declarations) (name : String) : Prop :=
  (∃ t ∈ d.tokens, t.name = name) ∨ (∃ l ∈ d.levels, name ∈ l.names)
    ∨ ∃ r ∈ d.rules, name ∈ r.mentions

/-- Is the name a terminal, and why? -/
inductive IsTerminal (d : Declarations) : String → Prop where
  | endOfInput : IsTerminal d endName
  | error (h : d.Mentions errorName) : IsTerminal d errorName
  | token {t : TokenDecl} (h : t ∈ d.tokens) : IsTerminal d t.name
  | ranked {l : LevelDecl} {name : String} (h : l ∈ d.levels) (hname : name ∈ l.names)
      (hleft : ¬ d.IsLeftSide name) : IsTerminal d name
  | quoted {r : RuleDecl} {name : String} (h : r ∈ d.rules) (hname : name ∈ r.mentions)
      (hliteral : IsLiteral name) : IsTerminal d name

/-- The names that are terminals for being listed in a precedence level. -/
def rankedNames (d : Declarations) : List String :=
  (d.levels.toList.flatMap (·.names)).filter (!d.leftSides.contains ·)

/-- The names that are terminals for being quoted in a rule. -/
def quotedNames (d : Declarations) : List String :=
  (d.rules.toList.flatMap (·.mentions)).filter fun name => (literalChar? name).isSome

/-- The names that are there before any declaration. -/
def builtInNames (d : Declarations) : List String :=
  endName :: if d.mentionsError then [errorName] else []

/-- The terminals, each where it first comes up. -/
def terminals (d : Declarations) : List String :=
  (d.builtInNames ++ d.tokens.toList.map (·.name) ++ (d.rankedNames ++ d.quotedNames)).eraseDups

/-- The check for the error token finds it. -/
theorem mentionsError_iff {d : Declarations} : d.mentionsError = true ↔ d.Mentions errorName := by
  simp only [mentionsError, Mentions, ← Array.any_toList, Bool.or_eq_true, List.any_eq_true,
    Array.mem_toList_iff, beq_iff_eq, List.contains_iff_mem, or_assoc]

theorem mem_leftSides_iff {d : Declarations} {name : String} :
    name ∈ d.leftSides ↔ d.IsLeftSide name :=
  mem_leftSides

theorem mem_rankedNames {d : Declarations} {name : String} :
    name ∈ d.rankedNames ↔ (∃ l ∈ d.levels, name ∈ l.names) ∧ ¬ d.IsLeftSide name := by
  simp [rankedNames, mem_leftSides_iff]

theorem mem_quotedNames {d : Declarations} {name : String} :
    name ∈ d.quotedNames ↔ (∃ r ∈ d.rules, name ∈ r.mentions) ∧ IsLiteral name := by
  simp [quotedNames, IsLiteral, Option.isSome_iff_exists]

theorem mem_builtInNames {d : Declarations} {name : String} :
    name ∈ d.builtInNames ↔ name = endName ∨ (name = errorName ∧ d.Mentions errorName) := by
  rw [builtInNames, List.mem_cons, ← mentionsError_iff]
  by_cases herror : d.mentionsError = true <;> simp [herror]

/-- The list has all names that stand for terminals. -/
theorem mem_terminals {d : Declarations} {name : String} :
    name ∈ d.terminals ↔ d.IsTerminal name := by
  rw [terminals, List.mem_eraseDups]
  simp only [List.mem_append, List.mem_map, Array.mem_toList_iff, mem_builtInNames,
    mem_rankedNames, mem_quotedNames]
  constructor
  · rintro (((rfl | ⟨rfl, herror⟩) | ⟨t, ht, rfl⟩) | ⟨⟨l, hl, hname⟩, hleft⟩ | ⟨⟨r, hr, hname⟩, hq⟩)
    · exact .endOfInput
    · exact .error herror
    · exact .token ht
    · exact .ranked hl hname hleft
    · exact .quoted hr hname hq
  · intro h
    cases h with
    | endOfInput => exact Or.inl (Or.inl (Or.inl rfl))
    | error herror => exact Or.inl (Or.inl (Or.inr ⟨rfl, herror⟩))
    | token ht => exact Or.inl (Or.inr ⟨_, ht, rfl⟩)
    | ranked hl hname hleft => exact Or.inr (Or.inl ⟨⟨_, hl, hname⟩, hleft⟩)
    | quoted hr hname hq => exact Or.inr (Or.inr ⟨⟨_, hr, hname⟩, hq⟩)

/-! ## Known codes

  A token may be declared more than once, with different codes.  The last one counts, also for
  the built-in terminals. -/

/-- The code that token declarations give a name; the last one counts. -/
def declaredCode? (tokens : List TokenDecl) (name : String) : Option Nat :=
  ((tokens.filter (·.name = name)).filterMap (·.code)).getLast?

/-- The code that a terminal has before free ones are given out. -/
def knownCode? (d : Declarations) (name : String) : Option Nat :=
  if name = errorName then some errorCode
  else
    (declaredCode? d.tokens.toList name).or
      (if name = endName then some 0 else (literalChar? name).map Char.toNat)

/-- Of two declared codes the later one counts. -/
theorem declaredCode?_concat (tokens : List TokenDecl) (t : TokenDecl) (name : String) :
    declaredCode? (tokens ++ [t]) name
      = if t.name = name then t.code.or (declaredCode? tokens name)
        else declaredCode? tokens name := by
  unfold declaredCode?
  rw [List.filter_append, List.filterMap_append]
  by_cases hname : t.name = name
  · rw [if_pos hname, List.filter_cons_of_pos (by simpa using hname)]
    cases hcode : t.code <;> simp [hcode]
  · rw [if_neg hname, List.filter_cons_of_neg (by simpa using hname)]
    simp

theorem declaredCode?_of_not_mem {tokens : List TokenDecl} {name : String}
    (h : name ∉ tokens.map (·.name)) : declaredCode? tokens name = none := by
  have hfilter : tokens.filter (·.name = name) = [] := by
    rw [List.filter_eq_nil_iff]
    intro t ht hname
    exact h (List.mem_map.mpr ⟨t, ht, by simpa using hname⟩)
  rw [declaredCode?, hfilter]
  rfl

end Declarations

/-! ## Collecting

  Whatever adds a name adds it at the end, if it is new.  So at every moment there is a list of
  names of which the candidates are the different ones. -/

theorem eraseDups_concat {α : Type} [DecidableEq α] (xs : List α) (x : α) :
    (xs ++ [x]).eraseDups = if x ∈ xs then xs.eraseDups else xs.eraseDups ++ [x] := by
  rw [List.eraseDups_append]
  by_cases hx : x ∈ xs <;> simp [List.removeAll, hx, List.eraseDups_cons]

namespace Vocabulary

/-- The candidates are the names of a list, each where it first stands, with the codes that
    `code` tells. -/
structure Lists (v : List Candidate) (names : List String) (code : String → Option Nat) :
    Prop where
  names_eq : v.map (·.name) = names.eraseDups
  code_eq : ∀ c ∈ v, c.code = code c.name

variable {v : List Candidate} {names : List String} {code : String → Option Nat}

/-- What is listed is there. -/
theorem Lists.has_iff (h : Lists v names code) {name : String} :
    has v name = true ↔ name ∈ names := by
  rw [Vocabulary.has_iff, h.names_eq, List.mem_eraseDups]

/-- A name that is mentioned is added if it is new; it must have no code then. -/
theorem Lists.mention (h : Lists v names code) {name : String}
    (hnew : name ∉ names → code name = none) : Lists (mention v name) (names ++ [name]) code := by
  unfold Vocabulary.mention
  by_cases hmem : name ∈ names
  · rw [if_pos (h.has_iff.mpr hmem)]
    exact ⟨by rw [eraseDups_concat, if_pos hmem, h.names_eq], h.code_eq⟩
  · rw [if_neg fun hhas => hmem (h.has_iff.mp hhas)]
    constructor
    · rw [eraseDups_concat, if_neg hmem, List.map_append, h.names_eq]
      rfl
    · intro c hc
      rcases List.mem_append.mp hc with hc | hc
      · exact h.code_eq c hc
      · rw [List.mem_singleton.mp hc]
        exact (hnew hmem).symm

/-- Mentioning names adds those that are new. -/
theorem Lists.mentionAll (h : Lists v names code) {more : List String}
    (hnew : ∀ name ∈ more, name ∉ names → code name = none) :
    Lists (more.foldl Vocabulary.mention v) (names ++ more) code := by
  induction more generalizing v names with
  | nil => simpa using h
  | cons name more ih =>
    have hnext := h.mention (hnew name List.mem_cons_self)
    have hall := ih hnext fun other hother hout =>
      hnew other (List.mem_cons_of_mem _ hother) fun hin => hout (List.mem_append_left _ hin)
    rw [List.append_assoc] at hall
    exact hall

/-- A declared token is added if it is new, and its code replaces an older one. -/
theorem Lists.declare (h : Lists v names code) {t : TokenDecl} (herror : t.name ≠ errorName)
    (hnew : t.name ∉ names → code t.name = none) :
    Lists (declare v t) (names ++ [t.name])
      fun name => if t.name = name then t.code.or (code name) else code name := by
  unfold Vocabulary.declare
  rw [if_neg (by simpa using herror)]
  by_cases hmem : t.name ∈ names
  · -- the name is known, and the candidate that has it is changed where it stands
    rw [if_pos (h.has_iff.mpr hmem)]
    constructor
    · rw [eraseDups_concat, if_pos hmem, ← h.names_eq, List.map_map]
      refine List.map_congr_left fun c _ => ?_
      show (if _ then _ else _ : Candidate).name = _
      split <;> rfl
    · intro c hc
      obtain ⟨old, hold, rfl⟩ := List.mem_map.mp hc
      by_cases hname : t.name = old.name
      · simp [hname, h.code_eq old hold]
      · simp [hname, Ne.symm hname, h.code_eq old hold]
  · -- the name is new, and nothing was known of its code
    rw [if_neg fun hhas => hmem (h.has_iff.mp hhas)]
    constructor
    · rw [eraseDups_concat, if_neg hmem, List.map_append, h.names_eq]
      rfl
    · intro c hc
      rcases List.mem_append.mp hc with hc | hc
      · have hother : t.name ≠ c.name := by
          rintro hname
          have hin := List.mem_map_of_mem (f := (·.name)) hc
          rw [h.names_eq, List.mem_eraseDups, ← hname] at hin
          exact hmem hin
        rw [if_neg hother]
        exact h.code_eq c hc
      · rw [List.mem_singleton.mp hc]
        simp [hnew hmem]

end Vocabulary

open Vocabulary

namespace Declarations

variable {d : Declarations}

/-- The code of a name when only these tokens have been declared. -/
def codeAfter (tokens : List TokenDecl) (name : String) : Option Nat :=
  if name = errorName then some errorCode
  else (declaredCode? tokens name).or (if name = endName then some 0 else none)

/-- A name has no code while it is neither built in nor declared. -/
theorem codeAfter_of_not_mem {tokens : List TokenDecl} {name : String}
    (hbuiltIn : name ∉ d.builtInNames) (herror : name = errorName → d.Mentions errorName)
    (htokens : name ∉ tokens.map (·.name)) : codeAfter tokens name = none := by
  rw [mem_builtInNames] at hbuiltIn
  have hend : name ≠ endName := fun h => hbuiltIn (Or.inl h)
  have herror' : name ≠ errorName := fun h => hbuiltIn (Or.inr ⟨h, herror h⟩)
  rw [codeAfter, if_neg herror', declaredCode?_of_not_mem htokens, if_neg hend]
  rfl

/-- The built-in terminals come first. -/
theorem lists_builtIn (d : Declarations) : Lists d.builtIn d.builtInNames (codeAfter []) := by
  unfold builtIn builtInNames
  by_cases herror : d.mentionsError = true
  · simp only [herror, if_true]
    exact ⟨by decide, by decide⟩
  · simp only [herror]
    exact ⟨by decide, by decide⟩

/-- Induction on the declared tokens, the last one taken off. -/
theorem lists_declared {tokens : List TokenDecl} (h : ∀ t ∈ tokens, t ∈ d.tokens) :
    Lists (tokens.foldl declare d.builtIn) (d.builtInNames ++ tokens.map (·.name))
      (codeAfter tokens) := by
  induction tokens using List.reverseRecOn with
  | nil => simpa using d.lists_builtIn
  | append_singleton tokens t ih =>
    have hlists := ih fun u hu => h u (List.mem_append_left _ hu)
    have ht : t ∈ d.tokens := h t (List.mem_append_right _ List.mem_cons_self)
    rw [List.foldl_append, List.map_append, ← List.append_assoc]
    by_cases herror : t.name = errorName
    · -- the terminal for error recovery is there already, and keeps its code
      have hin : t.name ∈ d.builtInNames ++ tokens.map (·.name) :=
        List.mem_append_left _ (mem_builtInNames.mpr (Or.inr ⟨herror, Or.inl ⟨t, ht, herror⟩⟩))
      have hsame : codeAfter (tokens ++ [t]) = codeAfter tokens := by
        funext name
        unfold codeAfter
        rw [declaredCode?_concat]
        by_cases hname : name = errorName
        · rw [if_pos hname, if_pos hname]
        · rw [if_neg hname, if_neg hname, if_neg fun he => hname (he.symm.trans herror)]
      have hdeclare : [t].foldl declare (tokens.foldl declare d.builtIn)
          = tokens.foldl declare d.builtIn := by
        rw [List.foldl_cons, List.foldl_nil, declare, if_pos (by simpa using herror)]
      rw [hdeclare, hsame]
      refine ⟨?_, hlists.code_eq⟩
      rw [List.map_cons, List.map_nil, eraseDups_concat, if_pos hin, hlists.names_eq]
    · have hnext := hlists.declare herror fun hout =>
        codeAfter_of_not_mem (fun hin => hout (List.mem_append_left _ hin))
          (fun he => absurd he herror) fun hin => hout (List.mem_append_right _ hin)
      have hcode : (fun name => if t.name = name then t.code.or (codeAfter tokens name)
          else codeAfter tokens name) = codeAfter (tokens ++ [t]) := by
        funext name
        unfold codeAfter
        rw [declaredCode?_concat]
        by_cases hname : t.name = name
        · rw [if_pos hname, if_neg fun he => herror (hname.trans he), if_pos hname,
            if_neg fun he => herror (hname.trans he), Option.or_assoc]
        · rw [if_neg hname, if_neg hname]
      rw [hcode] at hnext
      exact hnext

/-- Levels and rules only mention names. -/
theorem candidates_eq (d : Declarations) :
    d.candidates = (d.rankedNames ++ d.quotedNames).foldl mention
      (d.tokens.toList.foldl declare d.builtIn) := by
  have hrank : rank d.leftSides = fun v name =>
      if !d.leftSides.contains name then mention v name else v := by
    funext v name
    unfold rank
    cases d.leftSides.contains name <;> rfl
  rw [List.foldl_append, rankedNames, quotedNames, List.foldl_filter, List.foldl_filter,
    List.foldl_flatMap, List.foldl_flatMap, ← hrank, candidates, ← Array.foldl_toList,
    ← Array.foldl_toList, ← Array.foldl_toList]
  rfl

/-- The candidates are the terminals in their order, with what is known of their codes. -/
theorem lists_candidates (d : Declarations) :
    (d.candidates.map withLiteralCode).map (·.name) = d.terminals
      ∧ ∀ c ∈ d.candidates.map withLiteralCode, c.code = d.knownCode? c.name := by
  -- declared terminals first, then those that levels and rules name
  have hdeclared := d.lists_declared fun t (ht : t ∈ d.tokens.toList) => Array.mem_toList_iff.mp ht
  have hmentioned : ∀ name ∈ d.rankedNames ++ d.quotedNames, d.Mentions name := by
    intro name hname
    rcases List.mem_append.mp hname with hname | hname
    · exact Or.inr (Or.inl (mem_rankedNames.mp hname).1)
    · exact Or.inr (Or.inr (mem_quotedNames.mp hname).1)
  have hall := hdeclared.mentionAll fun name (hname : name ∈ d.rankedNames ++ d.quotedNames) hout =>
    codeAfter_of_not_mem (fun hin => hout (List.mem_append_left _ hin))
      (fun he => he ▸ hmentioned name hname) fun hin => hout (List.mem_append_right _ hin)
  rw [← d.candidates_eq] at hall
  constructor
  · rw [List.map_map]
    exact hall.names_eq
  · intro c hc
    obtain ⟨old, hold, rfl⟩ := List.mem_map.mp hc
    have hcode := hall.code_eq old hold
    show old.code.or ((literalChar? old.name).map Char.toNat) = d.knownCode? old.name
    rw [hcode, codeAfter, knownCode?]
    -- the two built-in names have codes of their own, whatever is declared
    by_cases herror : old.name = errorName
    · rw [if_pos herror, if_pos herror]
      rfl
    · rw [if_neg herror, if_neg herror, Option.or_assoc]
      by_cases hend : old.name = endName
      · rw [if_pos hend, if_pos hend]
        rfl
      · rw [if_neg hend, if_neg hend, Option.none_or]

/-- Together these are the terminals. -/
theorem has_candidates {name : String} :
    has (d.candidates.map withLiteralCode) name = true ↔ d.IsTerminal name := by
  rw [Vocabulary.has_iff, d.lists_candidates.1, mem_terminals]

theorem map_fst_codedTerminals (d : Declarations) : d.codedTerminals.map (·.1) = d.terminals := by
  rw [codedTerminals, map_fst_assign, d.lists_candidates.1]

end Declarations

/-! ## Clashes

  Two terminals with one known code make a clash.  The search goes through the candidates and
  remembers the codes that it has met. -/

/-- No two names of the list have one known code. -/
def DistinctCodes (code : String → Option Nat) (names : List String) : Prop :=
  names.Pairwise fun a b => ∀ k, code a = some k → code b ≠ some k

/-- `second` is the first name of the list whose known code a name before it has: it is `k`, and
    `first` has it. -/
def FirstClash (code : String → Option Nat) (names : List String) (first second : String)
    (k : Nat) : Prop :=
  ∃ before after, names = before ++ second :: after ∧ DistinctCodes code before ∧ first ∈ before
    ∧ code first = some k ∧ code second = some k

theorem distinctCodes_concat {code : String → Option Nat} {names : List String} {name : String} :
    DistinctCodes code (names ++ [name])
      ↔ DistinctCodes code names ∧ ∀ a ∈ names, ∀ k, code a = some k → code name ≠ some k := by
  simp [DistinctCodes, List.pairwise_append]

/-- Distinct codes have no first clash. -/
theorem not_firstClash {code : String → Option Nat} {names : List String} {first second : String}
    {k : Nat} (h : DistinctCodes code names) : ¬ FirstClash code names first second k := by
  rintro ⟨before, after, rfl, -, hfirst, hfirstk, hsecondk⟩
  exact (List.pairwise_append.mp h).2.2 first hfirst second List.mem_cons_self k hfirstk hsecondk

/-- Codes are distinct, or there is a first clash. -/
theorem distinctCodes_or_firstClash (code : String → Option Nat) (names : List String) :
    DistinctCodes code names ∨ ∃ first second k, FirstClash code names first second k := by
  induction names using List.reverseRecOn with
  | nil => exact Or.inl List.Pairwise.nil
  | append_singleton names name ih =>
    rcases ih with hdistinct | ⟨first, second, k, before, after, rfl, hrest⟩
    · by_cases hclash : ∃ a ∈ names, ∃ k, code a = some k ∧ code name = some k
      · obtain ⟨a, ha, k, hak, hk⟩ := hclash
        exact Or.inr ⟨a, name, k, names, [], rfl, hdistinct, ha, hak, hk⟩
      · refine Or.inl (distinctCodes_concat.mpr ⟨hdistinct, fun a ha k hak hk => ?_⟩)
        exact hclash ⟨a, ha, k, hak, hk⟩
    · refine Or.inr ⟨first, second, k, before, after ++ [name], ?_, hrest⟩
      rw [List.append_assoc, List.cons_append]

namespace Vocabulary

variable {code : String → Option Nat} {v : List Candidate}

/-- `seen` tells for every code which of the names has it. -/
def Remembers (code : String → Option Nat) (seen : List (Nat × String)) (names : List String) :
    Prop :=
  ∀ k name, seen.lookup k = some name ↔ name ∈ names ∧ code name = some k

/-- A name more does not matter to codes that it does not have. -/
theorem mem_concat_and_iff {names : List String} {new name : String} {k : Nat}
    (h : code new ≠ some k) : (name ∈ names ++ [new] ∧ code name = some k)
      ↔ name ∈ names ∧ code name = some k := by
  rw [List.mem_append, List.mem_singleton]
  constructor
  · rintro ⟨hname | rfl, hcode⟩
    · exact ⟨hname, hcode⟩
    · exact absurd hcode h
  · rintro ⟨hname, hcode⟩
    exact ⟨Or.inl hname, hcode⟩

section

variable {seen : List (Nat × String)} {names : List String} (h : Remembers code seen names)
include h

/-- A name without a code is passed. -/
theorem Remembers.pass {new : String} (hnone : code new = none) :
    Remembers code seen (names ++ [new]) := by
  intro k name
  rw [mem_concat_and_iff (by rw [hnone]; simp)]
  exact h k name

theorem Remembers.lookup_eq_none {k : Nat} (hfree : ∀ a ∈ names, code a ≠ some k) :
    seen.lookup k = none := by
  cases hfound : seen.lookup k with
  | none => rfl
  | some a =>
    obtain ⟨ha, hak⟩ := (h k a).mp hfound
    exact absurd hak (hfree a ha)

/-- A code that no name had is remembered. -/
theorem Remembers.add {new : String} {k : Nat} (hnew : code new = some k)
    (hfree : ∀ a ∈ names, code a ≠ some k) :
    Remembers code ((k, new) :: seen) (names ++ [new]) := by
  intro j name
  rw [List.lookup_cons]
  by_cases hj : j = k
  · subst hj
    rw [beq_self_eq_true, List.mem_append, List.mem_singleton]
    constructor
    · intro hname
      injection hname with hname
      subst hname
      exact ⟨Or.inr rfl, hnew⟩
    · rintro ⟨hname | rfl, hcode⟩
      · exact absurd hcode (hfree name hname)
      · rfl
  · have hother : code new ≠ some j := fun hcode => hj (Option.some.inj (hcode.symm.trans hnew))
    rw [beq_eq_false_iff_ne.mpr hj, mem_concat_and_iff hother]
    exact h j name

end

/-- One candidate whose code, if it has one, is new: the search goes on behind it. -/
theorem clash?_cons {seen : List (Nat × String)} {names : List String} {c : Candidate}
    (hseen : Remembers code seen names) (hcode : c.code = code c.name)
    (hnew : ∀ a ∈ names, ∀ k, code a = some k → code c.name ≠ some k) :
    ∃ seen', Remembers code seen' (names ++ [c.name]) ∧ clash? seen (c :: v) = clash? seen' v := by
  rw [clash?]
  cases hk : c.code with
  | none => exact ⟨seen, hseen.pass (hcode ▸ hk), rfl⟩
  | some k =>
    have hck : code c.name = some k := hcode ▸ hk
    have hfree : ∀ a ∈ names, code a ≠ some k := fun a ha hak => hnew a ha k hak hck
    refine ⟨(k, c.name) :: seen, hseen.add hck hfree, ?_⟩
    simp only [hseen.lookup_eq_none hfree]

/-- The search passes candidates that differ in their codes. -/
theorem clash?_append {seen : List (Nat × String)} {names : List String} {w : List Candidate}
    (hseen : Remembers code seen names) (hcode : ∀ c ∈ v, c.code = code c.name)
    (hdistinct : DistinctCodes code (names ++ v.map (·.name))) :
    ∃ seen', Remembers code seen' (names ++ v.map (·.name))
      ∧ clash? seen (v ++ w) = clash? seen' w := by
  induction v generalizing seen names with
  | nil => exact ⟨seen, by simpa using hseen, rfl⟩
  | cons c v ih =>
    have hsplit : names ++ (c :: v).map (·.name) = (names ++ [c.name]) ++ v.map (·.name) := by simp
    rw [hsplit] at hdistinct ⊢
    have hhere := distinctCodes_concat.mp (List.pairwise_append.mp hdistinct).1
    obtain ⟨seen', hseen', he⟩ := clash?_cons (v := v ++ w) hseen (hcode c List.mem_cons_self)
      hhere.2
    obtain ⟨seen'', hseen'', he'⟩ := ih hseen' (fun b hb => hcode b (List.mem_cons_of_mem _ hb))
      hdistinct
    exact ⟨seen'', hseen'', he.trans he'⟩

theorem remembers_nil : Remembers code [] [] := by
  intro k name
  simp

/-- No clash is found among distinct codes. -/
theorem clash?_of_distinct (hcode : ∀ c ∈ v, c.code = code c.name)
    (h : DistinctCodes code (v.map (·.name))) : clash? [] v = none := by
  obtain ⟨seen, -, he⟩ := clash?_append (w := []) remembers_nil hcode h
  rw [List.append_nil] at he
  rw [he, clash?]

/-- Of codes that clash, the first clash is found. -/
theorem clash?_of_firstClash (hcode : ∀ c ∈ v, c.code = code c.name) {first second : String}
    {k : Nat} (h : FirstClash code (v.map (·.name)) first second k) :
    clash? [] v = some (first, second, k) := by
  obtain ⟨before, after, hnames, hdistinct, hfirst, hfirstk, hsecondk⟩ := h
  obtain ⟨u, w, rfl, rfl, hw⟩ := List.map_eq_append_iff.mp hnames
  obtain ⟨c, w, rfl, rfl, -⟩ := List.map_eq_cons_iff.mp hw
  obtain ⟨seen, hseen, he⟩ := clash?_append (w := c :: w) remembers_nil
    (fun b hb => hcode b (List.mem_append_left _ hb)) hdistinct
  have hk : c.code = some k :=
    (hcode c (List.mem_append_right _ List.mem_cons_self)).trans hsecondk
  have hfound : seen.lookup k = some first := (hseen k first).mpr ⟨hfirst, hfirstk⟩
  rw [he, clash?, hk]
  simp only [hfound]

end Vocabulary

end Lalr
