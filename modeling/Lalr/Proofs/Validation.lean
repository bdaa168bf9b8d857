/-
  Declarations are refused exactly if they are not well formed, and the first defect is named.

    1. The checks are five, and `Declarations.FirstDefect` says in which order defects come up: no
       rules, then a clash of codes, then a fault of a left side, then the start symbol, then a
       fault of a right side or of what lends a rule its precedence.  Within one check the first
       rule counts, and in a rule the first name.
    2. A check reports a kind of fault if it fails with each fault there is and succeeds otherwise
       (`Reports`).  Checks of single names are put together to checks of lists (`Reports.mapM`).
    3. `resolve` reports first defects (`resolve_reports`), and declarations without one are those
       that are well formed (`isWellFormed_iff`).

  A declared token or a name in a precedence level must not be `$start`: the added start symbol
  would stand before the terminal of that name, and the terminal could not lend its precedence.
-/
import Mathlib
import Lalr.Proofs.Terminals

namespace Lalr

/-! ## Faults, and checks that report them

  A fault is a relation, so that it can be stated without saying in which order one looks.  Which
  of several faults is the first one is said by `FirstFault`. -/

/-- A member of the list is at fault, and the fault of the first such member is `e`. -/
def FirstFault {α ε : Type} (fault : α → ε → Prop) (xs : List α) (e : ε) : Prop :=
  ∃ before x after, xs = before ++ x :: after ∧ (∀ y ∈ before, ∀ e, ¬ fault y e) ∧ fault x e

/-- Either nothing has a fault, or there is a first one. -/
theorem firstFault_or {α ε : Type} (fault : α → ε → Prop) (xs : List α) :
    (∀ x ∈ xs, ∀ e, ¬ fault x e) ∨ ∃ e, FirstFault fault xs e := by
  induction xs with
  | nil => exact Or.inl (by simp)
  | cons x xs ih =>
    by_cases hx : ∃ e, fault x e
    · obtain ⟨e, he⟩ := hx
      exact Or.inr ⟨e, [], x, xs, rfl, by simp, he⟩
    · have hx' : ∀ e, ¬ fault x e := fun e he => hx ⟨e, he⟩
      rcases ih with hnone | ⟨e, before, y, after, rfl, hbefore, hy⟩
      · exact Or.inl (List.forall_mem_cons.mpr ⟨hx', hnone⟩)
      · exact Or.inr ⟨e, x :: before, y, after, rfl, List.forall_mem_cons.mpr ⟨hx', hbefore⟩, hy⟩

/-- Without a first fault there is none. -/
theorem not_firstFault_iff {α ε : Type} {fault : α → ε → Prop} {xs : List α} :
    (∀ e, ¬ FirstFault fault xs e) ↔ ∀ x ∈ xs, ∀ e, ¬ fault x e := by
  constructor
  · intro h
    rcases firstFault_or fault xs with hnone | ⟨e, he⟩
    · exact hnone
    · exact absurd he (h e)
  · rintro h e ⟨before, x, after, rfl, -, hx⟩
    exact h x (List.mem_append_right _ List.mem_cons_self) e hx

/-- The check fails with every fault there is, and succeeds if there is none. -/
structure Reports {ε β : Type} (check : Except ε β) (fault : ε → Prop) : Prop where
  error : ∀ e, fault e → check = .error e
  ok : (∀ e, ¬ fault e) → ∃ y, check = .ok y

namespace Reports

variable {α β γ ε : Type}

/-- The check fails with the fault that there is. -/
theorem error_iff {check : Except ε β} {fault : ε → Prop} (h : Reports check fault) (e : ε) :
    check = .error e ↔ fault e := by
  constructor
  · intro he
    by_contra hno
    have hnone : ∀ e', ¬ fault e' := by
      intro e' he'
      have hsame := (h.error e' he').symm.trans he
      injection hsame with hsame
      exact hno (hsame ▸ he')
    obtain ⟨y, hy⟩ := h.ok hnone
    rw [hy] at he
    exact absurd he (by simp)
  · exact h.error e

/-- The check passes if there is no fault. -/
theorem ok_iff {check : Except ε β} {fault : ε → Prop} (h : Reports check fault) :
    (∃ y, check = .ok y) ↔ ∀ e, ¬ fault e := by
  constructor
  · rintro ⟨y, hy⟩ e he
    rw [h.error e he] at hy
    exact absurd hy (by simp)
  · exact h.ok

/-- Two checks in a row: a fault of the second counts if the first has none. -/
theorem bind {first : Except ε β} {second : β → Except ε γ} {fault fault' : ε → Prop}
    (h : Reports first fault) (h' : ∀ y, first = .ok y → Reports (second y) fault') :
    Reports (first >>= second) fun e => fault e ∨ ((∀ e, ¬ fault e) ∧ fault' e) where
  error e he := by
    rcases he with he | ⟨hnone, he⟩
    · rw [h.error e he]
      rfl
    · obtain ⟨y, hy⟩ := h.ok hnone
      rw [hy]
      exact (h' y hy).error e he
  ok hnone := by
    have hfirst : ∀ e, ¬ fault e := fun e he => hnone e (Or.inl he)
    obtain ⟨y, hy⟩ := h.ok hfirst
    obtain ⟨z, hz⟩ := (h' y hy).ok fun e he => hnone e (Or.inr ⟨hfirst, he⟩)
    exact ⟨z, by rw [hy]; exact hz⟩

/-- What is made of the result makes no difference to the faults. -/
theorem map {check : Except ε β} {fault : ε → Prop} (h : Reports check fault) (f : β → γ) :
    Reports (check >>= fun y => pure (f y)) fault where
  error e he := by
    rw [h.error e he]
    rfl
  ok hnone := by
    obtain ⟨y, hy⟩ := h.ok hnone
    exact ⟨f y, by rw [hy]; rfl⟩

/-- Members of a list are checked one after the other. -/
theorem mapM {check : α → Except ε β} {fault : α → ε → Prop} {xs : List α}
    (h : ∀ x ∈ xs, Reports (check x) (fault x)) :
    Reports (xs.mapM check) (FirstFault fault xs) := by
  induction xs with
  | nil =>
    constructor
    · rintro e ⟨before, x, after, hsplit, -⟩
      exact absurd hsplit (by simp)
    · intro _
      exact ⟨[], rfl⟩
  | cons x xs ih =>
    have hx := h x List.mem_cons_self
    have hxs := ih fun y hy => h y (List.mem_cons_of_mem _ hy)
    rw [List.mapM_cons]
    constructor
    · rintro e ⟨before, y, after, hsplit, hbefore, hy⟩
      -- the first fault is that of `x`, or the first one behind it, and then `x` passes
      rcases List.cons_eq_append_iff.mp hsplit with ⟨rfl, he⟩ | ⟨before, rfl, he⟩
      · injection he with he _
        rw [hx.error e (he ▸ hy)]
        rfl
      · obtain ⟨z, hz⟩ := hx.ok (hbefore x List.mem_cons_self)
        rw [hz, hxs.error e ⟨before, y, after, he,
          fun u hu => hbefore u (List.mem_cons_of_mem _ hu), hy⟩]
        rfl
    · intro hnone
      have hall := not_firstFault_iff.mp hnone
      obtain ⟨z, hz⟩ := hx.ok (hall x List.mem_cons_self)
      obtain ⟨zs, hzs⟩ := hxs.ok
        (not_firstFault_iff.mpr fun y hy => hall y (List.mem_cons_of_mem _ hy))
      rw [hz, hzs]
      exact ⟨z :: zs, rfl⟩

end Reports

/-! ## Defects, in the order in which they are looked for

  What can be wrong, check by check.  A later check is asked only if the earlier ones found
  nothing. -/

/-- Is the name one that no rule may use? -/
def IsReserved (name : String) : Prop :=
  name = endName ∨ name = startName

namespace Declarations

/-- What is wrong with the left side of a rule. -/
inductive LeftFault (d : Declarations) : RuleDecl × Nat → Defect → Prop where
  | reserved {r : RuleDecl} {number : Nat} (h : IsReserved r.lhs) :
      LeftFault d (r, number) (.reservedSymbol number r.lhs)
  | terminal {r : RuleDecl} {number : Nat} (hfree : ¬ IsReserved r.lhs)
      (h : d.IsTerminal r.lhs ∨ IsLiteral r.lhs) :
      LeftFault d (r, number) (.terminalOnLeft number r.lhs)

/-- What is wrong with a name on a right side. -/
inductive NameFault (d : Declarations) (number : Nat) : String → Defect → Prop where
  | reserved {name : String} (h : IsReserved name) :
      NameFault d number name (.reservedSymbol number name)
  | undefined {name : String} (hfree : ¬ IsReserved name) (hterminal : ¬ d.IsTerminal name)
      (hleft : ¬ d.IsLeftSide name) : NameFault d number name (.undefinedSymbol number name)

/-- What is wrong with the token that lends a rule its precedence. -/
inductive LevelFault (d : Declarations) (number : Nat) (levelOf : Option String) :
    Defect → Prop where
  | undefined {name : String} (hlevel : levelOf = some name) (h : ¬ d.IsTerminal name) :
      LevelFault d number levelOf (.undefinedPrecedence number name)

/-- What is wrong with a rule behind its left side: the first name at fault, else the token that
    lends it its precedence. -/
inductive RuleFault (d : Declarations) : RuleDecl × Nat → Defect → Prop where
  | name {r : RuleDecl} {number : Nat} {e : Defect} (h : FirstFault (d.NameFault number) r.rhs e) :
      RuleFault d (r, number) e
  | level {r : RuleDecl} {number : Nat} {e : Defect}
      (hnames : ∀ name ∈ r.rhs, ∀ e, ¬ d.NameFault number name e)
      (h : d.LevelFault number r.levelOf e) : RuleFault d (r, number) e

/-- The rules with their numbers, which count from 1. -/
def numberedRules (d : Declarations) : List (RuleDecl × Nat) :=
  d.rules.toList.zipIdx 1

/-- The first defect of declarations, in the order of the checks. -/
inductive FirstDefect (d : Declarations) : Defect → Prop where
  | noRules (h : d.rules = #[]) : FirstDefect d .noRules
  | duplicateCode {first second : String} {code : Nat} (hrules : d.rules ≠ #[])
      (h : FirstClash d.knownCode? d.terminals first second code) :
      FirstDefect d (.duplicateCode first second code)
  | left {e : Defect} (hrules : d.rules ≠ #[]) (hcodes : DistinctCodes d.knownCode? d.terminals)
      (h : FirstFault d.LeftFault d.numberedRules e) : FirstDefect d e
  | undefinedStart (hrules : d.rules ≠ #[]) (hcodes : DistinctCodes d.knownCode? d.terminals)
      (hleft : ∀ r ∈ d.numberedRules, ∀ e, ¬ d.LeftFault r e) (h : ¬ d.IsLeftSide d.startSymbol) :
      FirstDefect d (.undefinedStart d.startSymbol)
  | rule {e : Defect} (hrules : d.rules ≠ #[]) (hcodes : DistinctCodes d.knownCode? d.terminals)
      (hleft : ∀ r ∈ d.numberedRules, ∀ e, ¬ d.LeftFault r e)
      (hstart : d.IsLeftSide d.startSymbol) (h : FirstFault d.RuleFault d.numberedRules e) :
      FirstDefect d e

/-- What declarations must be like to describe a grammar. -/
structure IsWellFormed (d : Declarations) : Prop where
  rules : d.rules ≠ #[]
  codes : DistinctCodes d.knownCode? d.terminals
  left : ∀ r ∈ d.rules, ¬ IsReserved r.lhs ∧ ¬ d.IsTerminal r.lhs ∧ ¬ IsLiteral r.lhs
  start : d.IsLeftSide d.startSymbol
  right : ∀ r ∈ d.rules, ∀ name ∈ r.rhs, ¬ IsReserved name ∧ (d.IsTerminal name ∨ d.IsLeftSide name)
  level : ∀ r ∈ d.rules, ∀ name, r.levelOf = some name → d.IsTerminal name

variable {d : Declarations}

/-! ### Rules without faults -/

/-- What is asked of all rules does not depend on their numbers. -/
theorem forall_numberedRules {P : RuleDecl → Prop} :
    (∀ r ∈ d.numberedRules, P r.1) ↔ ∀ r ∈ d.rules, P r := by
  rw [numberedRules, List.forall_mem_zipIdx]
  constructor
  · intro h r hr
    obtain ⟨i, hi, rfl⟩ := Array.mem_iff_getElem.mp hr
    exact h i (by simpa using hi)
  · intro h i hi
    exact h _ (Array.mem_toList_iff.mp (List.getElem_mem hi))

/-- A left side is in order if it is a name for a nonterminal. -/
theorem not_leftFault_iff {r : RuleDecl × Nat} :
    (∀ e, ¬ d.LeftFault r e) ↔
      ¬ IsReserved r.1.lhs ∧ ¬ d.IsTerminal r.1.lhs ∧ ¬ IsLiteral r.1.lhs := by
  constructor
  · intro h
    have hfree : ¬ IsReserved r.1.lhs := fun hr => h _ (.reserved hr)
    exact ⟨hfree, fun ht => h _ (.terminal hfree (Or.inl ht)),
      fun hl => h _ (.terminal hfree (Or.inr hl))⟩
  · rintro ⟨hfree, hterminal, hliteral⟩ e he
    cases he with
    | reserved hr => exact hfree hr
    | terminal _ h => exact h.elim hterminal hliteral

/-- A name on a right side is in order if it has a meaning and is not reserved. -/
theorem not_nameFault_iff {number : Nat} {name : String} :
    (∀ e, ¬ d.NameFault number name e)
      ↔ ¬ IsReserved name ∧ (d.IsTerminal name ∨ d.IsLeftSide name) := by
  constructor
  · intro h
    have hfree : ¬ IsReserved name := fun hr => h _ (.reserved hr)
    refine ⟨hfree, ?_⟩
    by_contra hnone
    exact h _ (.undefined hfree (fun ht => hnone (Or.inl ht)) fun hl => hnone (Or.inr hl))
  · rintro ⟨hfree, hdefined⟩ e he
    cases he with
    | reserved hr => exact hfree hr
    | undefined _ hterminal hleft => exact hdefined.elim hterminal hleft

/-- A rule is in order if its names are, and if the name of its level is a terminal. -/
theorem not_ruleFault_iff {r : RuleDecl × Nat} :
    (∀ e, ¬ d.RuleFault r e)
      ↔ (∀ name ∈ r.1.rhs, ¬ IsReserved name ∧ (d.IsTerminal name ∨ d.IsLeftSide name))
        ∧ ∀ name, r.1.levelOf = some name → d.IsTerminal name := by
  constructor
  · intro h
    have hnames : ∀ name ∈ r.1.rhs, ∀ e, ¬ d.NameFault r.2 name e :=
      not_firstFault_iff.mp fun e he => h e (.name he)
    refine ⟨fun name hname => not_nameFault_iff.mp (hnames name hname), fun name hlevel => ?_⟩
    by_contra hterminal
    exact h _ (.level hnames (.undefined hlevel hterminal))
  · rintro ⟨hnames, hlevel⟩ e he
    have hnone : ∀ name ∈ r.1.rhs, ∀ e, ¬ d.NameFault r.2 name e :=
      fun name hname => not_nameFault_iff.mpr (hnames name hname)
    cases he with
    | name h => exact not_firstFault_iff.mpr hnone e h
    | level _ h =>
      obtain ⟨hl, hterminal⟩ := h
      exact hterminal (hlevel _ hl)

/-- All left sides are in order if they are names for nonterminals. -/
theorem forall_not_leftFault_iff : (∀ r ∈ d.numberedRules, ∀ e, ¬ d.LeftFault r e)
    ↔ ∀ r ∈ d.rules, ¬ IsReserved r.lhs ∧ ¬ d.IsTerminal r.lhs ∧ ¬ IsLiteral r.lhs := by
  rw [← forall_numberedRules]
  exact forall₂_congr fun r _ => not_leftFault_iff

/-- All rules are in order if their names and levels are. -/
theorem forall_not_ruleFault_iff : (∀ r ∈ d.numberedRules, ∀ e, ¬ d.RuleFault r e)
    ↔ ∀ r ∈ d.rules, (∀ name ∈ r.rhs, ¬ IsReserved name ∧ (d.IsTerminal name ∨ d.IsLeftSide name))
      ∧ ∀ name, r.levelOf = some name → d.IsTerminal name := by
  rw [← forall_numberedRules]
  exact forall₂_congr fun r _ => not_ruleFault_iff

/-- Well-formed declarations are those without a defect. -/
theorem isWellFormed_iff : d.IsWellFormed ↔ ∀ e, ¬ d.FirstDefect e := by
  constructor
  · intro h e he
    cases he with
    | noRules hnone => exact h.rules hnone
    | duplicateCode _ hclash => exact not_firstClash h.codes hclash
    | left _ _ hfault => exact
      not_firstFault_iff.mpr (forall_not_leftFault_iff.mpr h.left) e hfault
    | undefinedStart _ _ _ hundefined => exact hundefined h.start
    | rule _ _ _ _ hfault =>
      exact not_firstFault_iff.mpr
        (forall_not_ruleFault_iff.mpr fun r hr => ⟨h.right r hr, h.level r hr⟩) e hfault
  · intro h
    -- each check is passed because its failing would be the first defect
    have hrules : d.rules ≠ #[] := fun hnone => h _ (.noRules hnone)
    have hcodes : DistinctCodes d.knownCode? d.terminals := by
      rcases distinctCodes_or_firstClash d.knownCode? d.terminals with hdistinct | ⟨_, _, _, hclash⟩
      · exact hdistinct
      · exact absurd (.duplicateCode hrules hclash) (h _)
    have hlefts : ∀ r ∈ d.numberedRules, ∀ e, ¬ d.LeftFault r e :=
      not_firstFault_iff.mp fun e he => h e (.left hrules hcodes he)
    have hstart : d.IsLeftSide d.startSymbol := by
      by_contra hundefined
      exact h _ (.undefinedStart hrules hcodes hlefts hundefined)
    have hrest : ∀ r ∈ d.numberedRules, ∀ e, ¬ d.RuleFault r e :=
      not_firstFault_iff.mp fun e he => h e (.rule hrules hcodes hlefts hstart he)
    have hrest' := forall_not_ruleFault_iff.mp hrest
    exact ⟨hrules, hcodes, forall_not_leftFault_iff.mp hlefts, hstart, fun r hr => (hrest' r hr).1,
      fun r hr => (hrest' r hr).2⟩

end Declarations

/-! ## The checks

  Each check reports its kind of fault.  They are put together in the order in which they are
  made. -/

/-- The check for reserved names finds them. -/
theorem isReservedName_iff {name : String} : isReservedName name = true ↔ IsReserved name := by
  simp [isReservedName, IsReserved]

namespace Alphabet

/-- A name is not found in an alphabet if no symbol has it. -/
theorem symbol?_eq_none_iff {α : Alphabet} {name : String} :
    α.symbol? name = none ↔ name ∉ α.nonterminals ∧ ∀ t ∈ α.terminals, t.name ≠ name := by
  have hterminals : α.terminals.findIdx? (·.name == name) = none
      ↔ ∀ t ∈ α.terminals, t.name ≠ name := by simp [Array.findIdx?_eq_none_iff]
  have hnonterminals : α.nonterminals.findIdx? (· == name) = none ↔ name ∉ α.nonterminals := by
    rw [Array.findIdx?_eq_none_iff]
    simp only [beq_eq_false_iff_ne]
    exact ⟨fun h hmem => h name hmem rfl, fun h a ha he => h (he ▸ ha)⟩
  rw [← hterminals, ← hnonterminals, symbol?]
  cases α.nonterminals.findIdx? (· == name) with
  | some a => simp
  | none => simp

/-- A name that is no nonterminal is found among the terminals if it is found at all. -/
theorem terminal?_of_symbol? {α : Alphabet} {name : String} (hnonterminal : name ∉ α.nonterminals) :
    α.terminal? name = none ↔ α.symbol? name = none := by
  unfold terminal?
  cases hx : α.symbol? name with
  | none => simp
  | some x =>
    cases x with
    | terminal t => simp
    | nonterminal a =>
      have hget := getElem?_of_symbol?_nonterminal hx
      exact absurd (Array.mem_of_getElem? hget) hnonterminal

end Alphabet

namespace Declarations

variable {d : Declarations}

/-- The symbols that the declarations name. -/
def symbols (d : Declarations) : Alphabet :=
  d.alphabet d.codedTerminals

/-- The nonterminals are the left sides and the added start symbol. -/
theorem mem_nonterminals_symbols {name : String} :
    name ∈ d.symbols.nonterminals ↔ name = startName ∨ d.IsLeftSide name := by
  rw [← mem_leftSides_iff]
  show name ∈ (startName :: d.leftSides).toArray ↔ _
  simp

/-- The terminals are the names that stand for one. -/
theorem exists_terminal_symbols {name : String} :
    (∃ t ∈ d.symbols.terminals, t.name = name) ↔ d.IsTerminal name := by
  rw [← mem_terminals, ← map_fst_codedTerminals]
  show (∃ t ∈ (d.codedTerminals.map fun p => d.terminal p.1 p.2).toArray, _) ↔ _
  simp only [List.mem_toArray, List.mem_map]
  constructor
  · rintro ⟨t, ⟨p, hp, rfl⟩, rfl⟩
    exact ⟨p, hp, rfl⟩
  · rintro ⟨p, hp, rfl⟩
    exact ⟨_, ⟨p, hp, rfl⟩, rfl⟩

/-- A name is not found if it is neither. -/
theorem symbol?_symbols {name : String} :
    d.symbols.symbol? name = none
      ↔ name ≠ startName ∧ ¬ d.IsLeftSide name ∧ ¬ d.IsTerminal name := by
  rw [Alphabet.symbol?_eq_none_iff, mem_nonterminals_symbols, ← exists_terminal_symbols]
  simp only [not_or, not_exists, not_and, and_assoc, ne_eq]

/-- The check of a left side finds its fault. -/
theorem leftDefect?_eq_some_iff {r : RuleDecl} {number : Nat} {e : Defect} :
    leftDefect? (d.candidates.map Vocabulary.withLiteralCode) number r = some e
      ↔ d.LeftFault (r, number) e := by
  -- the check asks the candidates, which have the names of terminals
  have hterminal : (Vocabulary.has (d.candidates.map Vocabulary.withLiteralCode) r.lhs
      || (literalChar? r.lhs).isSome) = true ↔ d.IsTerminal r.lhs ∨ IsLiteral r.lhs := by
    rw [Bool.or_eq_true, has_candidates, Option.isSome_iff_exists]
    rfl
  unfold leftDefect?
  by_cases hreserved : IsReserved r.lhs
  · rw [if_pos (isReservedName_iff.mpr hreserved)]
    constructor
    · intro h
      injection h with h
      exact h ▸ .reserved hreserved
    · intro h
      cases h with
      | reserved => rfl
      | terminal hfree => exact absurd hreserved hfree
  · rw [if_neg fun h => hreserved (isReservedName_iff.mp h)]
    by_cases hfault : d.IsTerminal r.lhs ∨ IsLiteral r.lhs
    · rw [if_pos (hterminal.mpr hfault)]
      constructor
      · intro h
        injection h with h
        exact h ▸ .terminal hreserved hfault
      · intro h
        cases h with
        | reserved h => exact absurd h hreserved
        | terminal => rfl
    · rw [if_neg fun h => hfault (hterminal.mp h)]
      constructor
      · intro h
        exact absurd h (by simp)
      · intro h
        cases h with
        | reserved h => exact absurd h hreserved
        | terminal _ h => exact absurd h hfault

/-- The search for a fault of a left side finds the first one. -/
theorem findSome?_leftDefect? {found : Option Defect}
    (h : (d.rules.zipIdx 1).findSome? (fun (r, number) =>
      leftDefect? (d.candidates.map Vocabulary.withLiteralCode) number r) = found) (e : Defect) :
    found = some e ↔ FirstFault d.LeftFault d.numberedRules e := by
  have hnone : ∀ r : RuleDecl × Nat,
      leftDefect? (d.candidates.map Vocabulary.withLiteralCode) r.2 r.1 = none
        ↔ ∀ e, ¬ d.LeftFault r e := by
    intro r
    rw [Option.eq_none_iff_forall_ne_some]
    exact forall_congr' fun e => not_congr leftDefect?_eq_some_iff
  rw [← h, ← Array.findSome?_toList, Array.toList_zipIdx, List.findSome?_eq_some_iff]
  constructor
  · rintro ⟨before, r, after, hsplit, hr, hbefore⟩
    exact ⟨before, r, after, hsplit, fun q hq => (hnone q).mp (hbefore q hq),
      leftDefect?_eq_some_iff.mp hr⟩
  · rintro ⟨before, r, after, hsplit, hbefore, hr⟩
    exact ⟨before, r, after, hsplit, leftDefect?_eq_some_iff.mpr hr,
      fun q hq => (hnone q).mpr (hbefore q hq)⟩

/-- Where all left sides are in order, none is found. -/
theorem findSome?_leftDefect?_none (hleft : ∀ r ∈ d.numberedRules, ∀ e, ¬ d.LeftFault r e) :
    ((d.rules.zipIdx 1).findSome? fun (r, number) =>
      leftDefect? (d.candidates.map Vocabulary.withLiteralCode) number r) = none := by
  rw [Option.eq_none_iff_forall_ne_some]
  intro e he
  exact not_firstFault_iff.mpr hleft e ((findSome?_leftDefect? rfl e).mp he)

/-- Looking up a name reports its fault. -/
theorem resolveName_reports (number : Nat) (name : String) :
    Reports (d.symbols.resolveName number name) (d.NameFault number name) := by
  unfold Alphabet.resolveName
  by_cases hreserved : IsReserved name
  · rw [if_pos (isReservedName_iff.mpr hreserved)]
    constructor
    · intro e he
      cases he with
      | reserved => rfl
      | undefined hfree => exact absurd hreserved hfree
    · intro hnone
      exact absurd (.reserved hreserved) (hnone _)
  · rw [if_neg fun h => hreserved (isReservedName_iff.mp h)]
    cases hx : d.symbols.symbol? name with
    | some x =>
      -- a name that denotes a symbol is defined
      have hdefined : ¬ (name ≠ startName ∧ ¬ d.IsLeftSide name ∧ ¬ d.IsTerminal name) := by
        rw [← symbol?_symbols, hx]
        exact nofun
      constructor
      · intro e he
        cases he with
        | reserved h => exact absurd h hreserved
        | undefined _ hterminal hleft =>
          exact absurd ⟨fun h => hreserved (Or.inr h), hleft, hterminal⟩ hdefined
      · intro _
        exact ⟨x, rfl⟩
    | none =>
      obtain ⟨-, hleft, hterminal⟩ := symbol?_symbols.mp hx
      constructor
      · intro e he
        cases he with
        | reserved h => exact absurd h hreserved
        | undefined => rfl
      · intro hnone
        exact absurd (.undefined hreserved hterminal hleft) (hnone _)

/-- A terminal that is neither the added start symbol nor a left side is known as a terminal. -/
theorem terminal?_symbols (hstart : ¬ d.IsTerminal startName)
    (hleft : ∀ name, d.IsLeftSide name → ¬ d.IsTerminal name) {name : String} :
    d.symbols.terminal? name = none ↔ ¬ d.IsTerminal name := by
  by_cases hterminal : d.IsTerminal name
  · have hnonterminal : name ∉ d.symbols.nonterminals := by
      rw [mem_nonterminals_symbols]
      rintro (rfl | h)
      · exact hstart hterminal
      · exact hleft name h hterminal
    rw [Alphabet.terminal?_of_symbol? hnonterminal, symbol?_symbols]
    exact ⟨fun h => h.2.2, fun h => absurd hterminal h⟩
  · refine ⟨fun _ => hterminal, fun _ => ?_⟩
    cases ht : d.symbols.terminal? name with
    | none => rfl
    | some t =>
      obtain ⟨terminal, hget, hname⟩ := Alphabet.getElem?_of_terminal? ht
      exact (hterminal (exists_terminal_symbols.mp ⟨_, Array.mem_of_getElem? hget, hname⟩)).elim

/-- Looking up the level of a rule reports its fault. -/
theorem ruleLevel_reports (hstart : ¬ d.IsTerminal startName)
    (hleft : ∀ name, d.IsLeftSide name → ¬ d.IsTerminal name) (number : Nat)
    (levelOf : Option String) (rhs : List Symbol) :
    Reports (d.symbols.ruleLevel number levelOf rhs) (d.LevelFault number levelOf) := by
  have hknown : ∀ name, d.symbols.terminal? name = none ↔ ¬ d.IsTerminal name :=
    fun name => terminal?_symbols hstart hleft
  unfold Alphabet.ruleLevel
  -- only a level that is named can have a fault: its name may be no terminal
  cases levelOf with
  | none =>
    constructor
    · rintro e ⟨hlevel, -⟩
      exact absurd hlevel (by simp)
    · intro _
      exact ⟨_, rfl⟩
  | some name =>
    dsimp only
    cases ht : d.symbols.terminal? name with
    | none =>
      have hterminal := (hknown name).mp ht
      constructor
      · rintro e ⟨hlevel, -⟩
        injection hlevel with hlevel
        subst hlevel
        rfl
      · intro hnone
        exact absurd (.undefined rfl hterminal) (hnone _)
    | some t =>
      constructor
      · rintro e ⟨hlevel, hterminal⟩
        injection hlevel with hlevel
        rw [(hknown name).mpr (hlevel ▸ hterminal)] at ht
        exact absurd ht (by simp)
      · intro _
        exact ⟨_, rfl⟩

/-- Resolving a rule reports its first fault: names from left to right, then the level. -/
theorem resolveRule_reports (hstart : ¬ d.IsTerminal startName)
    (hleft : ∀ name, d.IsLeftSide name → ¬ d.IsTerminal name) (r : RuleDecl × Nat) :
    Reports (d.symbols.resolveRule r.2 r.1) (d.RuleFault r) := by
  have hnames : Reports (r.1.rhs.mapM (d.symbols.resolveName r.2))
      (FirstFault (d.NameFault r.2) r.1.rhs) :=
    .mapM fun name _ => d.resolveName_reports r.2 name
  have hlevel := fun rhs => (ruleLevel_reports hstart hleft r.2 r.1.levelOf rhs).map fun level =>
    { lhs := d.symbols.lhs r.1.lhs, rhs, level, action := r.1.action : Rule }
  have hrule := hnames.bind fun rhs _ => hlevel rhs
  -- the faults of a rule are those of its names, and behind them that of its level
  have hfault : d.RuleFault r = fun e => FirstFault (d.NameFault r.2) r.1.rhs e
      ∨ ((∀ e, ¬ FirstFault (d.NameFault r.2) r.1.rhs e) ∧ d.LevelFault r.2 r.1.levelOf e) := by
    funext e
    rw [not_firstFault_iff]
    refine propext ⟨fun h => ?_, fun h => ?_⟩
    · cases h with
      | name h => exact Or.inl h
      | level hnone h => exact Or.inr ⟨hnone, h⟩
    · rcases h with h | ⟨hnone, h⟩
      · exact .name h
      · exact .level hnone h
  rw [hfault]
  exact hrule

/-- The checks, one inside the other. -/
theorem resolve_eq (d : Declarations) : d.resolve =
    if d.rules.isEmpty then .error .noRules
    else
      match Vocabulary.clash? [] (d.candidates.map Vocabulary.withLiteralCode) with
      | some (first, second, code) => .error (.duplicateCode first second code)
      | none =>
        match (d.rules.zipIdx 1).findSome? fun (r, number) =>
            leftDefect? (d.candidates.map Vocabulary.withLiteralCode) number r with
        | some defect => .error defect
        | none =>
          if d.leftSides.contains d.startSymbol then
            (d.rules.zipIdx 1).mapM (fun (r, number) => d.symbols.resolveRule number r)
              >>= fun rules => pure
                { alphabet := d.symbols, rules := #[d.symbols.startRule d.startSymbol] ++ rules }
          else .error (.undefinedStart d.startSymbol) := by
  unfold resolve
  -- the checks in their order; each one that fails decides
  by_cases hrules : d.rules.isEmpty = true
  · rw [if_pos hrules, if_pos hrules]
    rfl
  rw [if_neg hrules, if_neg hrules]
  cases hclash : Vocabulary.clash? [] (d.candidates.map Vocabulary.withLiteralCode) with
  | some clash =>
    simp only [hclash]
    rfl
  | none =>
    simp only [hclash]
    cases (d.rules.zipIdx 1).findSome? (fun (r, number) =>
        leftDefect? (d.candidates.map Vocabulary.withLiteralCode) number r) with
    | some defect => rfl
    | none =>
      by_cases hstart : d.leftSides.contains d.startSymbol = true
      · rw [if_pos hstart]
        simp only [hstart]
        rfl
      · rw [if_neg hstart]
        simp only [hstart]
        rfl

/-- Right sides are checked rule by rule. -/
theorem mapM_resolveRule_reports (hstart : ¬ d.IsTerminal startName)
    (hleft : ∀ r ∈ d.numberedRules, ∀ e, ¬ d.LeftFault r e) :
    Reports ((d.rules.zipIdx 1).mapM fun (r, number) => d.symbols.resolveRule number r)
      (FirstFault d.RuleFault d.numberedRules) := by
  have hlefts : ∀ name, d.IsLeftSide name → ¬ d.IsTerminal name := by
    rintro name ⟨r, hr, rfl⟩
    exact (forall_not_leftFault_iff.mp hleft r hr).2.1
  have hlist : Reports (d.numberedRules.mapM fun r => d.symbols.resolveRule r.2 r.1)
      (FirstFault d.RuleFault d.numberedRules) :=
    .mapM fun r _ => d.resolveRule_reports hstart hlefts r
  have hmap : ((d.rules.zipIdx 1).mapM fun (r, number) => d.symbols.resolveRule number r)
      = d.numberedRules.mapM (fun r => d.symbols.resolveRule r.2 r.1)
        >>= fun rules => pure rules.toArray := by
    rw [Array.mapM_eq_mapM_toList, Array.toList_zipIdx, map_eq_pure_bind]
    rfl
  rw [hmap]
  exact hlist.map _

/-- Distinct codes do not clash. -/
theorem clash?_candidates (h : DistinctCodes d.knownCode? d.terminals) :
    Vocabulary.clash? [] (d.candidates.map Vocabulary.withLiteralCode) = none := by
  rw [← d.lists_candidates.1] at h
  exact Vocabulary.clash?_of_distinct d.lists_candidates.2 h

/-- Of codes that clash, the first clash is found. -/
theorem clash?_candidates_of_firstClash {first second : String} {code : Nat}
    (h : FirstClash d.knownCode? d.terminals first second code) :
    Vocabulary.clash? [] (d.candidates.map Vocabulary.withLiteralCode)
      = some (first, second, code) := by
  rw [← d.lists_candidates.1] at h
  exact Vocabulary.clash?_of_firstClash d.lists_candidates.2 h

/-- The checks report the first defect. -/
theorem resolve_reports (hstart : ¬ d.IsTerminal startName) :
    Reports d.resolve d.FirstDefect := by
  have hisEmpty : d.rules ≠ #[] → ¬ d.rules.isEmpty = true := fun h he =>
    h (Array.isEmpty_iff.mp he)
  constructor
  · -- every check before the first defect passes
    intro e he
    rw [resolve_eq]
    cases he with
    | noRules h =>
      rw [h]
      rfl
    | duplicateCode hrules h =>
      rw [if_neg (hisEmpty hrules), clash?_candidates_of_firstClash h]
    | left hrules hcodes h =>
      rw [if_neg (hisEmpty hrules), clash?_candidates hcodes, (findSome?_leftDefect? rfl e).mpr h]
    | undefinedStart hrules hcodes hleft h =>
      rw [if_neg (hisEmpty hrules), clash?_candidates hcodes, findSome?_leftDefect?_none hleft]
      dsimp only
      rw [if_neg fun hin => h (mem_leftSides_iff.mp (List.contains_iff_mem.mp hin))]
    | rule hrules hcodes hleft hdefined h =>
      rw [if_neg (hisEmpty hrules), clash?_candidates hcodes, findSome?_leftDefect?_none hleft]
      dsimp only
      rw [if_pos (List.contains_iff_mem.mpr (mem_leftSides_iff.mpr hdefined)),
        (mapM_resolveRule_reports hstart hleft).error e h]
      rfl
  · intro hnone
    -- no check finds a defect
    have hwell := isWellFormed_iff.mpr hnone
    have hleft := forall_not_leftFault_iff.mpr hwell.left
    have hrule : ∀ e, ¬ FirstFault d.RuleFault d.numberedRules e :=
      not_firstFault_iff.mpr
        (forall_not_ruleFault_iff.mpr fun r hr => ⟨hwell.right r hr, hwell.level r hr⟩)
    obtain ⟨rules, hrules⟩ := (mapM_resolveRule_reports hstart hleft).ok hrule
    refine ⟨{ alphabet := d.symbols, rules := #[d.symbols.startRule d.startSymbol] ++ rules }, ?_⟩
    rw [resolve_eq, if_neg (hisEmpty hwell.rules), clash?_candidates hwell.codes,
      findSome?_leftDefect?_none hleft]
    dsimp only
    rw [if_pos (List.contains_iff_mem.mpr (mem_leftSides_iff.mpr hwell.start)), hrules]
    rfl

/-- The added start symbol stands for no terminal, unless a token or a level says so. -/
theorem not_isTerminal_startName (htokens : ∀ t ∈ d.tokens, t.name ≠ startName)
    (hlevels : ∀ l ∈ d.levels, startName ∉ l.names) : ¬ d.IsTerminal startName := by
  have hall : ∀ name, d.IsTerminal name → name ≠ startName := by
    intro name h
    cases h with
    | endOfInput => decide
    | error => decide
    | token ht => exact htokens _ ht
    | ranked hl hname =>
      rintro rfl
      exact hlevels _ hl hname
    | quoted _ _ hliteral =>
      rintro rfl
      obtain ⟨c, hc⟩ := hliteral
      have hnone : literalChar? startName = none := by decide
      rw [hnone] at hc
      exact absurd hc (by simp)
  exact fun h => hall _ h rfl

/-- Declarations resolve to a grammar exactly if they are well formed, and else to their first
    defect. -/
theorem resolve_iff (d : Declarations) (htokens : ∀ t ∈ d.tokens, t.name ≠ startName)
    (hlevels : ∀ l ∈ d.levels, startName ∉ l.names) :
    (∀ e, d.resolve = .error e ↔ d.FirstDefect e)
      ∧ ((∃ g, d.resolve = .ok g) ↔ d.IsWellFormed) := by
  have hreports := resolve_reports (not_isTerminal_startName htokens hlevels)
  exact ⟨hreports.error_iff, hreports.ok_iff.trans isWellFormed_iff.symm⟩

/-- A literal that a declared token has taken the code of, in a grammar whose rules have faults as
    well. -/
def doubledPlus : Declarations where
  tokens := #[⟨"id", none⟩, ⟨"PLUS", some 43⟩]
  rules := #[⟨"id", ["id", "'+'", "missing"], none, none⟩]

/-- Both halves of it: a grammar that is refused for a code that two tokens have, and one that is
    accepted. -/
theorem resolve_iff_doubledPlus :
    doubledPlus.FirstDefect (.duplicateCode "PLUS" "'+'" 43) ∧ sums.IsWellFormed := by
  have hres : sums.resolve = .ok sumsGrammar := by cbv
  constructor
  · exact ((resolve_iff doubledPlus (by decide) (by decide)).1 _).mp (by cbv)
  · exact (resolve_iff sums (by decide) (by decide)).2.mp ⟨_, hres⟩

end Declarations

end Lalr
