/-
  Grammars that come out of declarations.

  Declarations that pass every check give a grammar of a special form (`Grammar.WellFormed`): rule 0
  is the only one with `$start` on its left or with `$end` on its right, `$start` stands on no right
  side, and all symbols that the rules mention are in the alphabet.  The automaton and the parse
  table rely on this form and on nothing else about the declarations.

    1. `Resolved d g` lists what is known when the checks have passed;
    2. `Resolved.wellFormed` derives the form of the grammar from it.
-/
import Mathlib
import Lalr.Construction

namespace Lalr

/-- Does the alphabet have the symbol? -/
def Alphabet.Has (α : Alphabet) : Symbol → Prop
  | .terminal t => t < α.terminals.size
  | .nonterminal a => a < α.nonterminals.size

/-- Symbols have codes below the size of the alphabet. -/
theorem Alphabet.code_lt_size {α : Alphabet} {x : Symbol} (h : α.Has x) : α.code x < α.size := by
  cases x with
  | terminal t => exact Nat.lt_add_right _ h
  | nonterminal a => exact Nat.add_lt_add_left h _

/-- The start symbol: what rule 0 puts before the end of input. -/
def Grammar.start (g : Grammar) : Symbol :=
  (g.rule 0).rhs.headD (.nonterminal 0)

/-- The form of a grammar that comes out of declarations. -/
structure Grammar.WellFormed (g : Grammar) : Prop where
  rules_pos : 0 < g.rules.size
  lhs_zero : (g.rule 0).lhs = 0
  rhs_zero : (g.rule 0).rhs = [g.start, .terminal 0]
  start_inner : ∃ a, g.start = .nonterminal a ∧ 0 < a
  lhs_lt : ∀ {r}, r < g.rules.size → (g.rule r).lhs < g.nonterminalCount
  lhs_pos : ∀ {r}, 0 < r → r < g.rules.size → 0 < (g.rule r).lhs
  rhs_has : ∀ {r}, r < g.rules.size → ∀ x ∈ (g.rule r).rhs, g.alphabet.Has x
  rhs_inner : ∀ {r}, 0 < r → r < g.rules.size → ∀ x ∈ (g.rule r).rhs,
    x ≠ .terminal 0 ∧ x ≠ .nonterminal 0

/-- The start symbol is one of the alphabet's. -/
theorem Grammar.WellFormed.has_start {g : Grammar} (wf : g.WellFormed) :
    g.alphabet.Has g.start :=
  wf.rhs_has wf.rules_pos _ (wf.rhs_zero ▸ List.mem_cons_self)

/-! ## The left sides

  Behind the added start symbol, nonterminals are numbered in the order in which their names come
  up as left sides. -/

namespace Declarations

/-- The left sides are those of the rules. -/
theorem mem_leftSides {d : Declarations} {name : String} :
    name ∈ d.leftSides ↔ ∃ r ∈ d.rules, r.lhs = name := by
  -- from any names that were collected before
  have hfold : ∀ (rs : List RuleDecl) (names : List String),
      name ∈ rs.foldl
          (fun names r => if names.contains r.lhs then names else names ++ [r.lhs]) names ↔
        name ∈ names ∨ ∃ r ∈ rs, r.lhs = name := by
    intro rs
    induction rs with
    | nil => simp
    | cons r rs ih =>
      intro names
      rw [List.foldl_cons, ih]
      by_cases hr : names.contains r.lhs
      · rw [if_pos hr]
        have hmem : r.lhs ∈ names := by simpa using hr
        constructor
        · rintro (h | ⟨s, hs, he⟩)
          · exact Or.inl h
          · exact Or.inr ⟨s, List.mem_cons_of_mem _ hs, he⟩
        · rintro (h | ⟨s, hs, he⟩)
          · exact Or.inl h
          · rcases List.mem_cons.mp hs with rfl | hs
            · exact Or.inl (he ▸ hmem)
            · exact Or.inr ⟨s, hs, he⟩
      · rw [if_neg hr]
        simp only [List.mem_append, List.mem_cons, List.not_mem_nil, or_false]
        constructor
        · rintro ((h | h) | ⟨s, hs, he⟩)
          · exact Or.inl h
          · exact Or.inr ⟨r, Or.inl rfl, h.symm⟩
          · exact Or.inr ⟨s, Or.inr hs, he⟩
        · rintro (h | ⟨s, rfl | hs, he⟩)
          · exact Or.inl (Or.inl h)
          · exact Or.inl (Or.inr he.symm)
          · exact Or.inr ⟨s, hs, he⟩
  rw [leftSides, ← Array.foldl_toList, hfold]
  simp

/-- Each left side is listed once. -/
theorem nodup_leftSides (d : Declarations) : d.leftSides.Nodup := by
  have hfold : ∀ (rs : List RuleDecl) (names : List String), names.Nodup →
      (rs.foldl (fun names r => if names.contains r.lhs then names else names ++ [r.lhs])
        names).Nodup := by
    intro rs
    induction rs with
    | nil => exact fun _ h => h
    | cons r rs ih =>
      intro names h
      rw [List.foldl_cons]
      refine ih _ ?_
      split
      · exact h
      · rename_i hnew
        exact h.append (List.nodup_singleton _) (by simpa using hnew)
  rw [leftSides, ← Array.foldl_toList]
  exact hfold _ [] List.nodup_nil

end Declarations

/-! ## The first terminal

  The end of input is terminal 0.  It is the first candidate before anything is declared, and no
  step of collecting moves it. -/

namespace Vocabulary

/-- Is there a first candidate, and does it satisfy `P`? -/
def Heads (P : Candidate → Prop) (v : List Candidate) : Prop :=
  ∃ c, v.head? = some c ∧ P c

variable {P : Candidate → Prop} {v : List Candidate}

/-- What heads a list still does when more is added behind it. -/
theorem Heads.append (h : Heads P v) (w : List Candidate) : Heads P (v ++ w) := by
  obtain ⟨c, hc, hP⟩ := h
  refine ⟨c, ?_, hP⟩
  rw [List.head?_append, hc]
  rfl

/-- Mentioning names leaves the head in place. -/
theorem Heads.mention (h : Heads P v) (name : String) : Heads P (mention v name) := by
  unfold Vocabulary.mention
  split
  · exact h
  · exact h.append _

/-- A declaration changes at most the code of a candidate of its name. -/
theorem Heads.declare (h : Heads P v) {decl : TokenDecl}
    (hP : ∀ c, P c → c.name = decl.name → P { c with code := decl.code.or c.code }) :
    Heads P (declare v decl) := by
  unfold Vocabulary.declare
  split
  · exact h
  · split
    · obtain ⟨c, hc, hPc⟩ := h
      refine ⟨_, by rw [List.head?_map, hc]; rfl, ?_⟩
      show P (if _ then _ else _)
      split
      · rename_i hname
        exact hP c hPc (by simpa using hname)
      · exact hPc
    · exact h.append _

/-- Ranking names leaves the head in place. -/
theorem Heads.rank (h : Heads P v) (lefts : List String) (name : String) :
    Heads P (rank lefts v name) := by
  unfold Vocabulary.rank
  split
  · exact h
  · exact h.mention name

/-- Quoting literals leaves the head in place. -/
theorem Heads.quote (h : Heads P v) (name : String) : Heads P (quote v name) := by
  unfold Vocabulary.quote
  split
  · exact h.mention name
  · exact h

end Vocabulary

open Vocabulary

/-- What every step that collects names keeps, the whole list of candidates has. -/
theorem Declarations.candidates_induction (d : Declarations) {P : List Candidate → Prop}
    (builtIn : P d.builtIn) (declare : ∀ v, ∀ decl ∈ d.tokens, P v → P (declare v decl))
    (rank : ∀ v name, P v → P (rank d.leftSides v name))
    (quote : ∀ v name, P v → P (quote v name)) : P d.candidates := by
  have hdeclared : P (d.tokens.foldl Vocabulary.declare d.builtIn) := by
    rw [← Array.foldl_toList]
    exact List.foldlRecOn (motive := P) _ _ builtIn
      fun v hv decl hd => declare v decl (Array.mem_toList_iff.mp hd) hv
  have hranked : P (d.levels.foldl (fun v l => l.names.foldl (Vocabulary.rank d.leftSides) v)
      (d.tokens.foldl Vocabulary.declare d.builtIn)) := by
    rw [← Array.foldl_toList]
    refine List.foldlRecOn (motive := P) _ _ hdeclared fun v hv l _ => ?_
    exact List.foldlRecOn (motive := P) _ _ hv fun v hv name _ => rank v name hv
  show P (d.rules.foldl (fun v r => r.mentions.foldl Vocabulary.quote v) _)
  rw [← Array.foldl_toList]
  refine List.foldlRecOn (motive := P) _ _ hranked fun v hv r _ => ?_
  exact List.foldlRecOn (motive := P) _ _ hv fun v hv name _ => quote v name hv

/-- The end of input is the first candidate; of it only declarations of its name change the code. -/
theorem Declarations.heads_candidates (d : Declarations) {P : Candidate → Prop}
    (hend : P ⟨endName, some 0⟩)
    (hdeclare : ∀ decl ∈ d.tokens, ∀ c, P c → c.name = decl.name →
      P { c with code := decl.code.or c.code }) : Heads P d.candidates :=
  d.candidates_induction ⟨_, rfl, hend⟩ (fun _ decl hd h => h.declare (hdeclare decl hd))
    (fun _ name h => h.rank _ name) (fun _ name h => h.quote name)

/-- Giving codes keeps the names in their order. -/
theorem Vocabulary.map_fst_assign (taken : List Nat) (next : Nat) (v : List Candidate) :
    (assign taken next v).map (·.1) = v.map (·.name) := by
  induction v generalizing next with
  | nil => rfl
  | cons c v ih =>
    rw [assign]
    split
    · rw [List.map_cons, List.map_cons, ih]
    · rw [List.map_cons, List.map_cons, ih]

/-! ## What the checks leave

  The checks are taken apart once.  All that they establish is in `Resolved`. -/

/-- The terminals with their raw codes. -/
def Declarations.codedTerminals (d : Declarations) : List (String × Nat) :=
  let terminals := d.candidates.map withLiteralCode
  assign (terminals.filterMap (·.code)) firstFreeCode terminals

/-- What is known of declarations that are a grammar. -/
structure Resolved (d : Declarations) (g : Grammar) : Prop where
  no_clash : clash? [] (d.candidates.map withLiteralCode) = none
  left_sound : ∀ r ∈ d.rules, isReservedName r.lhs = false
  start_left : d.startSymbol ∈ d.leftSides
  alphabet_eq : g.alphabet = d.alphabet d.codedTerminals
  rules_eq : ∃ rules : List Rule, g.rules.toList = g.alphabet.startRule d.startSymbol :: rules ∧
    List.Forall₂ (fun (r : RuleDecl × Nat) rule => g.alphabet.resolveRule r.2 r.1 = .ok rule)
      (d.rules.zipIdx 1).toList rules

/-- A list that is mapped without an error is mapped member by member. -/
theorem forall₂_of_mapM_eq_ok {α β ε : Type} {f : α → Except ε β} {xs : List α} {ys : List β}
    (h : xs.mapM f = .ok ys) : List.Forall₂ (fun x y => f x = .ok y) xs ys := by
  induction xs generalizing ys with
  | nil =>
    cases h
    exact .nil
  | cons x xs ih =>
    rw [List.mapM_cons] at h
    cases hx : f x with
    | error e =>
      rw [hx] at h
      exact absurd h (by simp [bind, Except.bind])
    | ok y =>
      cases hxs : xs.mapM f with
      | error e =>
        rw [hx, hxs] at h
        exact absurd h (by simp [bind, Except.bind])
      | ok zs =>
        rw [hx, hxs] at h
        have he : Except.ok (y :: zs) = Except.ok (ε := ε) ys := h
        injection he with he
        exact he ▸ .cons hx (ih hxs)

/-- A left side without a defect is not reserved. -/
theorem Declarations.leftDefect_none {terminals : List Candidate} {number : Nat} {r : RuleDecl}
    (h : leftDefect? terminals number r = none) : isReservedName r.lhs = false := by
  unfold leftDefect? at h
  split at h
  · exact absurd h (by simp)
  · rename_i hr
    simpa using hr

/-- What `resolve` returns, said once: the terminals and nonterminals, and the rules one by one. -/
theorem Declarations.resolved {d : Declarations} {g : Grammar} (h : d.resolve = .ok g) :
    Resolved d g := by
  unfold Declarations.resolve at h
  -- each check that fails would be the result, so all have passed
  simp only [bind, Except.bind, pure, Except.pure, throw, throwThe, MonadExceptOf.throw] at h
  split at h
  · exact absurd h (by simp)
  split at h
  · exact absurd h (by simp)
  rename_i hclash
  split at h
  · exact absurd h (by simp)
  rename_i hleft
  split at h
  swap
  · exact absurd h (by simp)
  rename_i hstart
  split at h
  · exact absurd h (by simp)
  rename_i rules hrules
  injection h with h
  subst h
  refine ⟨?_, ?_, by simpa using hstart, rfl, rules.toList, by simp, ?_⟩
  · cases hc : clash? [] (d.candidates.map withLiteralCode) with
    | none => rfl
    | some c => exact (hclash _ _ _ hc).elim
  · intro r hr
    obtain ⟨i, hi, rfl⟩ := Array.mem_iff_getElem.mp hr
    have hmem : (d.rules[i], 1 + i) ∈ d.rules.zipIdx 1 :=
      Array.mk_add_mem_zipIdx_iff_getElem?.mpr (Array.getElem?_eq_getElem hi)
    have hnone : (d.rules.zipIdx 1).findSome? (fun x =>
        leftDefect? (d.candidates.map withLiteralCode) x.2 x.1) = none := by
      cases hf : (d.rules.zipIdx 1).findSome? (fun x =>
          leftDefect? (d.candidates.map withLiteralCode) x.2 x.1) with
      | none => rfl
      | some defect => exact (hleft defect hf).elim
    exact leftDefect_none (Array.findSome?_eq_none_iff.mp hnone _ hmem)
  · refine forall₂_of_mapM_eq_ok ?_
    rw [← Array.toList_mapM, hrules]
    rfl

/-! ## Names on right sides

  A name that is resolved is a symbol's.  That it is found under its name again is another
  question. -/

namespace Alphabet

/-- A nonterminal is found at a place where its name stands. -/
theorem getElem?_of_symbol?_nonterminal {α : Alphabet} {name : String} {a : Nat}
    (h : α.symbol? name = some (.nonterminal a)) : α.nonterminals[a]? = some name := by
  unfold symbol? at h
  split at h
  · rename_i b hb
    obtain ⟨hlt, heq, -⟩ := Array.findIdx?_eq_some_iff_getElem.mp hb
    injection h with h
    injection h with h
    subst h
    rw [Array.getElem?_eq_getElem hlt, beq_iff_eq.mp heq]
  · exact absurd h (by simp)

/-- A terminal is found at a place where its name stands. -/
theorem getElem?_of_symbol?_terminal {α : Alphabet} {name : String} {t : Nat}
    (h : α.symbol? name = some (.terminal t)) :
    ∃ terminal, α.terminals[t]? = some terminal ∧ terminal.name = name := by
  unfold symbol? at h
  split at h
  · exact absurd h (by simp)
  · obtain ⟨u, hu, he⟩ := Option.map_eq_some_iff.mp h
    injection he with he
    subst he
    obtain ⟨hlt, heq, -⟩ := Array.findIdx?_eq_some_iff_getElem.mp hu
    exact ⟨α.terminals[u], Array.getElem?_eq_getElem hlt, beq_iff_eq.mp heq⟩

/-- A name known as a terminal's is found where the terminal stands. -/
theorem getElem?_of_terminal? {α : Alphabet} {name : String} {t : Nat}
    (h : α.terminal? name = some t) :
    ∃ terminal, α.terminals[t]? = some terminal ∧ terminal.name = name := by
  unfold terminal? at h
  split at h
  · rename_i u hu
    injection h with h
    exact h ▸ getElem?_of_symbol?_terminal hu
  · exact absurd h (by simp)

/-- A name that is found stands for a symbol of the alphabet. -/
theorem has_of_symbol? {α : Alphabet} {name : String} {x : Symbol} (h : α.symbol? name = some x) :
    α.Has x := by
  cases x with
  | terminal t =>
    obtain ⟨_, ht, -⟩ := getElem?_of_symbol?_terminal h
    exact (Array.getElem?_eq_some_iff.mp ht).1
  | nonterminal a => exact (Array.getElem?_eq_some_iff.mp (getElem?_of_symbol?_nonterminal h)).1

/-- A name of a nonterminal denotes one. -/
theorem symbol?_of_mem {α : Alphabet} {name : String} (h : name ∈ α.nonterminals) :
    ∃ a, α.symbol? name = some (.nonterminal a) := by
  have hfound := Array.findIdx?_eq_some_of_exists (p := (· == name))
    ⟨name, h, beq_self_eq_true name⟩
  exact ⟨_, by rw [symbol?, hfound]⟩

/-- A name that was resolved is the symbol's, and it is not a reserved one. -/
theorem resolveName_eq_ok {α : Alphabet} {number : Nat} {name : String} {x : Symbol}
    (h : α.resolveName number name = .ok x) :
    isReservedName name = false ∧ α.symbol? name = some x := by
  unfold resolveName at h
  split at h
  · exact absurd h (by simp)
  · rename_i hname
    refine ⟨Bool.eq_false_of_not_eq_true hname, ?_⟩
    split at h
    · rename_i y hy
      injection h with h
      exact h ▸ hy
    · exact absurd h (by simp)

/-- A rule that was resolved has its names and its level resolved. -/
theorem resolveRule_eq_ok {α : Alphabet} {number : Nat} {decl : RuleDecl} {rule : Rule}
    (h : α.resolveRule number decl = .ok rule) : rule.lhs = α.lhs decl.lhs ∧
      List.Forall₂ (fun name x => α.resolveName number name = .ok x) decl.rhs rule.rhs ∧
      α.ruleLevel number decl.levelOf rule.rhs = .ok rule.level := by
  unfold resolveRule at h
  -- names come first, then the level
  cases hrhs : decl.rhs.mapM (α.resolveName number) with
  | error e =>
    rw [hrhs] at h
    exact absurd h (by simp [bind, Except.bind])
  | ok rhs =>
    rw [hrhs] at h
    simp only [bind, Except.bind] at h
    cases hlevel : α.ruleLevel number decl.levelOf rhs with
    | error e =>
      rw [hlevel] at h
      exact absurd h (by simp)
    | ok level =>
      rw [hlevel] at h
      injection h with h
      subst h
      exact ⟨rfl, forall₂_of_mapM_eq_ok hrhs, hlevel⟩

end Alphabet

/-! ## The form of the grammar

  The rules are rule 0 and the declared ones behind it, by their numbers. -/

namespace Resolved

variable {d : Declarations} {g : Grammar}

/-- The nonterminals are the added start symbol and the left sides. -/
theorem nonterminals_eq (h : Resolved d g) :
    g.alphabet.nonterminals = (startName :: d.leftSides).toArray := by
  rw [h.alphabet_eq]
  rfl

/-- The first terminal is the end of input. -/
theorem terminal_zero_name (h : Resolved d g) :
    ∃ terminal, g.alphabet.terminals[0]? = some terminal ∧ terminal.name = endName := by
  obtain ⟨first, hfirst, hname⟩ := d.heads_candidates (P := (·.name = endName)) rfl
    fun _ _ _ hc _ => hc
  have hnames : (d.codedTerminals.map (·.1)) = d.candidates.map (·.name) := by
    rw [Declarations.codedTerminals, map_fst_assign, List.map_map]
    rfl
  cases hc : d.candidates with
  | nil => simp [hc] at hfirst
  | cons c v =>
    cases ht : d.codedTerminals with
    | nil => simp [hc, ht] at hnames
    | cons p w =>
      rw [hc, ht, List.map_cons, List.map_cons] at hnames
      have hp : p.1 = c.name := (List.cons.inj hnames).1
      have hhead : c = first := by simpa [hc] using hfirst
      refine ⟨d.terminal p.1 p.2, ?_, hp.trans (hhead ▸ hname)⟩
      rw [h.alphabet_eq, ht]
      rfl

/-- There is a terminal: the end of input. -/
theorem terminals_pos (h : Resolved d g) : 0 < g.terminalCount := by
  obtain ⟨_, h0, -⟩ := h.terminal_zero_name
  exact (Array.getElem?_eq_some_iff.mp h0).1

/-- A name on a right side is neither the end of input nor the added start symbol. -/
theorem resolveName_inner (h : Resolved d g) {number : Nat} {name : String} {x : Symbol}
    (hx : g.alphabet.resolveName number name = .ok x) :
    g.alphabet.Has x ∧ x ≠ .terminal 0 ∧ x ≠ .nonterminal 0 := by
  obtain ⟨hname, hy⟩ := Alphabet.resolveName_eq_ok hx
  refine ⟨Alphabet.has_of_symbol? hy, ?_, ?_⟩
  · rintro rfl
    obtain ⟨terminal, h1, h2⟩ := Alphabet.getElem?_of_symbol?_terminal hy
    obtain ⟨terminal', h3, h4⟩ := h.terminal_zero_name
    rw [h1] at h3
    injection h3 with h3
    rw [← h2, h3, h4] at hname
    exact absurd hname (by decide)
  · rintro rfl
    have h1 := Alphabet.getElem?_of_symbol?_nonterminal hy
    rw [h.nonterminals_eq] at h1
    injection h1 with h1
    have hstart : name = startName := h1.symm
    rw [hstart] at hname
    exact absurd hname (by decide)

/-- A left side is a nonterminal other than the added start symbol. -/
theorem lhs_inner (h : Resolved d g) {name : String} (hn : name ∈ d.leftSides) :
    0 < g.alphabet.lhs name ∧ g.alphabet.lhs name < g.nonterminalCount := by
  have hmem : name ∈ g.alphabet.nonterminals := by
    rw [h.nonterminals_eq]
    simp [hn]
  obtain ⟨a, ha⟩ := Alphabet.symbol?_of_mem hmem
  have hlhs : g.alphabet.lhs name = a := by rw [Alphabet.lhs, ha]
  have hget := Alphabet.getElem?_of_symbol?_nonterminal ha
  rw [hlhs]
  refine ⟨Nat.pos_of_ne_zero ?_, (Array.getElem?_eq_some_iff.mp hget).1⟩
  rintro rfl
  rw [h.nonterminals_eq] at hget
  injection hget with hget
  obtain ⟨r, hr, he⟩ := Declarations.mem_leftSides.mp hn
  have hname : startName = name := hget
  have hres := h.left_sound r hr
  rw [he, ← hname] at hres
  exact absurd hres (by decide)

/-- A declared rule: its left side is inner, and so is every symbol of its right side. -/
theorem rule_inner (h : Resolved d g) {number : Nat} {decl : RuleDecl} {rule : Rule}
    (hd : decl ∈ d.rules) (hr : g.alphabet.resolveRule number decl = .ok rule) :
    (0 < rule.lhs ∧ rule.lhs < g.nonterminalCount) ∧
      ∀ x ∈ rule.rhs, g.alphabet.Has x ∧ x ≠ .terminal 0 ∧ x ≠ .nonterminal 0 := by
  obtain ⟨hlhs, hrhs, -⟩ := Alphabet.resolveRule_eq_ok hr
  refine ⟨hlhs ▸ h.lhs_inner (Declarations.mem_leftSides.mpr ⟨decl, hd, rfl⟩), fun x hx => ?_⟩
  obtain ⟨i, hi, rfl⟩ := List.mem_iff_getElem.mp hx
  exact h.resolveName_inner (hrhs.get (hrhs.length_eq ▸ hi) hi)

/-- The rule of a number is the declared one, resolved. -/
theorem rule_succ (h : Resolved d g) {i : Nat} {decl : RuleDecl} (hdecl : d.rules[i]? = some decl) :
    g.alphabet.resolveRule (i + 1) decl = .ok (g.rule (i + 1)) := by
  obtain ⟨rules, hlist, hall⟩ := h.rules_eq
  obtain ⟨hi, rfl⟩ := Array.getElem?_eq_some_iff.mp hdecl
  have hi' : i < (d.rules.zipIdx 1).toList.length := by simpa using hi
  have hi'' : i < rules.length := by rw [← hall.length_eq]; exact hi'
  have hrule : g.rule (i + 1) = rules[i] := by
    rw [Grammar.rule, Array.getD_eq_getD_getElem?, ← Array.getElem?_toList, hlist,
      List.getElem?_cons_succ, List.getElem?_eq_getElem hi'']
    rfl
  have hget := hall.get hi' hi''
  have hpair : (d.rules.zipIdx 1).toList.get ⟨i, hi'⟩ = (d.rules[i], 1 + i) := by simp
  rw [hpair] at hget
  rw [hrule, Nat.add_comm]
  exact hget

/-- Rule 0 is the added one. -/
theorem rule_zero (h : Resolved d g) :
    g.rule 0 = g.alphabet.startRule d.startSymbol ∧ 0 < g.rules.size := by
  obtain ⟨rules, hlist, -⟩ := h.rules_eq
  constructor
  · rw [Grammar.rule, Array.getD_eq_getD_getElem?, ← Array.getElem?_toList, hlist]
    rfl
  · rw [← Array.length_toList, hlist]
    exact Nat.succ_pos _

/-- The declared rules come behind it. -/
theorem size_rules (h : Resolved d g) : g.rules.size = d.rules.size + 1 := by
  obtain ⟨rules, hrules, hall⟩ := h.rules_eq
  have hlength := hall.length_eq
  have hsize := congrArg List.length hrules
  rw [Array.length_toList, Array.size_zipIdx] at hlength
  rw [Array.length_toList, List.length_cons, ← hlength] at hsize
  exact hsize

/-- Every rule but the first comes from a declaration. -/
theorem rule_of_pos (h : Resolved d g) {r : Nat} (hpos : 0 < r) (hr : r < g.rules.size) :
    ∃ decl ∈ d.rules, g.alphabet.resolveRule r decl = .ok (g.rule r) := by
  obtain ⟨i, rfl⟩ := Nat.exists_eq_succ_of_ne_zero (Nat.pos_iff_ne_zero.mp hpos)
  have hi : i < d.rules.size := by
    rw [h.size_rules] at hr
    omega
  exact ⟨d.rules[i], Array.getElem_mem hi, h.rule_succ (Array.getElem?_eq_getElem hi)⟩

/-- The start symbol is the one that was declared. -/
theorem start_eq (h : Resolved d g) : g.start = .nonterminal (g.alphabet.lhs d.startSymbol) := by
  rw [Grammar.start, h.rule_zero.1]
  rfl

/-- So the rules are made of the grammar's symbols, and the added start symbol stands in no right
    side. -/
theorem wellFormed (h : Resolved d g) : g.WellFormed where
  rules_pos := h.rule_zero.2
  lhs_zero := by
    rw [h.rule_zero.1]
    rfl
  rhs_zero := by
    rw [h.start_eq, h.rule_zero.1]
    rfl
  start_inner := ⟨_, h.start_eq, (h.lhs_inner h.start_left).1⟩
  lhs_lt := by
    intro r hr
    -- the added rule is known, all others are declared
    rcases Nat.eq_zero_or_pos r with rfl | hpos
    · rw [h.rule_zero.1]
      have := h.lhs_inner h.start_left
      exact Nat.lt_of_le_of_lt (Nat.zero_le _) this.2
    · obtain ⟨decl, hd, hrule⟩ := h.rule_of_pos hpos hr
      exact (h.rule_inner hd hrule).1.2
  lhs_pos := by
    intro r hpos hr
    obtain ⟨decl, hd, hrule⟩ := h.rule_of_pos hpos hr
    exact (h.rule_inner hd hrule).1.1
  rhs_has := by
    intro r hr x hx
    rcases Nat.eq_zero_or_pos r with rfl | hpos
    · rw [h.rule_zero.1] at hx
      rcases List.mem_cons.mp hx with rfl | hx
      · exact (h.lhs_inner h.start_left).2
      · rw [List.mem_singleton.mp hx]
        exact h.terminals_pos
    · obtain ⟨decl, hd, hrule⟩ := h.rule_of_pos hpos hr
      exact ((h.rule_inner hd hrule).2 x hx).1
  rhs_inner := by
    intro r hpos hr x hx
    obtain ⟨decl, hd, hrule⟩ := h.rule_of_pos hpos hr
    exact ((h.rule_inner hd hrule).2 x hx).2

end Resolved

/-! ## Rules by left side

  The rules of a nonterminal are collected in the order of their numbers. -/

/-- The rules by their numbers. -/
theorem Grammar.toList_rules (g : Grammar) :
    g.rules.toList = (List.range g.rules.size).map g.rule := by
  apply List.ext_getElem
  · simp
  · intro i h1 h2
    simp only [Array.length_toList] at h1
    simp [Grammar.rule, h1]

/-- The rules of a nonterminal are those with it on the left. -/
theorem Grammar.mem_rulesOf {g : Grammar} {a r : Nat} (ha : a < g.nonterminalCount) :
    r ∈ g.rulesOf a ↔ r < g.rules.size ∧ (g.rule r).lhs = a := by
  rw [Grammar.rulesOf, g.alternatives_eq, Rule.groupByLhs, Array.getD_eq_getD_getElem?,
    Array.getElem?_map, Array.getElem?_range,
    if_pos (show a < g.alphabet.nonterminals.size from ha)]
  simp only [Option.map_some, Option.getD_some, List.mem_filter, List.mem_range, Grammar.rule,
    Array.getD_eq_getD_getElem?]
  constructor
  · rintro ⟨hr, he⟩
    rw [Array.getElem?_eq_getElem hr] at he ⊢
    exact ⟨hr, by simpa using he⟩
  · rintro ⟨hr, he⟩
    rw [Array.getElem?_eq_getElem hr] at he ⊢
    exact ⟨hr, by simpa using he⟩

/-- Each rule of a nonterminal is listed once. -/
theorem Grammar.nodup_rulesOf (g : Grammar) (a : Nat) : (g.rulesOf a).Nodup := by
  rw [Grammar.rulesOf, g.alternatives_eq, Rule.groupByLhs, Array.getD_eq_getD_getElem?,
    Array.getElem?_map]
  by_cases ha : a < g.alphabet.nonterminals.size
  · rw [Array.getElem?_range, if_pos ha]
    exact List.Nodup.filter _ List.nodup_range
  · rw [Array.getElem?_range, if_neg ha]
    exact List.nodup_nil

end Lalr
