/-
  Symbols and their names.

  A name denotes a nonterminal if there is one of that name, and else a terminal
  (`Alphabet.symbol?`).  The names of terminals and those of nonterminals are collected apart, and
  nothing is looked up while they are.  That they are names of different symbols rests on the
  checks:

    1. within each kind a name is collected once (`nodup_leftSides`, `Resolved.nodup_names`);
    2. no left side is a terminal (`IsWellFormed.left`), so the kinds share no left side;
    3. what is left is `$start`.  No rule may use it, but a token or a precedence level may be
       called so (`Declarations.DeclaresStart`).  Then a terminal has the name of the added start
       symbol, and the name denotes the latter.

  So names and symbols correspond one to one exactly if `$start` is not declared
  (`Declarations.isRegistry_iff`).
-/
import Mathlib
import Lalr.Proofs.Validation

namespace Lalr

namespace Alphabet

variable {α : Alphabet} {x : Symbol} {name : String}

/-- Names and symbols correspond: different symbols have different names, and each is found under
    its own. -/
structure IsRegistry (α : Alphabet) : Prop where
  name_injective : ∀ x y, α.Has x → α.Has y → α.name x = α.name y → x = y
  symbol?_name : ∀ x, α.Has x → α.symbol? (α.name x) = some x

/-! ## Numbers of symbols

  Terminals have the numbers below their count, and nonterminals come behind them. -/

/-- The terminals have the numbers below their count. -/
theorem code_lt_terminals_iff (h : α.Has x) :
    α.code x < α.terminals.size ↔ ∃ t, x = .terminal t := by
  cases x with
  | terminal t => exact iff_of_true h ⟨t, rfl⟩
  | nonterminal a =>
    refine iff_of_false (Nat.not_lt.mpr (Nat.le_add_right _ _)) ?_
    rintro ⟨t, ht⟩
    exact absurd ht (by simp)

/-- Each number is that of one symbol. -/
theorem existsUnique_code {i : Nat} (hi : i < α.size) : ∃! x, α.Has x ∧ α.code x = i := by
  by_cases hlt : i < α.terminals.size
  · refine ⟨.terminal i, ⟨hlt, rfl⟩, ?_⟩
    rintro y ⟨hy, hcode⟩
    obtain ⟨t, rfl⟩ := (code_lt_terminals_iff hy).mp (hcode ▸ hlt)
    exact congrArg _ hcode
  · have hle := Nat.le_of_not_lt hlt
    refine ⟨.nonterminal (i - α.terminals.size),
      ⟨Nat.sub_lt_left_of_lt_add hle hi, Nat.add_sub_cancel' hle⟩, ?_⟩
    rintro y ⟨hy, hcode⟩
    cases y with
    | terminal t => exact absurd (lt_of_eq_of_lt hcode.symm hy) hlt
    | nonterminal a => exact congrArg _ (Nat.eq_sub_of_add_eq' hcode)

/-! ## Looking a name up

  A look-up asks the nonterminals first.  So a terminal is found only if no nonterminal has its
  name. -/

/-- What a name denotes has that name. -/
theorem name_of_symbol? (h : α.symbol? name = some x) : α.name x = name := by
  cases x with
  | terminal t =>
    obtain ⟨terminal, ht, rfl⟩ := getElem?_of_symbol?_terminal h
    rw [Alphabet.name, terminalName, ht]
    rfl
  | nonterminal a =>
    rw [Alphabet.name, nonterminalName, Array.getD_eq_getD_getElem?,
      getElem?_of_symbol?_nonterminal h]
    rfl

theorem nonterminalName_mem {a : Nat} (ha : a < α.nonterminals.size) :
    α.nonterminalName a ∈ α.nonterminals := by
  rw [nonterminalName, Array.getD_eq_getD_getElem?, Array.getElem?_eq_getElem ha]
  exact Array.getElem_mem ha

theorem exists_terminal_name {t : Nat} (ht : t < α.terminals.size) :
    ∃ terminal ∈ α.terminals, terminal.name = α.terminalName t := by
  refine ⟨α.terminals[t], Array.getElem_mem ht, ?_⟩
  rw [terminalName, Array.getElem?_eq_getElem ht]
  rfl

/-- A nonterminal is found under its name if nonterminals differ in their names. -/
theorem symbol?_nonterminalName (hnodup : α.nonterminals.toList.Nodup) {a : Nat}
    (ha : a < α.nonterminals.size) :
    α.symbol? (α.nonterminalName a) = some (.nonterminal a) := by
  obtain ⟨b, hb⟩ := symbol?_of_mem (nonterminalName_mem ha)
  have hget : α.nonterminals[a]? = α.nonterminals[b]? := by
    rw [getElem?_of_symbol?_nonterminal hb, nonterminalName, Array.getD_eq_getD_getElem?,
      Array.getElem?_eq_getElem ha]
    rfl
  rw [← Array.getElem?_toList, ← Array.getElem?_toList] at hget
  rw [hb, (List.getElem?_inj (by simpa using ha) hnodup).mp hget]

/-- A name that is no nonterminal's but a terminal's denotes a terminal. -/
theorem symbol?_of_terminal (hnot : name ∉ α.nonterminals)
    (hterminal : ∃ t ∈ α.terminals, t.name = name) :
    ∃ t, α.symbol? name = some (.terminal t) := by
  cases hx : α.symbol? name with
  | none =>
    obtain ⟨t, ht, hname⟩ := hterminal
    exact absurd hname ((symbol?_eq_none_iff.mp hx).2 t ht)
  | some x =>
    cases x with
    | terminal t => exact ⟨t, rfl⟩
    | nonterminal a =>
      exact absurd (Array.mem_of_getElem? (getElem?_of_symbol?_nonterminal hx)) hnot

/-- Of a rule that was resolved, every name on the right side was. -/
theorem resolveName_of_mem {number : Nat} {decl : RuleDecl} {rule : Rule}
    (h : α.resolveRule number decl = .ok rule) (hname : name ∈ decl.rhs) :
    ∃ x, α.resolveName number name = .ok x := by
  obtain ⟨-, hall, -⟩ := resolveRule_eq_ok h
  obtain ⟨i, hi, rfl⟩ := List.mem_iff_getElem.mp hname
  exact ⟨_, hall.get hi (hall.length_eq ▸ hi)⟩

/-- Of a rule that was resolved, what lends it its precedence is a terminal. -/
theorem levelOf_of_resolveRule {number : Nat} {decl : RuleDecl} {rule : Rule}
    (h : α.resolveRule number decl = .ok rule) (hlevel : decl.levelOf = some name) :
    ∃ t, α.terminal? name = some t := by
  obtain ⟨-, -, hresolved⟩ := resolveRule_eq_ok h
  cases ht : α.terminal? name with
  | none =>
    rw [hlevel, ruleLevel, ht] at hresolved
    exact absurd hresolved (by simp)
  | some t => exact ⟨t, rfl⟩

end Alphabet

namespace Declarations

variable {d : Declarations} {g : Grammar}

/-- A token or a precedence level is called like the added start symbol. -/
def DeclaresStart (d : Declarations) : Prop :=
  (∃ t ∈ d.tokens, t.name = startName) ∨ ∃ l ∈ d.levels, startName ∈ l.names

/-- Is the name one of the grammar's: one that declarations mention, a left side, or the start
    symbol that was chosen? -/
def IsName (d : Declarations) (name : String) : Prop :=
  d.Mentions name ∨ d.IsLeftSide name ∨ d.start = some name

/-! ## Accepted declarations

  The checks refuse `$start` on left sides and in rules only.  So a token or a level may have
  that name. -/

section

variable {number : Nat} {name : String} {x : Symbol}

/-- A name that was resolved is not reserved. -/
theorem not_isReserved_of_resolveName (h : d.symbols.resolveName number name = .ok x) :
    ¬ IsReserved name := by
  intro hreserved
  have hfree := (Alphabet.resolveName_eq_ok h).1
  rw [isReservedName_iff.mpr hreserved] at hfree
  exact absurd hfree (by decide)

/-- A name that was resolved means something. -/
theorem isTerminal_or_isLeftSide_of_resolveName (h : d.symbols.resolveName number name = .ok x) :
    d.IsTerminal name ∨ d.IsLeftSide name := by
  by_contra hnone
  have hundefined : d.symbols.symbol? name = none :=
    symbol?_symbols.mpr ⟨fun he => not_isReserved_of_resolveName h (Or.inr he),
      fun hleft => hnone (Or.inr hleft), fun hterminal => hnone (Or.inl hterminal)⟩
  rw [(Alphabet.resolveName_eq_ok h).2] at hundefined
  exact absurd hundefined (by simp)

end

/-- Accepted declarations are well formed, whatever is called `$start`. -/
theorem isWellFormed_of_resolve (h : d.resolve = .ok g) : d.IsWellFormed := by
  have hres := resolved h
  have hdecl : ∀ r ∈ d.rules, ∃ number rule, d.symbols.resolveRule number r = .ok rule := by
    intro r hr
    obtain ⟨i, hi, rfl⟩ := Array.mem_iff_getElem.mp hr
    have hrule := hres.rule_succ (Array.getElem?_eq_getElem hi)
    rw [hres.alphabet_eq] at hrule
    exact ⟨_, _, hrule⟩
  -- the left sides are checked before the rules are resolved
  have hleft : ∀ r ∈ d.numberedRules, ∀ e, ¬ d.LeftFault r e := by
    rw [resolve_eq] at h
    split at h
    · exact absurd h (by simp)
    · split at h
      · exact absurd h (by simp)
      · split at h
        · exact absurd h (by simp)
        · rename_i hnone
          exact not_firstFault_iff.mp fun e he =>
            absurd ((findSome?_leftDefect? hnone e).mpr he) (by simp)
  refine ⟨?_, ?_, forall_not_leftFault_iff.mp hleft, mem_leftSides_iff.mp hres.start_left, ?_, ?_⟩
  · rintro hempty
    have hstart := mem_leftSides.mp hres.start_left
    simp [hempty] at hstart
  · rcases distinctCodes_or_firstClash d.knownCode? d.terminals with hdistinct | ⟨_, _, _, hclash⟩
    · exact hdistinct
    · have hnone := hres.no_clash
      rw [clash?_candidates_of_firstClash hclash] at hnone
      exact absurd hnone (by simp)
  · intro r hr name hname
    obtain ⟨number, rule, hrule⟩ := hdecl r hr
    obtain ⟨x, hx⟩ := Alphabet.resolveName_of_mem hrule hname
    exact ⟨not_isReserved_of_resolveName hx, isTerminal_or_isLeftSide_of_resolveName hx⟩
  · intro r hr name hlevel
    obtain ⟨number, rule, hrule⟩ := hdecl r hr
    obtain ⟨t, ht⟩ := Alphabet.levelOf_of_resolveRule hrule hlevel
    obtain ⟨terminal, hget, hname⟩ := Alphabet.getElem?_of_terminal? ht
    exact exists_terminal_symbols.mp ⟨_, Array.mem_of_getElem? hget, hname⟩

/-- Every name of well-formed declarations is that of a terminal or a left side. -/
theorem IsWellFormed.isTerminal_or_isLeftSide (h : d.IsWellFormed) {name : String}
    (hname : d.IsName name) : d.IsTerminal name ∨ d.IsLeftSide name := by
  by_cases hleft : d.IsLeftSide name
  · exact Or.inr hleft
  refine Or.inl ?_
  rcases hname with (⟨t, ht, rfl⟩ | ⟨l, hl, hname⟩ | ⟨r, hr, hname⟩) | hleft' | hstart
  · exact .token ht
  · exact .ranked hl hname hleft
  · rcases List.mem_append.mp hname with hrhs | hlevel
    · exact (h.right r hr name hrhs).2.resolve_right hleft
    · exact h.level r hr name (Option.mem_toList.mp hlevel)
  · exact absurd hleft' hleft
  · have hchosen := h.start
    rw [startSymbol, hstart] at hchosen
    exact absurd hchosen hleft

/-- `$start` is a terminal exactly if it is declared. -/
theorem IsWellFormed.isTerminal_startName_iff (h : d.IsWellFormed) :
    d.IsTerminal startName ↔ d.DeclaresStart := by
  constructor
  · intro hterminal
    by_contra hnone
    refine not_isTerminal_startName (fun t ht he => hnone (Or.inl ⟨t, ht, he⟩))
      (fun l hl hname => hnone (Or.inr ⟨l, hl, hname⟩)) hterminal
  · rintro (⟨t, ht, hname⟩ | ⟨l, hl, hname⟩)
    · exact hname ▸ .token ht
    · refine .ranked hl hname ?_
      rintro ⟨r, hr, hlhs⟩
      exact (h.left r hr).1 (Or.inr hlhs)

/-! ## The symbols of accepted declarations

  From names to symbols and back.  The two cases differ in whether some terminal is called
  `$start`. -/

section

variable (h : d.resolve = .ok g)
include h

/-- The alphabet of the grammar is that of the declarations. -/
theorem alphabet_of_resolve : g.alphabet = d.symbols :=
  (resolved h).alphabet_eq

/-- Nonterminals differ in their names. -/
theorem nodup_nonterminals : g.alphabet.nonterminals.toList.Nodup := by
  rw [(resolved h).nonterminals_eq, List.toList_toArray, List.nodup_cons]
  refine ⟨fun hmem => ?_, d.nodup_leftSides⟩
  obtain ⟨r, hr, hlhs⟩ := mem_leftSides.mp hmem
  exact ((isWellFormed_of_resolve h).left r hr).1 (Or.inr hlhs)

/-- The added start symbol is found under its name. -/
theorem symbol?_startName : g.alphabet.symbol? startName = some (.nonterminal 0) := by
  have hname : g.alphabet.nonterminalName 0 = startName := by
    rw [Alphabet.nonterminalName, (resolved h).nonterminals_eq]
    rfl
  rw [← hname]
  refine Alphabet.symbol?_nonterminalName (nodup_nonterminals h) ?_
  rw [(resolved h).nonterminals_eq]
  exact Nat.succ_pos _

/-- A left side denotes a nonterminal, which is not the added start symbol. -/
theorem symbol?_of_isLeftSide {name : String} (hleft : d.IsLeftSide name) :
    ∃ a, 0 < a ∧ g.alphabet.symbol? name = some (.nonterminal a) := by
  have hmem : name ∈ g.alphabet.nonterminals := by
    rw [alphabet_of_resolve h, mem_nonterminals_symbols]
    exact Or.inr hleft
  obtain ⟨a, ha⟩ := Alphabet.symbol?_of_mem hmem
  have hpos := ((resolved h).lhs_inner (mem_leftSides_iff.mpr hleft)).1
  rw [Alphabet.lhs, ha] at hpos
  exact ⟨a, hpos, ha⟩

/-- A terminal that is not called `$start` denotes a terminal. -/
theorem symbol?_of_isTerminal {name : String} (hterminal : d.IsTerminal name)
    (hname : name ≠ startName) : ∃ t, g.alphabet.symbol? name = some (.terminal t) := by
  rw [alphabet_of_resolve h]
  refine Alphabet.symbol?_of_terminal ?_ (exists_terminal_symbols.mpr hterminal)
  rw [mem_nonterminals_symbols]
  rintro (heq | ⟨r, hr, rfl⟩)
  · exact hname heq
  · exact ((isWellFormed_of_resolve h).left r hr).2.1 hterminal

/-- A symbol is found under its name, but for a terminal called `$start`. -/
theorem symbol?_name {x : Symbol} (hx : g.alphabet.Has x) :
    g.alphabet.symbol? (g.alphabet.name x) =
      some (if g.alphabet.name x = startName then .nonterminal 0 else x) := by
  split
  · rename_i hstart
    rw [hstart, symbol?_startName h]
  · rename_i hstart
    cases x with
    | nonterminal a => exact Alphabet.symbol?_nonterminalName (nodup_nonterminals h) hx
    | terminal t =>
      have hterminal : d.IsTerminal (g.alphabet.terminalName t) := by
        rw [← exists_terminal_symbols, ← alphabet_of_resolve h]
        exact Alphabet.exists_terminal_name hx
      obtain ⟨u, hu⟩ := symbol?_of_isTerminal h hterminal hstart
      have hlt : u < g.terminalCount := Alphabet.has_of_symbol? hu
      have hsame := (resolved h).terminalName_injective hlt hx (Alphabet.name_of_symbol? hu)
      exact hsame ▸ hu

/-- A terminal is called `$start` exactly if it is declared. -/
theorem exists_terminalName_startName :
    (∃ t < g.terminalCount, g.alphabet.terminalName t = startName) ↔ d.DeclaresStart := by
  rw [← (isWellFormed_of_resolve h).isTerminal_startName_iff, ← exists_terminal_symbols,
    ← alphabet_of_resolve h]
  constructor
  · rintro ⟨t, ht, hname⟩
    exact hname ▸ Alphabet.exists_terminal_name ht
  · rintro ⟨terminal, hmem, hname⟩
    obtain ⟨t, ht, rfl⟩ := Array.mem_iff_getElem.mp hmem
    refine ⟨t, ht, ?_⟩
    rw [Alphabet.terminalName, Array.getElem?_eq_getElem ht, ← hname]
    rfl

/-- Names and symbols correspond if `$start` is not declared: the one symbol called so is then the
    added start symbol. -/
theorem isRegistry_of_not_declaresStart (hnot : ¬ d.DeclaresStart) : g.alphabet.IsRegistry := by
  have hfound : ∀ x, g.alphabet.Has x → g.alphabet.symbol? (g.alphabet.name x) = some x := by
    intro x hx
    rw [symbol?_name h hx]
    split
    · rename_i hstart
      cases x with
      | nonterminal a =>
        have ha := Alphabet.symbol?_nonterminalName (nodup_nonterminals h) hx
        rw [show g.alphabet.nonterminalName a = startName from hstart, symbol?_startName h] at ha
        exact ha
      | terminal t => exact absurd ((exists_terminalName_startName h).mp ⟨t, hx, hstart⟩) hnot
    · rfl
  refine ⟨fun x y hx hy hname => ?_, hfound⟩
  exact Option.some_inj.mp ((hfound x hx).symm.trans (hname ▸ hfound y hy))

/-- Every name of the grammar denotes a symbol. -/
theorem exists_symbol_of_isName {name : String} (hname : d.IsName name) :
    ∃ x, g.alphabet.symbol? name = some x := by
  by_cases hstart : name = startName
  · exact ⟨_, hstart ▸ symbol?_startName h⟩
  · rcases (isWellFormed_of_resolve h).isTerminal_or_isLeftSide hname with hterminal | hleft
    · obtain ⟨t, ht⟩ := symbol?_of_isTerminal h hterminal hstart
      exact ⟨_, ht⟩
    · obtain ⟨a, -, ha⟩ := symbol?_of_isLeftSide h hleft
      exact ⟨_, ha⟩

/-- A rule is made of what its names denote. -/
theorem rule_denoted {i : Nat} {r : RuleDecl} (hr : d.rules[i]? = some r) :
    0 < (g.rule (i + 1)).lhs ∧
      g.alphabet.symbol? r.lhs = some (.nonterminal (g.rule (i + 1)).lhs) ∧
      List.Forall₂ (fun name x => g.alphabet.symbol? name = some x) r.rhs
        (g.rule (i + 1)).rhs := by
  obtain ⟨hlhs, hrhs, -⟩ := Alphabet.resolveRule_eq_ok ((resolved h).rule_succ hr)
  obtain ⟨a, hpos, ha⟩ := symbol?_of_isLeftSide h ⟨r, Array.mem_of_getElem? hr, rfl⟩
  have hlhs' : (g.rule (i + 1)).lhs = a := by rw [hlhs, Alphabet.lhs, ha]
  exact ⟨hlhs' ▸ hpos, hlhs' ▸ ha, hrhs.imp fun _ _ hname => (Alphabet.resolveName_eq_ok hname).2⟩

end

/-- The symbols of accepted declarations are numbered without gaps, terminals first.  Every name of
    the grammar denotes one of them, and `$start` the added start symbol.  A symbol is found under
    its name, but for a terminal called `$start`, so names and symbols correspond exactly if
    `$start` is not declared.  A rule is made of what its names denote. -/
theorem isRegistry_iff (h : d.resolve = .ok g) :
    (g.alphabet.IsRegistry ↔ ¬ d.DeclaresStart) ∧
    (∀ x, g.alphabet.Has x → g.alphabet.symbol? (g.alphabet.name x) =
      some (if g.alphabet.name x = startName then .nonterminal 0 else x)) ∧
    g.alphabet.symbol? startName = some (.nonterminal 0) ∧
    (∀ name, d.IsName name →
      ∃ x, g.alphabet.symbol? name = some x ∧ g.alphabet.Has x ∧ g.alphabet.name x = name) ∧
    (∀ x, g.alphabet.Has x → g.alphabet.code x < g.alphabet.size ∧
      (g.alphabet.code x < g.terminalCount ↔ ∃ t, x = .terminal t)) ∧
    (∀ i < g.alphabet.size, ∃! x, g.alphabet.Has x ∧ g.alphabet.code x = i) ∧
    (∀ i r, d.rules[i]? = some r → ∃ rule, g.rules[i + 1]? = some rule ∧ 0 < rule.lhs ∧
      g.alphabet.symbol? r.lhs = some (.nonterminal rule.lhs) ∧
      List.Forall₂ (fun name x => g.alphabet.symbol? name = some x) r.rhs rule.rhs) := by
  refine ⟨⟨fun hreg hdeclares => ?_, isRegistry_of_not_declaresStart h⟩,
    fun x hx => symbol?_name h hx, symbol?_startName h, fun name hname => ?_,
    fun x hx => ⟨Alphabet.code_lt_size hx, Alphabet.code_lt_terminals_iff hx⟩,
    fun i hi => Alphabet.existsUnique_code hi, fun i r hr => ?_⟩
  -- a terminal of that name is not found under it: the start symbol is
  · obtain ⟨t, ht, hname⟩ := (exists_terminalName_startName h).mpr hdeclares
    have hfound := hreg.symbol?_name (.terminal t) ht
    rw [Alphabet.name, hname, symbol?_startName h] at hfound
    exact absurd hfound (by simp)
  · obtain ⟨x, hx⟩ := exists_symbol_of_isName h hname
    exact ⟨x, hx, Alphabet.has_of_symbol? hx, Alphabet.name_of_symbol? hx⟩
  · have hlt : i + 1 < g.rules.size := by
      rw [(resolved h).size_rules]
      exact Nat.succ_lt_succ (Array.getElem?_eq_some_iff.mp hr).1
    refine ⟨g.rule (i + 1), ?_, rule_denoted h hr⟩
    rw [Grammar.rule, Array.getD_eq_getD_getElem?, Array.getElem?_eq_getElem hlt]
    rfl

/-- The theorem for sums, where names and symbols correspond. -/
theorem isRegistry_iff_sums : sums.resolve = .ok sumsGrammar ∧ sumsGrammar.alphabet.IsRegistry := by
  have hres : sums.resolve = .ok sumsGrammar := by cbv
  refine ⟨hres, (isRegistry_iff hres).1.mpr ?_⟩
  rintro (⟨t, ht, hname⟩ | ⟨l, hl, -⟩)
  · obtain rfl : t = ⟨"id", none⟩ := by simpa [sums] using ht
    exact absurd hname (by decide)
  · simp [sums] at hl

/-- `%left $start` and `S : 'x'`. -/
def levelOfStart : Declarations where
  levels := #[⟨.left, ["$start"]⟩]
  rules := #[⟨"S", ["'x'"], none, none⟩]

/-- The grammar that they declare. -/
def levelOfStartGrammar : Grammar where
  alphabet :=
    { terminals := #[⟨"$end", 0, none⟩, ⟨"$start", 257, none⟩, ⟨"'x'", 120, none⟩]
      nonterminals := #["$start", "S"] }
  rules := #[⟨0, [.nonterminal 1, .terminal 0], none, none⟩, ⟨1, [.terminal 2], none, none⟩]

/-- They are accepted, and `$start` is the name of terminal 1 and of the added start symbol; it
    denotes the latter. -/
theorem isRegistry_levelOfStart : levelOfStart.resolve = .ok levelOfStartGrammar ∧
    levelOfStartGrammar.alphabet.Has (.terminal 1) ∧
    levelOfStartGrammar.alphabet.name (.terminal 1) =
      levelOfStartGrammar.alphabet.name (.nonterminal 0) ∧
    levelOfStartGrammar.alphabet.symbol? (levelOfStartGrammar.alphabet.name (.terminal 1)) =
      some (.nonterminal 0) ∧
    ¬ levelOfStartGrammar.alphabet.IsRegistry := by
  have hfound : levelOfStartGrammar.alphabet.symbol?
      (levelOfStartGrammar.alphabet.name (.terminal 1)) = some (.nonterminal 0) := by cbv
  have hhas : levelOfStartGrammar.alphabet.Has (.terminal 1) := by
    show 1 < 3
    decide
  refine ⟨by cbv, hhas, rfl, hfound, fun hreg => ?_⟩
  have hsame := hreg.symbol?_name _ hhas
  rw [hfound] at hsame
  exact absurd hsame (by decide)

end Declarations

end Lalr
