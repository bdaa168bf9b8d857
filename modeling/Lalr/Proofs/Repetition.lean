/-
  Declarations of any number of rules, at which the limits of the tables are reached.

  `repeated start n` declares the rule `D : 'd'` under the numbers from 1 to `n`, and `S : 'x'`
  under the number `n + 1`.  Nothing is evaluated here for a particular `n`:

    1. the declarations are well formed, and the grammar has the rules that were declared
       (`IsRepeated`);
    2. from state 0 a terminal leads to the state that has crossed it in all rules of the start
       symbol (`IsRepeated.length_signature`, `IsRepeated.mem_signature_last`);
    3. there are few states, each of them entered by another symbol (`IsRepeated.size_states_le`),
       and so the declarations build (`exists_build_repeated`).
-/
import Mathlib
import Lalr.Proofs.Path
import Lalr.Proofs.Validation

namespace Lalr

open State

/-! ## The declarations

  What is asked of each name and of each rule, for every number of rules. -/

namespace Declarations

/-- The rule `D : 'd'` as often as `n` says, then the rule `S : 'x'`. -/
def repeated (start : String) (n : Nat) : Declarations :=
  ((Declarations.startAt {} start).ruleTimes n ⟨"D", ["'d'"], none, none⟩).rule
    ⟨"S", ["'x'"], none, none⟩

variable {start : String} {n : Nat}

theorem rules_repeated : (repeated start n).rules
    = (Array.replicate n ⟨"D", ["'d'"], none, none⟩).push ⟨"S", ["'x'"], none, none⟩ := by
  show ((#[] ++ Array.replicate n _).push _ : Array RuleDecl) = _
  rw [Array.empty_append]

theorem mem_rules_repeated {r : RuleDecl} (h : r ∈ (repeated start n).rules) :
    r = ⟨"D", ["'d'"], none, none⟩ ∨ r = ⟨"S", ["'x'"], none, none⟩ := by
  rw [rules_repeated, Array.mem_push, Array.mem_replicate] at h
  exact h.imp (·.2) id

theorem getElem?_rules_repeated_of_lt {i : Nat} (hi : i < n) :
    (repeated start n).rules[i]? = some ⟨"D", ["'d'"], none, none⟩ := by
  rw [rules_repeated, Array.getElem?_push, if_neg (by simp; omega), Array.getElem?_replicate,
    if_pos hi]

theorem getElem?_rules_repeated_last :
    (repeated start n).rules[n]? = some ⟨"S", ["'x'"], none, none⟩ := by
  rw [rules_repeated, Array.getElem?_push, if_pos (by simp)]

theorem isLeftSide_repeated (hn : 0 < n) {name : String} :
    (repeated start n).IsLeftSide name ↔ name = "D" ∨ name = "S" := by
  constructor
  · rintro ⟨r, hr, rfl⟩
    rcases mem_rules_repeated hr with rfl | rfl
    · exact Or.inl rfl
    · exact Or.inr rfl
  · rintro (rfl | rfl)
    · exact ⟨_, Array.mem_of_getElem? (getElem?_rules_repeated_of_lt hn), rfl⟩
    · exact ⟨_, Array.mem_of_getElem? getElem?_rules_repeated_last, rfl⟩

theorem isTerminal_repeated {name : String} (h : (repeated start n).IsTerminal name) :
    name ∈ [endName, "'d'", "'x'"] := by
  have hmentions : ∀ r ∈ (repeated start n).rules, ∀ name ∈ r.mentions, name ∈ ["'d'", "'x'"] := by
    intro r hr
    rcases mem_rules_repeated hr with rfl | rfl <;> decide
  cases h with
  | endOfInput => exact List.mem_cons_self
  | error herror =>
    rcases herror with ⟨t, ht, -⟩ | ⟨l, hl, -⟩ | ⟨r, hr, hname⟩
    · exact absurd ht (Array.not_mem_empty t)
    · exact absurd hl (Array.not_mem_empty l)
    · exact absurd (hmentions r hr errorName hname) (by decide)
  | token ht => exact absurd ht (Array.not_mem_empty _)
  | ranked hl => exact absurd hl (Array.not_mem_empty _)
  | quoted hr hname => exact List.mem_cons_of_mem _ (hmentions _ hr name hname)

theorem isTerminal_d (hn : 0 < n) : (repeated start n).IsTerminal "'d'" :=
  .quoted (Array.mem_of_getElem? (getElem?_rules_repeated_of_lt hn)) (by decide) ⟨'d', by decide⟩

theorem isTerminal_x : (repeated start n).IsTerminal "'x'" :=
  .quoted (Array.mem_of_getElem? getElem?_rules_repeated_last) (by decide) ⟨'x', by decide⟩

theorem isWellFormed_repeated (hn : 0 < n) (hstart : start = "D" ∨ start = "S") :
    (repeated start n).IsWellFormed where
  rules h := by
    have hlast : (repeated start n).rules[n]? = some _ := getElem?_rules_repeated_last
    rw [h] at hlast
    exact absurd hlast (by simp)
  codes := by
    -- only tokens declare codes, and there are none
    have hknown : ∀ name, (repeated start n).knownCode? name
        = Declarations.knownCode? {} name := fun _ => rfl
    have hdiffer : ∀ a ∈ [endName, "'d'", "'x'"], ∀ b ∈ [endName, "'d'", "'x'"], a ≠ b →
        Declarations.knownCode? {} a ≠ Declarations.knownCode? {} b := by decide
    have hnodup : (repeated start n).terminals.Nodup := by
      rw [← (lists_candidates _).1, List.map_map]
      exact nodup_candidates _
    refine hnodup.pairwise_of_forall_ne fun a ha b hb hne k hak hbk => ?_
    rw [hknown] at hak hbk
    exact hdiffer a (isTerminal_repeated (mem_terminals.mp ha)) b
      (isTerminal_repeated (mem_terminals.mp hb)) hne (hak.trans hbk.symm)
  left r hr := by
    have hfree : ∀ name ∈ ["D", "S"], ¬ (name = endName ∨ name = startName)
        ∧ name ∉ [endName, "'d'", "'x'"] ∧ literalChar? name = none := by decide
    have hmem : r.lhs ∈ ["D", "S"] := by
      rcases mem_rules_repeated hr with rfl | rfl <;> decide
    obtain ⟨hreserved, hterminal, hliteral⟩ := hfree _ hmem
    refine ⟨hreserved, fun h => hterminal (isTerminal_repeated h), fun ⟨c, hc⟩ => ?_⟩
    rw [hliteral] at hc
    exact absurd hc (by simp)
  start := (isLeftSide_repeated hn).mpr hstart
  right r hr name hname := by
    rcases mem_rules_repeated hr with rfl | rfl
    · rw [List.mem_singleton.mp hname]
      exact ⟨by unfold IsReserved; decide, Or.inl (isTerminal_d hn)⟩
    · rw [List.mem_singleton.mp hname]
      exact ⟨by unfold IsReserved; decide, Or.inl isTerminal_x⟩
  level r hr name hlevel := by
    rcases mem_rules_repeated hr with rfl | rfl <;> exact absurd hlevel (by simp)

theorem size_symbols_repeated (hn : 0 < n) : (repeated start n).symbols.size ≤ 6 := by
  have hterminals : (repeated start n).symbols.terminals.size ≤ 3 := by
    have hnodup : (repeated start n).terminals.Nodup := by
      rw [← (lists_candidates _).1, List.map_map]
      exact nodup_candidates _
    have hsub : (repeated start n).terminals ⊆ [endName, "'d'", "'x'"] := fun name hname =>
      isTerminal_repeated (mem_terminals.mp hname)
    show ((repeated start n).codedTerminals.map _).toArray.size ≤ 3
    rw [List.size_toArray, List.length_map, ← List.length_map (·.1), map_fst_codedTerminals]
    exact (hnodup.subperm hsub).length_le
  have hleft : (repeated start n).leftSides ⊆ ["D", "S"] := by
    intro name hname
    rcases (isLeftSide_repeated hn).mp (mem_leftSides_iff.mp hname) with rfl | rfl <;> decide
  have hlength := ((nodup_leftSides (repeated start n)).subperm hleft).length_le
  have hnonterminals : (repeated start n).symbols.nonterminals.size =
      (repeated start n).leftSides.length + 1 := by
    show (startName :: (repeated start n).leftSides).toArray.size = _
    rw [List.size_toArray, List.length_cons]
  rw [List.length_cons, List.length_singleton] at hlength
  rw [Alphabet.size]
  omega

end Declarations

/-! ## The grammar

  The names denote what they should, whatever their numbers are.  From here on the declarations
  are not looked at any more. -/

/-- The grammar has the rules that were declared; `d` and `x` are the terminals. -/
structure IsRepeated (start : String) (n : Nat) (g : Grammar) (d x : Nat) : Prop where
  wellFormed : g.WellFormed
  size : g.rules.size = n + 2
  lhs : ∀ {r}, 0 < r → r ≤ n → (g.rule r).lhs = g.alphabet.lhs "D"
  rhs : ∀ {r}, 0 < r → r ≤ n → (g.rule r).rhs = [.terminal d]
  lhs_last : (g.rule (n + 1)).lhs = g.alphabet.lhs "S"
  rhs_last : (g.rule (n + 1)).rhs = [.terminal x]
  ne : d ≠ x
  start_eq : g.start = .nonterminal (g.alphabet.lhs start)

namespace Declarations

variable {start : String} {n : Nat}

/-- A name that is no left side is a terminal's. -/
theorem symbol?_terminal {d : Declarations} {name : String} {x : Symbol}
    (hx : d.symbols.symbol? name = some x) (hstart : name ≠ startName)
    (hleft : ¬ d.IsLeftSide name) : ∃ t, x = .terminal t ∧
      ∃ terminal, d.symbols.terminals[t]? = some terminal ∧ terminal.name = name := by
  cases x with
  | terminal t => exact ⟨t, rfl, Alphabet.getElem?_of_symbol?_terminal hx⟩
  | nonterminal a =>
    have hmem := Array.mem_of_getElem? (Alphabet.getElem?_of_symbol?_nonterminal hx)
    rw [mem_nonterminals_symbols] at hmem
    exact absurd hmem fun h => h.elim hstart hleft

theorem isRepeated (hn : 0 < n) {g : Grammar} (h : Resolved (repeated start n) g) :
    ∃ d x, IsRepeated start n g d x := by
  have halphabet : g.alphabet = (repeated start n).symbols := h.alphabet_eq
  have hleft : ∀ {name}, (repeated start n).IsLeftSide name → name = "D" ∨ name = "S" :=
    fun hname => (isLeftSide_repeated hn).mp hname
  -- the two names on right sides
  have hrule : ∀ {i : Nat} {lhs name : String},
      (repeated start n).rules[i]? = some ⟨lhs, [name], none, none⟩ →
        (g.rule (i + 1)).lhs = g.alphabet.lhs lhs
          ∧ ∃ y, g.alphabet.symbol? name = some y ∧ (g.rule (i + 1)).rhs = [y] := by
    intro i lhs name hget
    obtain ⟨hlhs, hrhs, -⟩ := Alphabet.resolveRule_eq_ok (h.rule_succ hget)
    obtain ⟨y, ys, hy, hys, heq⟩ := List.forall₂_cons_left_iff.mp hrhs
    rw [List.forall₂_nil_left_iff.mp hys] at heq
    exact ⟨hlhs, y, (Alphabet.resolveName_eq_ok hy).2, heq⟩
  obtain ⟨-, y, hy, -⟩ := hrule (getElem?_rules_repeated_of_lt hn)
  obtain ⟨hlast, z, hz, hrhs⟩ := hrule getElem?_rules_repeated_last
  rw [halphabet] at hy hz
  obtain ⟨d, rfl, dt, hd, hdname⟩ := symbol?_terminal hy (by decide) fun hl =>
    absurd (hleft hl) (by decide)
  obtain ⟨x, rfl, xt, hx, hxname⟩ := symbol?_terminal hz (by decide) fun hl =>
    absurd (hleft hl) (by decide)
  have hall : ∀ {r}, 0 < r → r ≤ n →
      (g.rule r).lhs = g.alphabet.lhs "D" ∧ (g.rule r).rhs = [.terminal d] := by
    intro r hpos hr
    obtain ⟨i, rfl⟩ := Nat.exists_eq_succ_of_ne_zero (Nat.pos_iff_ne_zero.mp hpos)
    obtain ⟨hlhs, y, hy', hrhs⟩ := hrule (getElem?_rules_repeated_of_lt hr)
    rw [halphabet, hy] at hy'
    injection hy' with hy'
    exact ⟨hlhs, hy' ▸ hrhs⟩
  refine ⟨d, x, h.wellFormed, ?_, fun hpos hr => (hall hpos hr).1, fun hpos hr => (hall hpos hr).2,
    hlast, hrhs, ?_, h.start_eq⟩
  · rw [h.size_rules, rules_repeated, Array.size_push, Array.size_replicate]
  · rintro rfl
    rw [hd] at hx
    injection hx with hx
    rw [hx, hxname] at hdname
    exact absurd hdname (by decide)

end Declarations

/-! ## The automaton

  It has at most as many states as there are symbols to enter one by, and one more.  The states
  behind `d` and behind `x` are those that the limits are about. -/

/-- A dot before the only symbol of a right side. -/
theorem Core.next?_singleton {g : Grammar} {c : Core} {y z : Symbol}
    (hrhs : (g.rule c.rule).rhs = [y]) (hnext : c.next? g = some z) : c.dot = 0 ∧ z = y := by
  rw [Core.next?, Core.afterDot_eq, hrhs] at hnext
  cases hdot : c.dot with
  | zero =>
    rw [hdot] at hnext
    exact ⟨rfl, (Option.some.inj hnext).symm⟩
  | succ i =>
    rw [hdot] at hnext
    exact absurd hnext (by simp)

/-- Rule 0 has no terminal but the end of input. -/
theorem Grammar.WellFormed.rule_ne_zero {g : Grammar} (wf : g.WellFormed) {c : Core} {t : Nat}
    (ht : t ≠ 0) (hnext : c.next? g = some (.terminal t)) : c.rule ≠ 0 := by
  intro hzero
  have hmem := Core.next?_mem hnext
  obtain ⟨a, ha, -⟩ := wf.start_inner
  rw [hzero, wf.rhs_zero, ha] at hmem
  rcases List.mem_cons.mp hmem with he | he
  · exact absurd he (by simp)
  · exact ht (Symbol.terminal.inj (List.mem_singleton.mp he))

namespace IsRepeated

variable {start : String} {n d x : Nat} {g : Grammar} (h : IsRepeated start n g d x)
include h

theorem rule_cases {r : Nat} (hr : r < g.rules.size) : r = 0 ∨ (0 < r ∧ r ≤ n) ∨ r = n + 1 := by
  rw [h.size] at hr
  omega

/-- The terminals of right sides are not the end of input. -/
theorem terminal_ne_zero {r t : Nat} (hpos : 0 < r) (hr : r ≤ n + 1)
    (hrhs : (g.rule r).rhs = [.terminal t]) : t ≠ 0 := by
  rintro rfl
  have hmem : (.terminal 0 : Symbol) ∈ (g.rule r).rhs := by
    rw [hrhs]
    exact List.mem_cons_self
  exact (h.wellFormed.rhs_inner hpos (by rw [h.size]; omega) _ hmem).1 rfl

/-- Only the repeated rule has `d` after a dot, and the dot stands in front. -/
theorem of_next?_d (hn : 0 < n) {c : Core} (hnext : c.next? g = some (.terminal d)) :
    (0 < c.rule ∧ c.rule ≤ n) ∧ c.dot = 0 := by
  have hd := h.terminal_ne_zero Nat.one_pos (Nat.succ_le_succ (Nat.zero_le n))
    (h.rhs Nat.one_pos hn)
  rcases h.rule_cases (Core.rule_lt_of_next? hnext) with hzero | hr | hlast
  · exact absurd hzero (h.wellFormed.rule_ne_zero hd hnext)
  · exact ⟨hr, (Core.next?_singleton (h.rhs hr.1 hr.2) hnext).1⟩
  · have hy := (Core.next?_singleton (hlast ▸ h.rhs_last) hnext).2
    exact absurd (Symbol.terminal.inj hy) h.ne

/-- Only the last rule has `x` after a dot, and the dot stands in front. -/
theorem of_next?_x {c : Core} (hnext : c.next? g = some (.terminal x)) : c = ⟨n + 1, 0⟩ := by
  have hx := h.terminal_ne_zero (Nat.succ_pos n) (Nat.le_refl _) h.rhs_last
  rcases h.rule_cases (Core.rule_lt_of_next? hnext) with hzero | hr | hlast
  · exact absurd hzero (h.wellFormed.rule_ne_zero hx hnext)
  · have hy := (Core.next?_singleton (h.rhs hr.1 hr.2) hnext).2
    exact absurd (Symbol.terminal.inj hy).symm h.ne
  · have hdot := (Core.next?_singleton (hlast ▸ h.rhs_last) hnext).1
    cases c
    cases hlast
    cases hdot
    rfl

theorem isShort : g.IsShort := by
  intro r
  rcases Nat.lt_or_ge r g.rules.size with hr | hr
  · rcases h.rule_cases hr with rfl | ⟨hpos, hle⟩ | rfl
    · rw [h.wellFormed.rhs_zero]
      simp
    · rw [h.rhs hpos hle]
      simp
    · rw [h.rhs_last]
      simp
  · rw [Grammar.rule, getD_of_size_le _ hr]
    decide

/-- The items with a symbol after the dot. -/
theorem next?_cases {c : Core} {y : Symbol} (hnext : c.next? g = some y) :
    (c = ⟨0, 0⟩ ∧ y = g.start) ∨ (c = ⟨0, 1⟩ ∧ y = .terminal 0) ∨
      (c.rule ≠ 0 ∧ c.dot = 0 ∧ (y = .terminal d ∨ y = .terminal x)) := by
  rcases h.rule_cases (Core.rule_lt_of_next? hnext) with hzero | ⟨hpos, hle⟩ | hlast
  · obtain ⟨r, dot⟩ := c
    obtain rfl : r = 0 := hzero
    rw [Core.next?_eq_getElem?, h.wellFormed.rhs_zero] at hnext
    rcases dot with _ | _ | dot
    · exact Or.inl ⟨rfl, (Option.some.inj hnext).symm⟩
    · exact Or.inr (Or.inl ⟨rfl, (Option.some.inj hnext).symm⟩)
    · exact absurd hnext (by simp)
  · obtain ⟨hdot, hy⟩ := Core.next?_singleton (h.rhs hpos hle) hnext
    exact Or.inr (Or.inr ⟨Nat.pos_iff_ne_zero.mp hpos, hdot, Or.inl hy⟩)
  · obtain ⟨hdot, hy⟩ := Core.next?_singleton (hlast ▸ h.rhs_last) hnext
    exact Or.inr (Or.inr ⟨by omega, hdot, Or.inr hy⟩)

variable {E : Edges} {w : Worklist} (hw : Worklist.Sound g E w)
include hw

/-- From other states than state 0 only the end of input leads on. -/
theorem eq_zero_of_edge {p q : Nat} {y : Symbol} (he : E p y q) (hy : y ≠ .terminal 0) : p = 0 := by
  have hp := hw.edge_src he
  obtain ⟨b, hb, hnext⟩ := hw.exists_next he
  rcases h.next?_cases hnext with ⟨rfl, -⟩ | ⟨-, hend⟩ | ⟨hrule, hdot, -⟩
  · exact hw.eq_zero_of_has h.wellFormed hp hb
  · exact absurd hend hy
  · obtain ⟨r, dot⟩ := b
    obtain rfl : dot = 0 := hdot
    -- the left side is expected, and only the start rule has a nonterminal after a dot
    obtain ⟨c, hc, hexpected⟩ := hw.expected h.wellFormed hp hrule (h.isShort.core _) hb
    rcases h.next?_cases hexpected with ⟨rfl, -⟩ | ⟨-, hend⟩ | ⟨-, -, hend | hend⟩
    · exact hw.eq_zero_of_has h.wellFormed hp hc
    all_goals exact absurd hend (by simp)

/-- No two states are entered by one symbol. -/
theorem target_unique {p p' q q' : Nat} {y : Symbol} (he : E p y q) (he' : E p' y q') : q = q' := by
  by_cases hy : y = .terminal 0
  · subst hy
    have hmem : ∀ {p q}, E p (.terminal 0) q → ∀ c, c ∈ (w.state q).signature ↔ c = ⟨0, 2⟩ := by
      intro p q he c
      have hall : ∀ c ∈ (w.state q).signature, c = ⟨0, 2⟩ := by
        intro c hc
        obtain ⟨b, -, hnext, rfl⟩ := (hw.edge_signature he).mp hc
        rw [Core.eq_of_next?_end h.wellFormed hnext]
        rfl
      obtain ⟨c', hc'⟩ := List.exists_mem_of_ne_nil _ (hw.edge_nonempty he)
      exact ⟨hall c, fun heq => heq ▸ hall c' hc' ▸ hc'⟩
    exact hw.eq_of_signature h.isShort h.wellFormed (hw.edge_lt he) (hw.edge_lt he') fun c => by
      rw [hmem he, hmem he']
  · rw [h.eq_zero_of_edge hw he hy] at he
    rw [h.eq_zero_of_edge hw he' hy] at he'
    exact hw.edge_unique he he'

theorem size_states_le : w.states.size ≤ 5 := by
  -- a state behind the first is entered by one of four symbols, and each leads to one state only
  have hmaps : ∀ q ∈ Finset.Ico 1 w.states.size, (w.state q).entry ∈
      [some g.start, some (.terminal 0), some (.terminal d), some (.terminal x)].toFinset := by
    intro q hq
    obtain ⟨hpos, hlt⟩ := Finset.mem_Ico.mp hq
    obtain ⟨p, y, he⟩ := hw.entered hlt hpos
    obtain ⟨b, -, hnext⟩ := hw.exists_next he
    rw [hw.edge_entry he]
    rcases h.next?_cases hnext with ⟨-, rfl⟩ | ⟨-, rfl⟩ | ⟨-, -, rfl | rfl⟩ <;> simp
  have hinj : ∀ q ∈ Finset.Ico 1 w.states.size, ∀ q' ∈ Finset.Ico 1 w.states.size,
      (w.state q).entry = (w.state q').entry → q = q' := by
    intro q hq q' hq' heq
    obtain ⟨hpos, hlt⟩ := Finset.mem_Ico.mp hq
    obtain ⟨hpos', hlt'⟩ := Finset.mem_Ico.mp hq'
    obtain ⟨p, y, he⟩ := hw.entered hlt hpos
    obtain ⟨p', y', he'⟩ := hw.entered hlt' hpos'
    rw [hw.edge_entry he, hw.edge_entry he'] at heq
    exact h.target_unique hw he (Option.some.inj heq ▸ he')
  have hcard := Finset.card_le_card_of_injOn _ hmaps hinj
  have hlist := List.toFinset_card_le
    [some g.start, some (.terminal 0), some (.terminal d), some (.terminal x)]
  rw [Nat.card_Ico] at hcard
  rw [List.length_cons, List.length_cons, List.length_cons, List.length_singleton] at hlist
  omega

/-- State 0 has the rules of the start symbol with the dot in front. -/
theorem has_start {r : Nat} (hr : r < g.rules.size)
    (hlhs : (g.rule r).lhs = g.alphabet.lhs start) : (w.state 0).Has ⟨r, 0⟩ := by
  have hnext : (⟨0, 0⟩ : Core).next? g = some (.nonterminal (g.alphabet.lhs start)) := by
    rw [Core.next?, Core.afterDot_eq, h.wellFormed.rhs_zero, ← h.start_eq]
    rfl
  exact ((hw.closed hw.pos).has_iff h.wellFormed).mpr
    (.rule (.kernel (hw.kernelHas_start.mpr rfl)) hnext hr hlhs)

/-- The state behind the repeated rule's terminal has a core of each of the rules. -/
theorem length_signature (hstart : start = "D") (hn : 0 < n) {q : Nat} (he : E 0 (.terminal d) q) :
    (w.state q).signature.length = n := by
  -- behind `d` stand the `n` rules for `D`, each with its dot at the end
  have hmem : ∀ c, c ∈ (w.state q).signature ↔ c ∈ (List.range' 1 n).map (Core.mk · 1) := by
    intro c
    rw [hw.edge_signature he, List.mem_map]
    constructor
    · rintro ⟨b, -, hnext, rfl⟩
      obtain ⟨⟨hpos, hle⟩, hdot⟩ := h.of_next?_d hn hnext
      refine ⟨b.rule, List.mem_range'_1.mpr ⟨hpos, by omega⟩, ?_⟩
      rw [Core.advance, hdot]
    · rintro ⟨r, hr, rfl⟩
      obtain ⟨hpos, hlt⟩ := List.mem_range'_1.mp hr
      have hrhs := h.rhs hpos (by omega)
      refine ⟨⟨r, 0⟩, h.has_start hw (by rw [h.size]; omega) ?_, ?_, rfl⟩
      · rw [h.lhs hpos (by omega), hstart]
      · rw [Core.next?, Core.afterDot_eq, hrhs]
        rfl
  -- and none of them twice
  have hnodup : ((List.range' 1 n).map (Core.mk · 1)).Nodup :=
    List.Nodup.map (fun r r' heq => (Core.mk.inj heq).1) List.nodup_range'
  have hsigned := (hw.signed (hw.edge_lt he)).nodup fun c _ => h.isShort.core c
  have hlength := ((List.perm_ext_iff_of_nodup hsigned hnodup).mpr hmem).length_eq
  rw [hlength, List.length_map, List.length_range']

/-- The state behind the last rule's terminal has the core of that rule alone. -/
theorem mem_signature_last (hstart : start = "S") {q : Nat} (he : E 0 (.terminal x) q) {c : Core} :
    c ∈ (w.state q).signature ↔ c = ⟨n + 1, 1⟩ := by
  rw [hw.edge_signature he]
  constructor
  · rintro ⟨b, -, hnext, rfl⟩
    rw [h.of_next?_x hnext]
    rfl
  · rintro rfl
    refine ⟨⟨n + 1, 0⟩, h.has_start hw (by rw [h.size]; omega) ?_, ?_, rfl⟩
    · rw [h.lhs_last, hstart]
    · rw [Core.next?, Core.afterDot_eq, h.rhs_last]
      rfl

/-- That core is all the state has. -/
theorem has_last (hstart : start = "S") {q : Nat} (he : E 0 (.terminal x) q) {c : Core} :
    (w.state q).Has c ↔ c = ⟨n + 1, 1⟩ := by
  have hq := hw.edge_lt he
  have hsub : (w.state q).signature ⊆ [⟨n + 1, 1⟩] := fun c hc =>
    List.mem_singleton.mpr ((h.mem_signature_last hw hstart he).mp hc)
  have hnodup := (hw.signed hq).nodup fun c _ => h.isShort.core c
  have hlength := (hnodup.subperm hsub).length_le
  rw [List.length_singleton] at hlength
  have hkernel : ∀ c, (w.state q).KernelHas c ↔ c = ⟨n + 1, 1⟩ := fun c =>
    (hw.kernelHas_iff_of_length hq (by omega)).trans (h.mem_signature_last hw hstart he)
  rw [(hw.closed hq).has_iff h.wellFormed]
  refine ⟨fun hin => ?_, fun heq => .kernel ((hkernel c).mpr heq)⟩
  induction hin with
  | kernel hk => exact (hkernel _).mp hk
  | rule _ hnext _ _ ih =>
    rw [ih, Core.next?, Core.afterDot_eq, h.rhs_last] at hnext
    exact absurd hnext (by simp)

/-- State 0 completes no rule. -/
theorem not_completes_start {r : Nat} : ¬ (w.state 0).Completes g r := by
  rintro ⟨c, hhas, rfl, hcomplete⟩
  have hdot : c.dot = 0 := by
    cases ((hw.closed hw.pos).has_iff h.wellFormed).mp hhas with
    | kernel hk => rw [hw.kernelHas_start.mp hk]
    | rule => rfl
  have hrule := (hw.closed hw.pos).rule_lt h.wellFormed hhas
  have hnil : (g.rule c.rule).rhs = [] := by
    have hlength := Core.isComplete_iff.mp hcomplete
    rw [hdot] at hlength
    exact List.eq_nil_of_length_eq_zero (Nat.eq_zero_of_le_zero hlength)
  rcases h.rule_cases hrule with hr | ⟨hpos, hr⟩ | hr
  · rw [hr, h.wellFormed.rhs_zero] at hnil
    exact absurd hnil (by simp)
  · rw [h.rhs hpos hr] at hnil
    exact absurd hnil (by simp)
  · rw [hr, h.rhs_last] at hnil
    exact absurd hnil (by simp)

end IsRepeated

section

variable {start : String} {n d x : Nat} {g : Grammar} (h : IsRepeated start n g d x)
  {w : Worklist} (hw : Worklist.Inv g w) (hexplored : 0 < w.explored)
include h hw hexplored

/-- When state 0 is explored, it has a move on the terminals that the start symbol begins with. -/
theorem IsRepeated.exists_edge {r t : Nat} (hr : r < g.rules.size)
    (hlhs : (g.rule r).lhs = g.alphabet.lhs start) (hrhs : (g.rule r).rhs = [.terminal t]) :
    ∃ q, w.edges 0 (.terminal t) q := by
  refine hw.moved hexplored (h.has_start hw.sound hr hlhs) ?_
  rw [Core.next?, Core.afterDot_eq, hrhs]
  rfl

/-- When it has handed its lookaheads on, the last rule is complete before the end of input. -/
theorem IsRepeated.completesOn_last (hgrown : 0 ∉ w.grown) (hstart : start = "S") {q : Nat}
    (he : w.edges 0 (.terminal x) q) : (w.state q).CompletesOn g (n + 1) 0 := by
  have wf := h.wellFormed
  have hclosed := hw.sound.closed hw.sound.pos
  have hq := hw.sound.edge_lt he
  -- the start rule puts the end of input behind the start symbol
  have hlook : (w.state 0).Look ⟨n + 1, 0⟩ 0 := by
    have hafter : (⟨0, 0⟩ : Core).afterDot g
        = .nonterminal (g.alphabet.lhs "S") :: [.terminal 0] := by
      rw [Core.afterDot_eq, wf.rhs_zero, h.start_eq, hstart]
      rfl
    exact (hclosed.look_iff wf).mpr (.first (.kernel (hw.sound.kernelHas_start.mpr rfl)) hafter
      (by rw [h.size]; omega) h.lhs_last .terminal)
  have hnext : (⟨n + 1, 0⟩ : Core).next? g = some (.terminal x) := by
    rw [Core.next?, Core.afterDot_eq, h.rhs_last]
    rfl
  have hkernel : (w.state q).KernelHas ⟨n + 1, 1⟩ := by
    cases ((hw.sound.closed hq).has_iff wf).mp ((h.has_last hw.sound hstart he).mpr rfl) with
    | kernel hk => exact hk
  -- state 0 has handed it on over the terminal
  refine ⟨_, (hw.handedOn h.isShort hexplored hgrown he hlook hnext hkernel).look, rfl,
    Core.isComplete_iff.mpr ?_⟩
  rw [Core.advance, h.rhs_last]
  exact Nat.le_refl 1

end

/-- They build. -/
theorem Declarations.exists_build_repeated {start : String} {n : Nat} (hn : 0 < n)
    (hstart : start = "D" ∨ start = "S") : ∃ c, (repeated start n).build = .ok c := by
  have hnone : ¬ (repeated start n).IsTerminal startName := fun h =>
    absurd (isTerminal_repeated h) (by decide)
  obtain ⟨g, hg⟩ := (resolve_reports hnone).ok
    (isWellFormed_iff.mp (isWellFormed_repeated hn hstart))
  obtain ⟨d, x, h⟩ := isRepeated hn (resolved hg)
  have hinv := Automaton.ofAnalysis_spec h.wellFormed
    (Automaton.finished_of_isShort h.wellFormed h.isShort)
  have hsymbols : g.alphabet.size ≤ 6 := by
    rw [(resolved hg).alphabet_eq]
    exact size_symbols_repeated hn
  have hstates : (Automaton.ofAnalysis (Analysis.ofGrammar g)).worklist.states.size ≤ 5 :=
    h.size_states_le hinv.sound
  exact ⟨_, build_of_isShort hg h.isShort (n := 5) (by decide) hstates
    (le_trans (Nat.pow_le_pow_left (Nat.add_le_add_left hsymbols _) 2) (by decide))⟩

end Lalr
