/-
  Nothing is lost when the rows are packed into the table.

  Under the number of an automaton state the table answers what the state's row says:

    1. the explicit action on a terminal is the row's entry, coded, and there is none where the row
       has none (`explicitAction_number_eq`).  No entry has the code that stands for no entry, if
       there are few enough rules (`actionCode_ne_useDefault`);
    2. the action on a terminal is the row's, coded (`action_number_eq`): a reduction by the default
       rule is coded as the fallback itself would be (`neg_fallbackRule`);
    3. the symbol of an unknown token has no entry (`lookup_invalid`);
    4. a goto is to the state that the row names.

  `table_readback` puts these together.
-/
import Mathlib
import Lalr.Proofs.Table

namespace Lalr

/-! ## Decisions

  A decision is on a terminal, and a fallback reduces, accepts or is an error. -/

namespace State

/-- No decision is made for anything but a terminal. -/
theorem decided_eq_none (g : Grammar) (i : Nat) (s : State) {t : Nat} (ht : g.terminalCount ≤ t) :
    (s.ballot g i).decided t = none := by
  rw [Ballot.decided, Array.getD_eq_getD_getElem?,
    Array.getElem?_eq_none ((s.size_ballot g i).trans_le ht)]
  rfl

/-- The fallback is never a shift. -/
theorem fallback_ne_shift (g : Grammar) (i : Nat) (s : State) (q : Nat) :
    (s.actionRow g i).1.fallback ≠ .shift q := by
  rcases s.fallback_cases g i with ⟨-, hf⟩ | ⟨-, r, hf, -⟩ | ⟨-, hf⟩ <;> rw [hf] <;> simp

end State

/-! ## Codes of actions

  The machine reads a fallback as a rule, and an entry as a code.  For a reduction the one is the
  other with its sign turned. -/

/-- The rule of a fallback that is no shift, as a reduction, has the code of the fallback. -/
theorem Coding.neg_fallbackRule (c : Coding) {action : Action} (h : ∀ q, action ≠ .shift q) :
    -fallbackRule action = c.actionCode action := by
  cases action with
  | shift q => exact absurd rfl (h q)
  | reduce r => rfl
  | accept => rfl
  | error => rfl

/-- The default rule of a state is its entry in the array of defaults. -/
theorem ParseTable.defaultRule_eq_ok {t : ParseTable} {state : Nat} {rule : Int} :
    t.defaultRule state = .ok rule ↔ t.actionDefault[state]? = some rule := by
  unfold defaultRule
  cases t.actionDefault[state]? with
  | none => simp
  | some rule' => simp

namespace Construction

/-- The number of automaton state `p` in the table. -/
def number (c : Construction) (p : Nat) : Nat :=
  c.coding.numbering.number p

variable {d : Declarations} {settings : Settings} {c : Construction} {p t : Nat}

section

variable (h : d.build settings = .ok c)
include h

/-- A state is no leaf if and only if its number is below that of the leaves. -/
theorem number_lt_nonLeafCount_iff (hp : p < c.automaton.states.size) :
    c.number p < c.table.nonLeafCount ↔ c.isLeaf p = false := by
  rw [table_eq h]
  exact Numbering.number_lt_nonLeafCount_iff (by rw [size_rows h]; exact hp)

/-- A rule that a state completes is one of the grammar's. -/
theorem rule_lt_of_completes (hp : p < c.automaton.states.size) {r : Nat}
    (hr : (c.automaton.state p).Completes c.grammar r) : r < c.grammar.rules.size := by
  obtain ⟨core, hcore, rfl, -⟩ := hr
  exact ((automaton_inv h).sound.closed hp).rule_lt (wellFormed h) hcore

/-- A rule that a state completes is short: the dots of longer ones do not get to the end. -/
theorem short_of_completes (hp : p < c.automaton.states.size) {r : Nat}
    (hr : (c.automaton.state p).Completes c.grammar r) :
    (c.grammar.rule r).rhs.length < 65536 := by
  obtain ⟨core, hcore, rfl, hcomplete⟩ := hr
  have hfits := ((automaton_inv h).sound.closed hp).fits (wellFormed h) hcore
  exact Core.isShort_iff.mp (hfits.isShort_of_complete hcomplete)

theorem fallback_ne_shift (hp : p < c.automaton.states.size) (q : Nat) :
    (c.coding.row p).fallback ≠ .shift q := by
  rw [row_eq h hp]
  exact (c.automaton.state p).fallback_ne_shift c.grammar p q

/-- The symbol of an unknown token has no entry. -/
theorem lookup_invalid (hp : p < c.automaton.states.size) :
    (c.coding.row p).actions.lookup c.grammar.terminalCount = none := by
  rw [row_eq h hp, State.lookup_actions,
    (c.automaton.state p).decided_eq_none c.grammar p (Nat.le_refl _)]
  rfl

theorem invalidSymbol_eq : c.table.invalidSymbol = c.grammar.terminalCount := by
  rw [table_eq h]
  rfl

/-- The row of a state has a goto where the state has a move on a nonterminal. -/
theorem mem_row_gotos (hp : p < c.automaton.states.size) {a q : Nat} :
    (a, q) ∈ (c.coding.row p).gotos ↔ c.automaton.edge p (.nonterminal a) q := by
  rw [row_eq h hp]
  exact State.mem_gotos

/-- A goto enters the state that the row names. -/
theorem gotoAt_number_eq (hp : p < c.automaton.states.size) {a q : Nat}
    (hgoto : (a, q) ∈ (c.coding.row p).gotos) :
    c.table.gotoAt a (c.number p) = .ok (c.coding.stateCode q) := by
  have he := (mem_row_gotos h hp).mp hgoto
  have hat := gotoAt_edge h hp he
  rwa [code_of_not_leaf h hp (not_leaf_of_goto h hp he)] at hat

end

/-! ## Few enough rules

  The code of no entry is that of a reduction by rule 32766.  So it is no entry's code where the
  rules do not get to that number. -/

section

variable (h : d.build settings = .ok c) (hsize : c.grammar.rules.size ≤ 32766)
include h hsize

/-- The code of an entry is not the one that stands for no entry. -/
theorem actionCode_ne_useDefault (hp : p < c.automaton.states.size) {action : Action}
    (hlookup : (c.coding.row p).actions.lookup t = some action) :
    c.coding.actionCode action ≠ useDefault := by
  have hallowed := allowed_of_lookup h hp hlookup
  cases action with
  | shift q =>
    have hw := (automaton_inv h).sound
    have hpos := stateCode_pos h (hw.edge_lt hallowed) (hw.edge_pos hallowed)
    show c.coding.stateCode q ≠ useDefault
    rw [useDefault]
    omega
  | reduce r =>
    have hr := rule_lt_of_completes h hp hallowed.2
    show -(r : Int) ≠ useDefault
    rw [useDefault]
    omega
  | accept => exact hallowed.elim
  | error =>
    show -unexpectedRule ≠ useDefault
    decide

/-- The explicit action of a state is the entry of its row, coded. -/
theorem explicitAction_number_eq (hp : p < c.automaton.states.size) (hleaf : c.isLeaf p = false)
    (t : Nat) : c.table.explicitAction (c.number p) t =
      .ok (((c.coding.row p).actions.lookup t).map c.coding.actionCode) := by
  have hentry := explicitAction_eq h hp hleaf t
  rw [code_of_not_leaf h hp hleaf] at hentry
  rw [number, hentry]
  cases hlookup : (c.coding.row p).actions.lookup t with
  | none => rfl
  | some action =>
    rw [Option.map_some, Option.filter_some,
      if_pos (bne_iff_ne.mpr (actionCode_ne_useDefault h hsize hp hlookup))]

/-- The action of a state is that of its row, coded. -/
theorem action_number_eq (hp : p < c.automaton.states.size) (hleaf : c.isLeaf p = false)
    (t : Nat) : c.table.action (c.number p) t =
      .ok (c.coding.actionCode ((c.coding.row p).action t)) := by
  have hdefault := defaultRule_eq h hp hleaf
  rw [code_of_not_leaf h hp hleaf] at hdefault
  have hneg := c.coding.neg_fallbackRule (fallback_ne_shift h hp)
  rw [ParseTable.action, explicitAction_number_eq h hsize hp hleaf, number, hdefault]
  show Except.ok (Option.getD _ (-Coding.fallbackRule (c.coding.row p).fallback)) = _
  rw [hneg, ActionRow.action]
  cases (c.coding.row p).actions.lookup t <;> rfl

end

end Construction

/-! ## The whole table

  All look-ups of one state under its number. -/

/-- Whatever is decided for a state can be read from the table under the state's number.

    For a state that is no leaf these are the explicit actions and no others, the action on every
    terminal, and the gotos; for every state it is the rule of its fallback.  A goto is looked up at
    a 32-bit column, so `goto` is for numbers that fit; `gotoAt` takes any column. -/
theorem table_readback {d : Declarations} {settings : Settings} {c : Construction}
    (h : d.build settings = .ok c) (hrules : d.rules.size ≤ 32765) {s : Nat} {row : ActionRow}
    (hrow : c.decisions.rows[s]? = some row) :
    (c.number s < c.table.nonLeafCount ↔ c.isLeaf s = false) ∧
    (c.isLeaf s = false →
      (∀ t, t < c.grammar.terminalCount →
        c.table.explicitAction (c.number s) t =
          .ok ((row.actions.lookup t).map c.coding.actionCode) ∧
        c.table.action (c.number s) t = .ok (c.coding.actionCode (row.action t))) ∧
      c.table.explicitAction (c.number s) c.table.invalidSymbol = .ok none) ∧
    (∀ a q, (a, q) ∈ row.gotos →
      c.table.gotoAt a (c.number s) = .ok (c.coding.stateCode q) ∧
      (c.number s < 2 ^ 31 → c.table.goto a (c.number s) = .ok (c.coding.stateCode q))) ∧
    c.table.actionDefault[c.number s]? = some (Coding.fallbackRule row.fallback) := by
  have hsize : c.grammar.rules.size ≤ 32766 := by
    rw [(Declarations.build_spec h).1.size_rules]
    omega
  obtain ⟨hs, -⟩ := Array.getElem?_eq_some_iff.mp hrow
  obtain rfl : c.coding.row s = row := by
    show c.decisions.rows.getD s default = row
    rw [Array.getD_eq_getD_getElem?, hrow]
    rfl
  have hp : s < c.automaton.states.size := by rwa [Construction.size_rows h] at hs
  refine ⟨Construction.number_lt_nonLeafCount_iff h hp, fun hleaf => ⟨fun t _ => ⟨?_, ?_⟩, ?_⟩,
    fun a q hgoto => ?_, ?_⟩
  · exact Construction.explicitAction_number_eq h hsize hp hleaf t
  · exact Construction.action_number_eq h hsize hp hleaf t
  · rw [Construction.invalidSymbol_eq h, Construction.explicitAction_number_eq h hsize hp hleaf,
      Construction.lookup_invalid h hp]
    rfl
  · have hat := Construction.gotoAt_number_eq h hp hgoto
    refine ⟨hat, fun hfits => ?_⟩
    -- the column is taken modulo 2 ^ 32 with a sign, which changes nothing below 2 ^ 31
    have hcolumn : Int.bmod (c.number s) 0x100000000 = c.number s := by
      rw [Int.bmod_eq_of_le] <;> omega
    rw [ParseTable.goto, hcolumn]
    exact hat
  · rw [← ParseTable.defaultRule_eq_ok, Construction.table_eq h]
    exact Encoded.defaultRule_number c.grammar settings.defaultText hs

/-- The theorem for sums, in state 0: an identifier is shifted into a leaf, and so is coded as the
    reduction there; nothing else is expected; the goto on `T` leads to a leaf as well. -/
theorem table_readback_sums : ∃ c row, sums.build = .ok c ∧ sums.rules.size ≤ 32765 ∧
    c.decisions.rows[0]? = some row ∧ row = ⟨[(1, .shift 3)], [(1, 1), (2, 2)], .error⟩ ∧
    c.table.explicitAction (c.number 0) 1 = .ok (some 6) ∧
    c.table.explicitAction (c.number 0) 2 = .ok none ∧
    c.table.action (c.number 0) 2 = .ok (-32767) ∧
    c.table.explicitAction (c.number 0) c.table.invalidSymbol = .ok none ∧
    c.table.goto 2 (c.number 0) = .ok 5 ∧ c.table.actionDefault[c.number 0]? = some 32767 := by
  have hrow : (Construction.ofGrammar {} sumsGrammar).decisions.rows[0]? =
      some ⟨[(1, .shift 3)], [(1, 1), (2, 2)], .error⟩ := by
    rw [sums_rows]
    rfl
  have hleaf : (Construction.ofGrammar {} sumsGrammar).isLeaf 0 = false := rfl
  have hnumber : (Construction.ofGrammar {} sumsGrammar).number 0 = 0 := by
    rw [Construction.number, Construction.coding, sums_rows]
    rfl
  have hshift : (Construction.ofGrammar {} sumsGrammar).coding.actionCode (.shift 3) = 6 := by
    rw [Construction.coding, sums_rows]
    rfl
  have hgoto : (Construction.ofGrammar {} sumsGrammar).coding.stateCode 2 = 5 := by
    rw [Construction.coding, sums_rows]
    rfl
  have hcount : (Construction.ofGrammar {} sumsGrammar).grammar.terminalCount = 3 := rfl
  obtain ⟨-, hactions, hgotos, hdefault⟩ := table_readback sums_build (by decide) hrow
  obtain ⟨hall, hinvalid⟩ := hactions hleaf
  obtain ⟨hid, -⟩ := hall 1 (by rw [hcount]; decide)
  obtain ⟨hplus, hplus'⟩ := hall 2 (by rw [hcount]; decide)
  obtain ⟨-, hT⟩ := hgotos 2 2 (by decide)
  refine ⟨_, _, sums_build, by decide, hrow, rfl, ?_, hplus, hplus', hinvalid, ?_, hdefault⟩
  · rw [← hshift]
    exact hid
  · rw [← hgoto]
    exact hT (by rw [hnumber]; decide)

end Lalr
