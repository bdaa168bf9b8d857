/-
  The parse table, in terms of the automaton.

  State `p` of the automaton stands on the machine's stack as `code p`.  A leaf has the code of its
  reduction; any other state has its number, under which the table knows its actions:

    * a shift on `t` enters the state that `t` leads to (`explicitAction_spec`);
    * a reduction is by a rule that the state completes, or by the unexpected one (`Reduction`);
    * a goto enters the state that the nonterminal leads to (`gotoAt_edge`).

  The state that completes rule 0 is a leaf (`isLeaf_of_final`), so nothing is decided there.
-/
import Mathlib
import Lalr.Proofs.Build
import Lalr.Proofs.Decision
import Lalr.Proofs.Encoding
import Lalr.Proofs.Path

namespace Lalr

namespace Construction

/-- How the decisions are coded. -/
def coding (c : Construction) : Coding :=
  Coding.ofRows c.decisions.rows

/-- Is entering state `p` folded into a reduction? -/
def isLeaf (c : Construction) (p : Nat) : Bool :=
  Numbering.isLeaf c.decisions.rows p

/-- What stands on the stack for state `p`. -/
def code (c : Construction) (p : Nat) : Nat :=
  (c.coding.stateCode p).toNat

/-- What the machine does when it has entered state `p`: in a leaf it reduces at once, elsewhere it
    decides.  A syntax error is blamed on `state` and `symbol`. -/
def phaseIn (c : Construction) (p state : Nat) (symbol : Int) : Phase :=
  if c.isLeaf p then .reducing (Coding.fallbackRule (c.coding.row p).fallback) state symbol
  else .deciding

/-- What a state may reduce by: a rule that it completes, or the unexpected one. -/
inductive Reduction (c : Construction) (p : Nat) : Int → Prop
  | rule {r : Nat} (h : (c.automaton.state p).Completes c.grammar r) : Reduction c p r
  | unexpected : Reduction c p unexpectedRule

theorem Reduction.nonneg {c : Construction} {p : Nat} {rule : Int} (h : Reduction c p rule) :
    0 ≤ rule := by
  cases h with
  | rule => exact Int.natCast_nonneg _
  | unexpected => decide

/-- A state is left by an error or by reducing a rule that it completes. -/
theorem Reduction.cases {c : Construction} {p : Nat} {rule : Int} (h : Reduction c p rule) :
    rule = unexpectedRule ∨ ∃ r : Nat, rule = r ∧ (r : Int) ≠ unexpectedRule ∧
      (c.automaton.state p).Completes c.grammar r := by
  cases h with
  | @rule r hr =>
    by_cases hne : (r : Int) = unexpectedRule
    · exact Or.inl hne
    · exact Or.inr ⟨r, rfl, hne, hr⟩
  | unexpected => exact Or.inl rfl

theorem Reduction.completes {c : Construction} {p r : Nat} (h : Reduction c p r)
    (hr : (r : Int) ≠ unexpectedRule) : (c.automaton.state p).Completes c.grammar r := by
  generalize hrule : (r : Int) = rule at h hr
  cases h with
  | rule h =>
    rw [Int.ofNat_inj.mp hrule]
    exact h
  | unexpected => exact absurd rfl hr

theorem Reduction.completes_zero {c : Construction} {p : Nat} (h : Reduction c p 0) :
    (c.automaton.state p).Completes c.grammar 0 :=
  h.completes (r := 0) (by decide)

section

variable {d : Declarations} {settings : Settings} {c : Construction}
  (h : d.build settings = .ok c)
include h

theorem size_rows : c.decisions.rows.size = c.automaton.states.size := by
  rw [decisions_eq h, Decisions.size_rows]

variable {p : Nat}

/-- The row of a state is what was decided for it. -/
theorem row_eq (hp : p < c.automaton.states.size) :
    c.coding.row p = ((c.automaton.state p).actionRow c.grammar p).1 := by
  rw [coding, Coding.ofRows, Coding.row, decisions_eq h, Array.getD_eq_getD_getElem?,
    Decisions.rows_getElem?, Automaton.state, Array.getD_eq_getD_getElem?,
    Array.getElem?_eq_getElem hp]
  rfl

theorem sortedByKey_row (p : Nat) : SortedByKey (c.coding.row p).actions := by
  by_cases hp : p < c.automaton.states.size
  · rw [row_eq h hp, State.actionRow_actions]
    exact sortedByKey_entriesOf _ _
  · have hnone : c.coding.row p = default := by
      rw [coding, Coding.ofRows, Coding.row, getD_of_size_le]
      rw [size_rows h]
      exact Nat.le_of_not_lt hp
    rw [hnone]
    exact List.Pairwise.nil

/-! ## Codes of states

  The codes of leaves lie past the numbers of all other states.  So a code tells whether it is
  that of a leaf. -/

/-- The code of a state that is no leaf is its new number. -/
theorem stateCode_of_not_leaf (hp : p < c.automaton.states.size) (hleaf : c.isLeaf p = false) :
    c.coding.stateCode p = c.coding.numbering.number p ∧
      c.coding.stateCode p < c.table.nonLeafCount := by
  have hlt := Coding.number_lt (by rw [size_rows h]; exact hp) hleaf
  have hcode : c.coding.stateCode p = c.coding.numbering.number p := if_pos hlt
  refine ⟨hcode, ?_⟩
  rw [hcode, table_eq h]
  exact Int.ofNat_lt.mpr hlt

/-- The code of a leaf tells the leaf's rule. -/
theorem stateCode_of_leaf (hp : p < c.automaton.states.size) (hleaf : c.isLeaf p = true) :
    c.coding.stateCode p =
      c.table.nonLeafCount + Coding.fallbackRule (c.coding.row p).fallback := by
  have hrows : p < c.decisions.rows.size := by rw [size_rows h]; exact hp
  have hge : ¬ c.coding.numbering.number p < c.coding.numbering.nonLeafCount := by
    intro hlt
    have hnot := (Numbering.number_lt_nonLeafCount_iff hrows).mp hlt
    rw [show Numbering.isLeaf c.decisions.rows p = true from hleaf] at hnot
    exact absurd hnot (by decide)
  rw [table_eq h]
  exact if_neg hge

/-- What a state reduces by where no entry says otherwise. -/
theorem reduction_fallback (hp : p < c.automaton.states.size) :
    Reduction c p (Coding.fallbackRule (c.coding.row p).fallback) := by
  rw [row_eq h hp]
  rcases (c.automaton.state p).fallback_cases c.grammar p with
    ⟨hzero, hfall⟩ | ⟨-, r, hfall, -, hr⟩ | ⟨-, hfall⟩
  · rw [hfall]
    exact .rule hzero
  · rw [hfall]
    exact .rule hr
  · rw [hfall]
    exact .unexpected

/-- The machine's phase where it has entered a state. -/
theorem phase_enter (hp : p < c.automaton.states.size) (state : Nat) (symbol : Int) :
    (if c.coding.stateCode p < c.table.nonLeafCount then Phase.deciding
      else .reducing (c.coding.stateCode p - c.table.nonLeafCount) state symbol) =
    c.phaseIn p state symbol := by
  unfold phaseIn
  cases hleaf : c.isLeaf p with
  | false => exact if_pos (stateCode_of_not_leaf h hp hleaf).2
  | true =>
    have hnonneg := (reduction_fallback h hp).nonneg
    have hcode := stateCode_of_leaf h hp hleaf
    rw [if_neg (by omega), hcode, add_sub_cancel_left]
    rfl

/-- No state but state 0 has code 0. -/
theorem stateCode_pos (hp : p < c.automaton.states.size) (hpos : 0 < p) :
    0 < c.coding.stateCode p := by
  have hrows : 0 < c.decisions.rows.size := by
    rw [size_rows h]
    exact Nat.zero_lt_of_lt hp
  have hcount : 0 < c.table.nonLeafCount := by
    have hzero := (Numbering.number_lt_nonLeafCount_iff hrows).mpr Numbering.isLeaf_zero
    rw [table_eq h]
    exact Nat.zero_lt_of_lt hzero
  cases hleaf : c.isLeaf p with
  | true =>
    have hnonneg := (reduction_fallback h hp).nonneg
    rw [stateCode_of_leaf h hp hleaf]
    omega
  | false =>
    rw [(stateCode_of_not_leaf h hp hleaf).1]
    refine Int.natCast_pos.mpr (Nat.pos_of_ne_zero fun h0 => ?_)
    have hp' : p < c.decisions.rows.size := by
      rw [size_rows h]
      exact hp
    -- state 0 has number 0 already
    have hget := Numbering.order_number hp'
    have hzero := Numbering.order_number hrows
    rw [Numbering.number_zero] at hzero
    rw [show (Numbering.ofRows c.decisions.rows).number p = 0 from h0, hzero] at hget
    injection hget with hget
    exact absurd hget (Nat.ne_of_lt hpos)

/-- State 0 is no leaf and has number 0. -/
theorem code_zero : c.code 0 = 0 ∧ c.isLeaf 0 = false := by
  have hpos : 0 < c.automaton.states.size := (automaton_inv h).sound.pos
  refine ⟨?_, rfl⟩
  rw [code, (stateCode_of_not_leaf h hpos rfl).1]
  exact Numbering.number_zero

theorem code_of_not_leaf (hp : p < c.automaton.states.size) (hleaf : c.isLeaf p = false) :
    c.code p = c.coding.numbering.number p := by
  rw [code, (stateCode_of_not_leaf h hp hleaf).1]
  rfl

/-- What a row says explicitly, the state allows. -/
theorem allowed_of_lookup (hp : p < c.automaton.states.size) {t : Nat} {action : Action}
    (hlookup : (c.coding.row p).actions.lookup t = some action) :
    Ballot.Allowed c.grammar (c.automaton.state p) t action := by
  rw [row_eq h hp, State.lookup_actions] at hlookup
  exact (c.automaton.state p).ballot_sound c.grammar p (Option.filter_eq_some_iff.mp hlookup).1

/-! ## The final state

  Behind rule 0 no symbol follows, so the state has neither shifts nor gotos. -/

/-- No symbol stands after a dot in the state that completes rule 0. -/
theorem no_move_of_final (hp : p < c.automaton.states.size)
    (hzero : (c.automaton.state p).Completes c.grammar 0) (x : Symbol) (q : Nat) :
    ¬ c.automaton.edge p x q := by
  intro he
  have wf := wellFormed h
  have hw := (automaton_inv h).sound
  obtain ⟨-, -, honly⟩ := hw.final wf hp hzero
  obtain ⟨b, hb, hnext⟩ := hw.exists_next he
  rw [honly b hb, Core.next?_eq_getElem?, wf.rhs_zero] at hnext
  exact absurd hnext (by simp)

/-- Nothing is decided in the state that completes rule 0. -/
theorem isLeaf_of_final (hp : p < c.automaton.states.size)
    (hzero : (c.automaton.state p).Completes c.grammar 0) :
    c.isLeaf p = true ∧ (c.coding.row p).fallback = .accept := by
  have wf := wellFormed h
  have hw := (automaton_inv h).sound
  obtain ⟨hhas, -, honly⟩ := hw.final wf hp hzero
  have hp0 : 0 < p := hw.pos_of_dot wf hhas (by decide)
  have hfall : (c.coding.row p).fallback = .accept := by
    rw [row_eq h hp]
    rcases (c.automaton.state p).fallback_cases c.grammar p with ⟨-, hf⟩ | ⟨hnot, -⟩ | ⟨hnot, -⟩
    · exact hf
    · exact absurd hzero hnot
    · exact absurd hzero hnot
  have hmoves : ∀ x q, ¬ c.automaton.edge p x q := no_move_of_final h hp hzero
  -- an entry would take a move or complete another rule, and the state does neither
  have hactions : (c.coding.row p).actions = [] := by
    refine List.eq_nil_iff_forall_not_mem.mpr fun entry hmem => ?_
    obtain ⟨t, action⟩ := entry
    have hallowed := allowed_of_lookup h hp ((sortedByKey_row h p).lookup_eq_some_iff.mpr hmem)
    cases action with
    | shift q => exact hmoves _ _ hallowed
    | reduce r =>
      obtain ⟨hne, core, hcore, hrule, -⟩ := hallowed
      rw [honly core hcore] at hrule
      exact hne hrule.symm
    | accept => exact hallowed
    | error =>
      obtain ⟨q, hq⟩ := hallowed
      exact hmoves _ _ hq
  have hgotos : (c.coding.row p).gotos = [] := by
    refine List.eq_nil_iff_forall_not_mem.mpr fun entry hmem => ?_
    obtain ⟨a, q⟩ := entry
    rw [row_eq h hp] at hmem
    exact hmoves _ _ (State.mem_gotos.mp hmem)
  refine ⟨?_, hfall⟩
  rw [isLeaf, Numbering.isLeaf, Bool.and_eq_true, bne_iff_ne]
  refine ⟨Nat.ne_of_gt hp0, ?_⟩
  show (c.coding.row p).isLeaf = true
  rw [ActionRow.isLeaf, hactions, hgotos, hfall]
  rfl

/-! ## Look-ups

  What the table answers is brought down to the rows of the automaton, and these to its items. -/

/-- The table has the coded entry of a state's row, unless its code is that of no entry. -/
theorem explicitAction_eq (hp : p < c.automaton.states.size) (hleaf : c.isLeaf p = false)
    (t : Nat) :
    c.table.explicitAction (c.code p) t =
      .ok ((((c.coding.row p).actions.lookup t).map c.coding.actionCode).filter
        (· != useDefault)) := by
  rw [code_of_not_leaf h hp hleaf, table_eq h]
  exact Encoded.explicitAction_number c.grammar settings.defaultText (sortedByKey_row h)
    (by rw [size_rows h]; exact hp) hleaf t

/-- An entry of the action table enters the state that the terminal leads to, or it is the code of a
    reduction. -/
theorem explicitAction_spec (hp : p < c.automaton.states.size) (hleaf : c.isLeaf p = false)
    (t : Nat) : ∃ found, c.table.explicitAction (c.code p) t = .ok found ∧
      ∀ code, found = some code →
        (∃ q, c.automaton.edge p (.terminal t) q ∧ code = c.coding.stateCode q) ∨
          (code < 0 ∧ Reduction c p (-code)) := by
  refine ⟨_, explicitAction_eq h hp hleaf t, fun code hcode => ?_⟩
  obtain ⟨action, hlookup, rfl⟩ := Option.map_eq_some_iff.mp (Option.filter_eq_some_iff.mp hcode).1
  -- an entry is an action that was decided, and what may be decided is known
  have hallowed := allowed_of_lookup h hp hlookup
  cases action with
  | shift q => exact Or.inl ⟨q, hallowed, rfl⟩
  | reduce r =>
    obtain ⟨hne, hr⟩ := hallowed
    refine Or.inr ⟨?_, ?_⟩
    · show -(r : Int) < 0
      omega
    · show Reduction c p (- -(r : Int))
      rw [Int.neg_neg]
      exact .rule hr
  | accept => exact hallowed.elim
  | error =>
    refine Or.inr ⟨?_, .unexpected⟩
    show -unexpectedRule < 0
    decide

/-- And it has the state's fallback. -/
theorem defaultRule_eq (hp : p < c.automaton.states.size) (hleaf : c.isLeaf p = false) :
    c.table.defaultRule (c.code p) = .ok (Coding.fallbackRule (c.coding.row p).fallback) := by
  rw [code_of_not_leaf h hp hleaf, table_eq h]
  exact Encoded.defaultRule_number c.grammar settings.defaultText (by rw [size_rows h]; exact hp)

/-- A state with a move on a nonterminal is no leaf. -/
theorem row_not_leaf_of_goto (hp : p < c.automaton.states.size) {a q : Nat}
    (he : c.automaton.edge p (.nonterminal a) q) : (c.coding.row p).isLeaf = false := by
  have hmem : (a, q) ∈ (c.coding.row p).gotos := by
    rw [row_eq h hp]
    exact State.mem_gotos.mpr he
  rw [ActionRow.isLeaf, List.isEmpty_eq_false_iff.mpr (List.ne_nil_of_mem hmem), Bool.and_false,
    Bool.false_and]

/-- Leaves are not left over nonterminals. -/
theorem not_leaf_of_goto (hp : p < c.automaton.states.size) {a q : Nat}
    (he : c.automaton.edge p (.nonterminal a) q) : c.isLeaf p = false := by
  show (_ && (c.coding.row p).isLeaf) = false
  rw [row_not_leaf_of_goto h hp he, Bool.and_false]

/-- A move is only on a nonterminal of the alphabet, and never on the one for the start. -/
theorem nonterminal_of_edge {a q : Nat} (he : c.automaton.edge p (.nonterminal a) q) :
    0 < a ∧ a < c.grammar.nonterminalCount := by
  obtain ⟨b, -, hnext⟩ := (automaton_inv h).sound.exists_next he
  exact Core.nonterminal_of_next? (wellFormed h) hnext

/-- A goto enters the state that the nonterminal leads to. -/
theorem gotoAt_edge (hp : p < c.automaton.states.size) {a q : Nat}
    (he : c.automaton.edge p (.nonterminal a) q) :
    c.table.gotoAt a (c.code p) = .ok (c.coding.stateCode q) := by
  have hw := (automaton_inv h).sound
  have hleaf := not_leaf_of_goto h hp he
  have ha := (nonterminal_of_edge h he).2
  rw [code_of_not_leaf h hp hleaf, table_eq h]
  refine Encoded.gotoAt_number c.grammar settings.defaultText (by rw [size_rows h]; exact hp)
    hleaf ha ?_
  show (c.coding.row p).gotos.lookup a = some q
  rw [row_eq h hp]
  exact State.lookup_gotos he fun he' => hw.edge_unique he' he

/-! ## Rules -/

theorem ruleToLength_eq {r : Nat} (hr : r < c.grammar.rules.size) :
    c.table.ruleToLength[r]? = some ((c.grammar.rule r).rhs.length : Int) := by
  rw [table_eq h]
  exact Encoded.ruleToLength_eq c.grammar settings.defaultText hr

theorem ruleToNonterminal_eq {r : Nat} (hr : r < c.grammar.rules.size) :
    c.table.ruleToNonterminal[r]? = some ((c.grammar.rule r).lhs : Int) := by
  rw [table_eq h]
  exact Encoded.ruleToNonterminal_eq c.grammar settings.defaultText hr

theorem unexpectedRule_eq : c.table.unexpectedRule = unexpectedRule := by
  rw [table_eq h]
  rfl

/-! ## Without conflicts

  In general a row has only what its state offers.  Without conflicts it has all of it. -/

section

variable (hbinding : ∀ t, c.grammar.alphabet.binding t = none) (hconflicts : c.conflicts = #[])
include hbinding hconflicts

/-- Everything that a state offers is taken. -/
theorem ballot_full (hp : p < c.automaton.states.size) :
    (∀ {t : Nat} {action : Action},
      ((c.automaton.state p).shifts c.grammar).getD t none = some action →
      ((c.automaton.state p).ballot c.grammar p).decided t = some action) ∧
    ∀ {r t : Nat}, r ≠ 0 → (c.automaton.state p).CompletesOn c.grammar r t →
      t < c.grammar.terminalCount →
      ((c.automaton.state p).ballot c.grammar p).decided t = some (.reduce r) := by
  rw [conflicts, decisions_eq h] at hconflicts
  refine State.ballot_full hbinding (Decisions.ballot_conflicts hconflicts ?_)
  rw [Automaton.state, Array.getD_eq_getD_getElem?, Array.getElem?_eq_getElem hp]
  rfl

/-- A state with a move on a terminal has the shift among its actions. -/
theorem lookup_shift {t q : Nat} (he : c.automaton.edge p (.terminal t) q) :
    (c.coding.row p).actions.lookup t = some (.shift q) := by
  have hw := (automaton_inv h).sound
  have hp := hw.edge_src he
  have ht : t < c.grammar.terminalCount := hw.terminal_lt (wellFormed h) he
  have hdec := (ballot_full h hbinding hconflicts hp).1
    (State.shifts_of_move (g := c.grammar) he ht fun he' => hw.edge_unique he' he)
  rw [row_eq h hp, State.lookup_actions, hdec, Option.filter_some, if_pos]
  rw [decide_eq_true_eq]
  rcases (c.automaton.state p).fallback_cases c.grammar p with
    ⟨-, hf⟩ | ⟨-, r, hf, -⟩ | ⟨-, hf⟩ <;> rw [hf] <;> simp

/-- Leaves are not left over any symbol. -/
theorem not_leaf_of_edge {x : Symbol} {q : Nat} (he : c.automaton.edge p x q) :
    c.isLeaf p = false := by
  have hp := (automaton_inv h).sound.edge_src he
  cases x with
  | nonterminal a => exact not_leaf_of_goto h hp he
  | terminal t =>
    have hmem := (sortedByKey_row h p).lookup_eq_some_iff.mp (lookup_shift h hbinding hconflicts he)
    show (_ && (c.coding.row p).isLeaf) = false
    rw [ActionRow.isLeaf, List.isEmpty_eq_false_iff.mpr (List.ne_nil_of_mem hmem), Bool.false_and,
      Bool.false_and, Bool.and_false]

/-- A state that completes a rule on a terminal reduces by it. -/
theorem action_reduce (hp : p < c.automaton.states.size) {r t : Nat} (hr : r ≠ 0)
    (hon : (c.automaton.state p).CompletesOn c.grammar r t) :
    (c.coding.row p).action t = .reduce r := by
  have ht : t < c.grammar.terminalCount := by
    obtain ⟨core, hlook, -⟩ := hon
    exact ((automaton_inv h).sound.closed hp).look_lt (wellFormed h) hlook
  have hdec := (ballot_full h hbinding hconflicts hp).2 hr hon ht
  rw [row_eq h hp]
  exact State.action_of_decided hdec

end

end

end Construction

end Lalr
