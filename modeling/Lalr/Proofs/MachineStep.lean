/-
  One step of the machine, in terms of the automaton.

  The machine's stack holds the codes of the states on a path.  With `p` the last of these states,

    * where rule `r` is completed, the right side of `r` lies on the path, and the state below it
      has a move on the left side (`Construction.uncover`).  Reducing by `r` follows that move
      (`Construction.reduce_eq`);
    * where an action is looked up, it is the action in the row of `p`: a shift is made at once, for
      anything else the machine sets about a reduction (`Construction.act_eq`).
-/
import Mathlib
import Lalr.Proofs.Readback
import Lalr.Proofs.Steps

namespace Lalr

namespace Construction

variable {d : Declarations} {settings : Settings} {c : Construction} {m : Configuration}
  {p q q' : Nat} {ps qs : List Nat} {α : List Symbol}

section

variable (h : d.build settings = .ok c)
include h

/-- Where rule `r` is completed, its right side lies on the path; below it stands a state that has
    the rule with the dot in front, and so a move on its left side. -/
theorem uncover (hpath : Path c.automaton.edge (p :: ps) α) {r : Nat} (hr : r ≠ 0)
    (hcompletes : (c.automaton.state p).Completes c.grammar r) :
    r < c.grammar.rules.size ∧ ∃ β q qs q',
      (p :: ps).drop (c.grammar.rule r).rhs.length = q :: qs ∧ α = β ++ (c.grammar.rule r).rhs ∧
      Path c.automaton.edge (q :: qs) β ∧
      c.automaton.edge q (.nonterminal (c.grammar.rule r).lhs) q' := by
  have wf := wellFormed h
  have hinv := automaton_inv h
  have hw := hinv.sound
  have hp := hw.lt_of_leads hpath.leads
  have hrule := rule_lt_of_completes h hp hcompletes
  obtain ⟨⟨r', dot⟩, hc, rfl, hcomplete⟩ := hcompletes
  have hfits := (hw.closed hp).fits wf hc
  -- only a short rule is completed
  have hshort := hfits.isShort_of_complete hcomplete
  obtain rfl : dot = (c.grammar.rule r').rhs.length := hfits.dot_of_complete hcomplete
  obtain ⟨β, q, qs, hdrop, hα, hpath', hfront⟩ := hpath.pop wf hw hc
  rw [List.take_length] at hα
  -- the left side is expected in the state that comes to light
  have hq := hw.lt_of_leads hpath'.leads
  obtain ⟨b, hb, hnext⟩ := hw.expected wf hq hr hshort hfront
  obtain ⟨q', he⟩ := hinv.moved hq hb hnext
  exact ⟨hrule, β, q, qs, q', hdrop, hα, hpath', he⟩

/-- A state is a leaf if its row is that of a leaf.  State 0, which never counts as one, has a move
    on the start symbol. -/
theorem isLeaf_eq (hp : p < c.automaton.states.size) : c.isLeaf p = (c.coding.row p).isLeaf := by
  have hinv := automaton_inv h
  have wf := wellFormed h
  rcases Nat.eq_zero_or_pos p with rfl | hpos
  · obtain ⟨a, ha, -⟩ := wf.start_inner
    have hnext : (⟨0, 0⟩ : Core).next? c.grammar = some (.nonterminal a) := by
      rw [Core.next?, Core.afterDot_eq, wf.rhs_zero, ha]
      rfl
    obtain ⟨q, he⟩ := hinv.moved hp (hinv.sound.kernelHas_start.mpr rfl).has hnext
    rw [row_not_leaf_of_goto h hp he]
    rfl
  · show (p != 0 && (c.coding.row p).isLeaf) = _
    rw [bne_iff_ne.mpr (Nat.ne_of_gt hpos), Bool.true_and]

/-- What the row of a state says, the automaton allows. -/
theorem action_spec (hp : p < c.automaton.states.size) (t : Nat) :
    match (c.coding.row p).action t with
    | .shift q => c.automaton.edge p (.terminal t) q
    | .reduce r => r ≠ 0 ∧ (c.automaton.state p).Completes c.grammar r
    | .accept => (c.automaton.state p).Completes c.grammar 0
    | .error => True := by
  unfold ActionRow.action
  -- an entry is allowed, and so is the fallback
  cases hlookup : (c.coding.row p).actions.lookup t with
  | some action =>
    have hallowed := allowed_of_lookup h hp hlookup
    cases action with
    | shift q => exact hallowed
    | reduce r => exact hallowed
    | accept => exact hallowed.elim
    | error => trivial
  | none =>
    show match (c.coding.row p).fallback with
      | .shift q => _
      | .reduce r => _
      | .accept => _
      | .error => _
    rw [row_eq h hp]
    rcases (c.automaton.state p).fallback_cases c.grammar p with
      ⟨hzero, hfall⟩ | ⟨-, r, hfall, hr, hcompletes⟩ | ⟨-, hfall⟩
    · rw [hfall]
      exact hzero
    · rw [hfall]
      exact ⟨hr, hcompletes⟩
    · rw [hfall]
      trivial

/-- A reduction takes the right side off the stack and enters the state that the left side leads to.
    -/
theorem reduce_eq {r : Nat} (hrule : r < c.grammar.rules.size)
    (hstack : m.stack.drop (c.grammar.rule r).rhs.length = (q :: qs).map c.code)
    (he : c.automaton.edge q (.nonterminal (c.grammar.rule r).lhs) q') (state : Nat)
    (symbol : Int) : m.reduce c.table r state symbol =
      .next { m with stack := (q' :: q :: qs).map c.code, phase := c.phaseIn q' state symbol }
        (some (.reduce r)) := by
  have hw := (automaton_inv h).sound
  unfold Configuration.reduce
  rw [ruleToLength_eq h hrule, ruleToNonterminal_eq h hrule]
  simp only [Int.toNat_natCast, hstack, List.map_cons, List.headD_cons,
    gotoAt_edge h (hw.edge_src he) he, phase_enter h (hw.edge_lt he)]
  rfl

/-- The machine reduces by a rule that is neither 0 nor the unexpected one. -/
theorem step_reduce {r : Nat} {state : Nat} {symbol : Int}
    (hphase : m.phase = .reducing r state symbol) (hr : r ≠ 0) (hr' : (r : Int) ≠ unexpectedRule) :
    m.step c.table = m.reduce c.table r state symbol := by
  rw [Configuration.step, hphase]
  simp only [unexpectedRule_eq h]
  rw [if_neg (by omega), if_neg hr', if_neg (by omega), Int.toNat_natCast]

theorem step_reject {state : Nat} {symbol : Int}
    (hphase : m.phase = .reducing unexpectedRule state symbol) :
    m.step c.table = .halt (.rejected state symbol) := by
  rw [Configuration.step, hphase]
  simp only [unexpectedRule_eq h]
  rfl

end

/-- What the machine does about an action in state `p` on terminal `t`: it enters the state that is
    shifted to, or sets about the reduction. -/
def perform (c : Construction) (m : Configuration) (p t : Nat) : Action → Step
  | .shift q =>
    .next { m with stack := c.code q :: m.stack, look := none, phase := c.phaseIn q (c.code p) t }
      (some (.shift (c.code p) t))
  | action => .next { m with phase := .reducing (Coding.fallbackRule action) (c.code p) t } none

theorem perform_of_ne_shift {action : Action} (hshift : ∀ q, action ≠ .shift q) (p t : Nat) :
    c.perform m p t action =
      .next { m with phase := .reducing (Coding.fallbackRule action) (c.code p) t } none := by
  cases action with
  | shift q => exact absurd rfl (hshift q)
  | reduce r => rfl
  | accept => rfl
  | error => rfl

/-- In a state that is no leaf the machine performs the action of the state's row. -/
theorem act_eq (h : d.build settings = .ok c) (hsize : c.grammar.rules.size ≤ 32766)
    (hp : p < c.automaton.states.size) (hleaf : c.isLeaf p = false)
    (hstack : m.stack = (p :: ps).map c.code) {t : Nat} (hsymbol : (m.peek c.table).1 = t) :
    m.act c.table = c.perform (m.peek c.table).2 p t ((c.coding.row p).action t) := by
  have hw := (automaton_inv h).sound
  have htop : (m.peek c.table).2.top = c.code p := by
    rw [Configuration.top, (m.peek_stack c.table).1, hstack]
    rfl
  have hentry := explicitAction_number_eq h hsize hp hleaf t
  rw [number, ← code_of_not_leaf h hp hleaf] at hentry
  unfold Configuration.act
  simp only [htop, hsymbol, hentry, ActionRow.action]
  -- what the row has no entry for is left to its fallback
  cases hlookup : (c.coding.row p).actions.lookup t with
  | none =>
    simp only [Option.map_none, Option.getD_none, defaultRule_eq h hp hleaf]
    have hshift := fallback_ne_shift h hp
    cases hfall : (c.coding.row p).fallback with
    | shift q => exact absurd hfall (hshift q)
    | reduce r => rfl
    | accept => rfl
    | error => rfl
  | some action =>
    have hallowed := allowed_of_lookup h hp hlookup
    simp only [Option.map_some, Option.getD_some]
    cases action with
    | shift q =>
      -- a shift has the code of the state it enters, which tells whether that is a leaf
      have hq := hw.edge_lt hallowed
      have hcode : c.coding.actionCode (.shift q) = c.coding.stateCode q := rfl
      rw [hcode, if_pos (stateCode_pos h hq (hw.edge_pos hallowed)), phase_enter h hq]
      rfl
    | reduce r =>
      rw [if_neg (by show ¬ 0 < -(r : Int); omega)]
      show Step.next { (m.peek c.table).2 with phase := .reducing (- -(r : Int)) _ _ } none = _
      rw [Int.neg_neg]
      rfl
    | accept => exact hallowed.elim
    | error => rfl

end Construction

end Lalr
