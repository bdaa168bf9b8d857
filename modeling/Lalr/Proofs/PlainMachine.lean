/-
  The machine on the table does what the plain machine does.

  The plain machine keeps the states of the automaton on its stack, looks its actions up in their
  rows, and follows their moves.  It knows no codes and no numbers, and it enters every state, a
  leaf as any other; in a leaf it reduces by the row's fallback, without asking for a token.

  The table has new numbers for the states, packs the rows, and folds entering a leaf into its
  reduction.  None of this shows (`parse_simulates_plain`):

    1. while the two agree (`Follows`), a step of the plain machine is a step on the table, if need
       be after one that only looks the action up (`Follows.step`);
    2. so what the one does in some number of steps the other does in some number of steps, and they
       end in the same way or not at all.
-/
import Mathlib
import Lalr.Proofs.Codes
import Lalr.Proofs.MachineStep

namespace Lalr

/-! ## The plain machine

  It is defined from the automaton and its rows alone, and it can be run. -/

/-- A machine on the states of the automaton, the last entered first. -/
structure PlainMachine where
  states : List Nat
  look : Option Nat
  input : List Nat
  deriving DecidableEq, Repr

/-- What was done so far, and how it ended, `none` if it did not. -/
structure Trace where
  events : List Event
  outcome : Option Outcome
  deriving DecidableEq, Repr

namespace PlainMachine

def start (input : List Nat) : PlainMachine where
  states := [0]
  look := none
  input

/-- The state on top of the stack. -/
def top (u : PlainMachine) : Nat :=
  u.states.headD 0

/-- The lookahead, and the machine that has it. -/
def peek (g : Grammar) (u : PlainMachine) : Nat × PlainMachine :=
  match u.look with
  | some t => (t, u)
  | none =>
    match u.input with
    | [] => (g.terminalOf 0, { u with look := some (g.terminalOf 0) })
    | raw :: rest => (g.terminalOf raw, { u with look := some (g.terminalOf raw), input := rest })

/-- Takes the right side of a rule off the stack, and follows the move on its left side. -/
def reduce (c : Construction) (u : PlainMachine) (r : Nat) :
    Except Outcome (Event × PlainMachine) :=
  match u.states.drop (c.grammar.rule r).rhs.length with
  | [] => .error .fault
  | q :: qs =>
    match (c.automaton.state q).moves.find? (·.1 == .nonterminal (c.grammar.rule r).lhs) with
    | some (_, target) => .ok (.reduce r, { u with states := target :: q :: qs })
    | none => .error .fault

/-- One step: what is done and the machine then, or how it ends. -/
def step (c : Construction) (u : PlainMachine) : Except Outcome (Event × PlainMachine) :=
  let row := c.decisions.rows.getD u.top default
  if row.isLeaf then
    match row.fallback with
    | .reduce r => u.reduce c r
    | .accept => .error .accepted
    | .shift _ | .error => .error .fault
  else
    let (t, u) := u.peek c.grammar
    match row.action t with
    | .shift target => .ok (.shift u.top t, { u with states := target :: u.states, look := none })
    | .reduce r => u.reduce c r
    | .accept => .error .accepted
    | .error => .error (.rejected u.top t)

/-- Takes steps until the machine ends, but at most so many. -/
def run (c : Construction) : Nat → PlainMachine → Trace
  | 0, _ => ⟨[], none⟩
  | n + 1, u =>
    match u.step c with
    | .error outcome => ⟨[], some outcome⟩
    | .ok (event, u) =>
      let rest := run c n u
      ⟨event :: rest.events, rest.outcome⟩

end PlainMachine

/-! ## New numbers

  Events and outcomes name states.  To be compared, those of the plain machine get the numbers
  that the table has for them. -/

/-- An event with other numbers for the states. -/
def Event.renumber (number : Nat → Nat) : Event → Event
  | .shift state symbol => .shift (number state) symbol
  | .reduce rule => .reduce rule

/-- An outcome with other numbers for the states. -/
def Outcome.renumber (number : Nat → Nat) : Outcome → Outcome
  | .rejected state symbol => .rejected (number state) symbol
  | .accepted => .accepted
  | .fault => .fault

/-- A trace with other numbers for the states. -/
def Trace.renumber (number : Nat → Nat) (trace : Trace) : Trace where
  events := trace.events.map (Event.renumber number)
  outcome := trace.outcome.map (Outcome.renumber number)

/-- What can be seen of a run. -/
def Run.trace (run : Run) : Trace where
  events := run.events.toList
  outcome := run.outcome

/-! ## Where both agree

  The two agree when the machine on the table has entered the state on top.  If that is a leaf,
  it is about to reduce; the plain machine is in the leaf and about to ask its row. -/

variable {d : Declarations} {settings : Settings} {c : Construction} {m : Configuration}
  {u : PlainMachine} {p r : Nat} {ps : List Nat} {α : List Symbol}

namespace Construction

section

variable (h : d.build settings = .ok c)
include h

/-- The move that is found is the only one on the symbol. -/
theorem find_move {x : Symbol} {q q' : Nat} (he : c.automaton.edge q x q') :
    (c.automaton.state q).moves.find? (·.1 == x) = some (x, q') := by
  have hw := (automaton_inv h).sound
  cases hfound : (c.automaton.state q).moves.find? (·.1 == x) with
  | none => exact absurd (Array.find?_eq_none.mp hfound _ he) (by simp)
  | some move =>
    obtain ⟨y, target⟩ := move
    have hy : y = x := by simpa using Array.find?_some hfound
    subst hy
    have he' : c.automaton.edge q y target := Array.mem_of_find?_eq_some hfound
    rw [hw.edge_unique he' he]

end

end Construction

/-- The stacks are the same path, and both machines have read the same. -/
structure Mirrors (c : Construction) (m : Configuration) (u : PlainMachine) (p : Nat)
    (ps : List Nat)
    (α : List Symbol) : Prop where
  path : Path c.automaton.edge (p :: ps) α
  states : u.states = p :: ps
  stack : m.stack = (p :: ps).map c.code
  look : m.look = u.look.map Nat.cast
  input : m.input = u.input

/-- The machine on the table has entered the state on top of the plain machine's stack. -/
def Follows (c : Construction) (m : Configuration) (u : PlainMachine) : Prop :=
  ∃ p ps α state symbol, Mirrors c m u p ps α ∧ m.phase = c.phaseIn p state symbol

theorem Follows.start (h : d.build settings = .ok c) (input : List Nat) :
    Follows c (Configuration.start input) (PlainMachine.start input) := by
  obtain ⟨hcode, hleaf⟩ := Construction.code_zero h
  refine ⟨0, [], [], 0, 0, ⟨.start, rfl, ?_, rfl, rfl⟩, ?_⟩
  · show [0] = [c.code 0]
    rw [hcode]
  · show Phase.deciding = if c.isLeaf 0 then _ else _
    rw [hleaf]
    rfl

theorem Mirrors.top (hm : Mirrors c m u p ps α) : u.top = p := by
  rw [PlainMachine.top, hm.states]
  rfl

/-- The row that the plain machine reads is that of the last state, and it is a leaf's exactly if
    the state is a leaf of the table. -/
theorem Mirrors.row (h : d.build settings = .ok c) (hm : Mirrors c m u p ps α) :
    c.decisions.rows.getD u.top default = c.coding.row p ∧
      c.isLeaf p = (c.coding.row p).isLeaf := by
  have hp := (Construction.automaton_inv h).sound.lt_of_leads hm.path.leads
  refine ⟨?_, Construction.isLeaf_eq h hp⟩
  rw [hm.top]
  rfl

/-- Both take the same token. -/
theorem Mirrors.peek (h : d.build settings = .ok c) (hm : Mirrors c m u p ps α) :
    (m.peek c.table).1 = (u.peek c.grammar).1 ∧
      Mirrors c (m.peek c.table).2 (u.peek c.grammar).2 p ps α := by
  obtain ⟨stack, look, input, consumed, phase⟩ := m
  obtain ⟨states, seen, rest⟩ := u
  obtain ⟨hpath, hstates, hstack, hlook, hinput⟩ := hm
  obtain rfl : look = seen.map Nat.cast := hlook
  obtain rfl : input = rest := hinput
  cases seen with
  | some t => exact ⟨rfl, hpath, hstates, hstack, rfl, rfl⟩
  | none =>
    cases input with
    | nil =>
      have hsymbol := Construction.symbolOf_eq h 0
      exact ⟨hsymbol, hpath, hstates, hstack, congrArg some hsymbol, rfl⟩
    | cons raw rest =>
      have hsymbol := Construction.symbolOf_eq h raw
      exact ⟨hsymbol, hpath, hstates, hstack, congrArg some hsymbol, rfl⟩

/-- Both reduce by a rule that the last state completes. -/
theorem Mirrors.reduce (h : d.build settings = .ok c) (hsize : c.grammar.rules.size ≤ 32766)
    (hm : Mirrors c m u p ps α) (hr : r ≠ 0)
    (hcompletes : (c.automaton.state p).Completes c.grammar r) {state : Nat} {symbol : Int}
    (hphase : m.phase = .reducing r state symbol) :
    ∃ m' u', m.step c.table = .next m' (some (.reduce r)) ∧ u.reduce c r = .ok (.reduce r, u') ∧
      Follows c m' u' := by
  obtain ⟨hrule, β, q, qs, q', hdrop, -, hpath, he⟩ := Construction.uncover h hm.path hr hcompletes
  have hne : (r : Int) ≠ unexpectedRule := by
    show (r : Int) ≠ 32767
    omega
  have hstep : m.step c.table = _ := (Construction.step_reduce h hphase hr hne).trans
    (Construction.reduce_eq h hrule (by rw [hm.stack, ← List.map_drop, hdrop]) he state symbol)
  have hreduce : u.reduce c r = .ok (.reduce r, { u with states := q' :: q :: qs }) := by
    unfold PlainMachine.reduce
    rw [hm.states, hdrop]
    show (match (c.automaton.state q).moves.find? _ with | some (_, target) => _ | none => _) = _
    rw [Construction.find_move h he]
  exact ⟨_, _, hstep, hreduce, q', q :: qs, _, state, symbol,
    ⟨.cross hpath he, rfl, rfl, hm.look, hm.input⟩, rfl⟩

/-- What a step of the plain machine shows, a step of the machine on the table shows with the new
    numbers. -/
def Matches (c : Construction) (m : Configuration) (u : PlainMachine) : Prop :=
  match u.step c with
  | .error outcome => m.step c.table = .halt (outcome.renumber c.number)
  | .ok (event, u') =>
    ∃ m', m.step c.table = .next m' (some (event.renumber c.number)) ∧ Follows c m' u'

section

variable (h : d.build settings = .ok c) (hsize : c.grammar.rules.size ≤ 32766)
include h hsize

/-- In a leaf both do what the fallback says, and neither takes a token. -/
theorem Mirrors.step_leaf (hm : Mirrors c m u p ps α) (hleaf : c.isLeaf p = true) {state : Nat}
    {symbol : Int} (hphase : m.phase = c.phaseIn p state symbol) : Matches c m u := by
  have hp := (Construction.automaton_inv h).sound.lt_of_leads hm.path.leads
  obtain ⟨hrow, hisLeaf⟩ := hm.row h
  rw [hleaf] at hisLeaf
  -- no token is invalid for a leaf, so its fallback is what it does in any case
  have hspec := Construction.action_spec h hp c.grammar.terminalCount
  rw [ActionRow.action, Construction.lookup_invalid h hp, Option.getD_none] at hspec
  rw [Construction.phaseIn, hleaf, if_pos rfl] at hphase
  unfold Matches PlainMachine.step
  simp only [hrow, ← hisLeaf, if_true]
  cases hfall : (c.coding.row p).fallback with
  | reduce r =>
    rw [hfall] at hphase hspec
    obtain ⟨hr, hcompletes⟩ := hspec
    obtain ⟨m', u', hstep, hreduce, hfollows⟩ := hm.reduce h hsize hr hcompletes hphase
    simp only [hreduce]
    exact ⟨m', hstep, hfollows⟩
  | accept =>
    rw [hfall] at hphase
    exact Configuration.step_accept hphase
  | shift q => exact absurd hfall (Construction.fallback_ne_shift h hp q)
  | error =>
    rw [ActionRow.isLeaf, hfall, Bool.and_false] at hisLeaf
    exact absurd hisLeaf (by decide)

/-- In a state that is no leaf both do what the row says about the next token.  A shift is made at
    once; for anything else the machine on the table first looks the action up. -/
theorem Mirrors.step_row (hm : Mirrors c m u p ps α) (hleaf : c.isLeaf p = false)
    (hphase : m.phase = .deciding) :
    ∃ m₁, (m₁ = m ∨ m.step c.table = .next m₁ none) ∧ Matches c m₁ u := by
  have hp := (Construction.automaton_inv h).sound.lt_of_leads hm.path.leads
  obtain ⟨hrow, hisLeaf⟩ := hm.row h
  rw [hleaf] at hisLeaf
  obtain ⟨hsymbol, hpeek⟩ := hm.peek h
  have hcode : c.code p = c.number p := Construction.code_of_not_leaf h hp hleaf
  have hspec := Construction.action_spec h hp (u.peek c.grammar).1
  have hact : m.step c.table = _ := (Configuration.step_deciding hphase).trans
    (Construction.act_eq h hsize hp hleaf hm.stack hsymbol)
  unfold Matches PlainMachine.step
  simp only [hrow, ← hisLeaf, hpeek.top, Bool.false_eq_true, if_false]
  cases haction : (c.coding.row p).action (u.peek c.grammar).1 with
  | shift q =>
    rw [haction] at hact hspec
    rw [Construction.perform, hcode, hpeek.stack] at hact
    refine ⟨m, Or.inl rfl, _, hact, q, p :: ps, _, c.number p, _, ⟨.cross hpeek.path hspec, ?_, rfl,
      rfl, hpeek.input⟩, rfl⟩
    rw [hpeek.states]
  | reduce r =>
    rw [haction] at hact hspec
    obtain ⟨hr, hcompletes⟩ := hspec
    -- the machine on the table is now about to reduce, and the plain one has read the same token
    have hready : Mirrors c { (m.peek c.table).2 with
        phase := .reducing r (c.code p) (u.peek c.grammar).1 } (u.peek c.grammar).2 p ps α :=
      ⟨hpeek.path, hpeek.states, hpeek.stack, hpeek.look, hpeek.input⟩
    obtain ⟨m', u', hstep, hreduce, hfollows⟩ := hready.reduce h hsize hr hcompletes rfl
    simp only [hreduce]
    exact ⟨_, Or.inr hact, m', hstep, hfollows⟩
  | accept =>
    rw [haction] at hact
    exact ⟨_, Or.inr hact, Configuration.step_accept rfl⟩
  | error =>
    rw [haction] at hact
    refine ⟨_, Or.inr hact, ?_⟩
    rw [Construction.step_reject h rfl, hcode]
    rfl

/-- A step of the plain machine is a step on the table, if need be after one that looks the action
    up. -/
theorem Follows.step (hm : Follows c m u) :
    ∃ m₁, (m₁ = m ∨ m.step c.table = .next m₁ none) ∧ Matches c m₁ u := by
  obtain ⟨p, ps, α, state, symbol, hm, hphase⟩ := hm
  cases hleaf : c.isLeaf p with
  | true => exact ⟨m, Or.inl rfl, hm.step_leaf h hsize hleaf hphase⟩
  | false =>
    rw [Construction.phaseIn, hleaf] at hphase
    exact hm.step_row h hsize hleaf hphase

end

/-! ## Runs

  The machine on the table takes up to twice as many steps, as looking an action up is a step of
  its own.  Nothing of it shows, so runs are compared by what they show. -/

/-- A run on the table shows what a run of the plain machine shows with the new numbers. -/
def Shows (c : Construction) (limit n : Nat) (m : Configuration) (u : PlainMachine) : Prop :=
  ∀ before : Array Event, (Run.extend c.table limit before m).trace =
    ⟨before.toList ++ ((PlainMachine.run c n u).renumber c.number).events,
      ((PlainMachine.run c n u).renumber c.number).outcome⟩

theorem Shows.zero (c : Construction) (m : Configuration) (u : PlainMachine) : Shows c 0 0 m u := by
  intro before
  show (⟨before.toList, none⟩ : Trace) = ⟨before.toList ++ [], none⟩
  rw [List.append_nil]

/-- Looking an action up shows nothing. -/
theorem Shows.lookup {limit n : Nat} {m₁ : Configuration} (h : Shows c limit n m₁ u)
    (hstep : m.step c.table = .next m₁ none) : Shows c (limit + 1) n m u := by
  intro before
  rw [Run.extend, hstep]
  show (Run.extend c.table limit (before ++ #[]) m₁).trace = _
  rw [Array.append_empty]
  exact h before

/-- Either both end in the next step, or both do the same and go on. -/
theorem Matches.cases (h : Matches c m u) : (∀ limit n, Shows c (limit + 1) (n + 1) m u) ∨
    ∃ m' u', Follows c m' u' ∧
      ∀ limit n, Shows c limit n m' u' → Shows c (limit + 1) (n + 1) m u := by
  unfold Matches at h
  -- both stop here, or both go on and follow each other further
  cases hplain : u.step c with
  | error outcome =>
    rw [hplain] at h
    have hhalt : m.step c.table = .halt (outcome.renumber c.number) := h
    refine Or.inl fun limit n before => ?_
    rw [Run.extend, hhalt, PlainMachine.run, hplain]
    show (⟨before.toList, _⟩ : Trace) = ⟨before.toList ++ [], _⟩
    rw [List.append_nil]
    rfl
  | ok next =>
    obtain ⟨event, u'⟩ := next
    rw [hplain] at h
    obtain ⟨m', hstep, hfollows⟩ := h
    refine Or.inr ⟨m', u', hfollows, fun limit n hshows before => ?_⟩
    rw [Run.extend, hstep, PlainMachine.run, hplain]
    show (Run.extend c.table limit (before ++ #[event.renumber c.number]) m').trace = _
    rw [hshows, Array.toList_append, List.append_assoc]
    rfl

section

variable (h : d.build settings = .ok c) (hsize : c.grammar.rules.size ≤ 32766)
include h hsize

/-- Whatever the plain machine does in some number of steps, the machine on the table does in some.
    -/
theorem Follows.exists_limit (n : Nat) (hm : Follows c m u) : ∃ limit, Shows c limit n m u := by
  induction n generalizing m u with
  | zero => exact ⟨0, Shows.zero c m u⟩
  | succ n ih =>
    obtain ⟨m₁, hfirst, hmatches⟩ := hm.step h hsize
    have hshows : ∃ limit, Shows c limit (n + 1) m₁ u := by
      rcases hmatches.cases with hend | ⟨m', u', hfollows, hnext⟩
      · exact ⟨1, hend 0 n⟩
      · obtain ⟨limit, hlimit⟩ := ih hfollows
        exact ⟨limit + 1, hnext limit n hlimit⟩
    obtain ⟨limit, hlimit⟩ := hshows
    rcases hfirst with rfl | hstep
    · exact ⟨limit, hlimit⟩
    · exact ⟨limit + 1, hlimit.lookup hstep⟩

/-- Whatever the machine on the table does within a limit, the plain machine does in some number of
    steps. -/
theorem Follows.exists_steps (limit : Nat) (hm : Follows c m u) : ∃ n, Shows c limit n m u := by
  induction limit using Nat.strong_induction_on generalizing m u with
  | _ limit ih =>
    -- the machines do the same, as long as the limit leaves them a step
    have hmatch : ∀ rest ≤ limit, ∀ {m₁ : Configuration}, Matches c m₁ u →
        ∃ n, Shows c rest n m₁ u := by
      intro rest hrest m₁ hmatches
      cases rest with
      | zero => exact ⟨0, Shows.zero c m₁ u⟩
      | succ rest =>
        rcases hmatches.cases with hend | ⟨m', u', hfollows, hnext⟩
        · exact ⟨1, hend rest 0⟩
        · obtain ⟨n, hn⟩ := ih rest hrest hfollows
          exact ⟨n + 1, hnext rest n hn⟩
    obtain ⟨m₁, hfirst, hmatches⟩ := hm.step h hsize
    rcases hfirst with rfl | hstep
    · exact hmatch limit (Nat.le_refl limit) hmatches
    · cases limit with
      | zero => exact ⟨0, Shows.zero c m u⟩
      | succ limit =>
        obtain ⟨n, hn⟩ := hmatch limit (Nat.le_succ limit) hmatches
        exact ⟨n, hn.lookup hstep⟩

end

/-- The machine on the table shifts and reduces as the plain machine does, with the states under
    their new numbers, and ends in the same way: it accepts, it refuses the same symbol in the same
    state, or it runs forever. -/
theorem parse_simulates_plain (h : d.build settings = .ok c) (hrules : d.rules.size ≤ 32765)
    (input : List Nat) :
    (∀ n, ∃ limit, (c.table.parse limit input).trace =
      (PlainMachine.run c n (PlainMachine.start input)).renumber c.number) ∧
    (∀ limit, ∃ n, (c.table.parse limit input).trace =
      (PlainMachine.run c n (PlainMachine.start input)).renumber c.number) ∧
    ((∀ limit, (c.table.parse limit input).outcome = none) ↔
      ∀ n, (PlainMachine.run c n (PlainMachine.start input)).outcome = none) := by
  -- the rules and the added one: no code runs into the two reserved ones
  have hsize : c.grammar.rules.size ≤ 32766 := by
    rw [(Declarations.build_spec h).1.size_rules]
    omega
  have hstart := Follows.start h input
  -- as many steps as the rounds take, and as many rounds as the steps take
  have hthere : ∀ n, ∃ limit, (c.table.parse limit input).trace =
      (PlainMachine.run c n (PlainMachine.start input)).renumber c.number := by
    intro n
    obtain ⟨limit, hlimit⟩ := hstart.exists_limit h hsize n
    exact ⟨limit, hlimit #[]⟩
  have hback : ∀ limit, ∃ n, (c.table.parse limit input).trace =
      (PlainMachine.run c n (PlainMachine.start input)).renumber c.number := by
    intro limit
    obtain ⟨n, hn⟩ := hstart.exists_steps h hsize limit
    exact ⟨n, hn #[]⟩
  refine ⟨hthere, hback, ?_, ?_⟩
  · intro hforever n
    obtain ⟨limit, hlimit⟩ := hthere n
    have houtcome := congrArg Trace.outcome hlimit
    rw [show (c.table.parse limit input).trace.outcome = none from hforever limit] at houtcome
    exact Option.map_eq_none_iff.mp houtcome.symm
  · intro hforever limit
    obtain ⟨n, hn⟩ := hback limit
    have houtcome : (c.table.parse limit input).outcome = _ := congrArg Trace.outcome hn
    rw [houtcome]
    exact Option.map_eq_none_iff.mpr (hforever n)

/-- The theorem for sums: after an identifier another one is refused.  The plain machine enters the
    leaves 3 and 2, and refuses in state 1, which keeps its number. -/
theorem parse_simulates_plain_sums : ∃ c limit, sums.build = .ok c ∧ sums.rules.size ≤ 32765 ∧
    PlainMachine.run c 4 (PlainMachine.start [257, 257]) =
      ⟨[.shift 0 1, .reduce 3, .reduce 2], some (.rejected 1 1)⟩ ∧ c.number 1 = 1 ∧
    (c.table.parse limit [257, 257]).reduced = [3, 2] ∧
    (c.table.parse limit [257, 257]).outcome = some (.rejected 1 1) := by
  have hplain : PlainMachine.run (Construction.ofGrammar {} sumsGrammar) 4
      (PlainMachine.start [257, 257]) =
      ⟨[.shift 0 1, .reduce 3, .reduce 2], some (.rejected 1 1)⟩ := by
    simp only [PlainMachine.run, PlainMachine.step, PlainMachine.reduce, sums_rows]
    decide +kernel
  have hnumber : (Construction.ofGrammar {} sumsGrammar).number 1 = 1 := by
    rw [Construction.number, Construction.coding, sums_rows]
    rfl
  obtain ⟨hthere, -⟩ := parse_simulates_plain sums_build (by decide) [257, 257]
  obtain ⟨limit, hlimit⟩ := hthere 4
  rw [hplain] at hlimit
  have hevents := congrArg Trace.events hlimit
  have houtcome := congrArg Trace.outcome hlimit
  refine ⟨_, limit, sums_build, by decide, hplain, hnumber, ?_, ?_⟩
  · exact congrArg (List.filterMap Event.reduction?) hevents
  · exact houtcome.trans (congrArg (fun state => some (Outcome.rejected state 1)) hnumber)

end Lalr
