/-
  One action for each state and terminal.

  A state offers a shift on a terminal that it can cross, and a reduction by a rule on every
  terminal in the lookahead of the rule's complete item.  Offers are taken in this order: the
  shifts, then the reductions, the lowest rule first.  Where two meet,

    1. a shift and a reduction are settled by precedence if the terminal and the rule both have a
       level: the higher level wins, and on one level the associativity decides (left: reduce,
       right: shift, nonassoc: an error);
    2. otherwise the shift wins, and of two reductions the lower rule; both are conflicts, and
       the rule that lost is remembered.

  The fallback of a state is to accept if it completes rule 0, else its most frequent reduction,
  else an error.  Actions equal to the fallback are left out of the row.
-/
import Lalr.Automaton

namespace Lalr

/-! ## The member of a list that occurs most often -/

/-- Of two members with their counts, the more frequent one; on a tie the lesser. -/
def commoner {α : Type} [LT α] [DecidableLT α] (best : Option (α × Nat)) (next : α × Nat) :
    Option (α × Nat) :=
  match best with
  | none => some next
  | some (b, n) =>
    if n < next.2 ∨ (n = next.2 ∧ next.1 < b) then some next else some (b, n)

/-- The member that occurs most often; of several the least. -/
def commonest? {α : Type} [DecidableEq α] [LT α] [DecidableLT α] (xs : List α) : Option α :=
  (xs.foldl (fun best x => commoner best (x, xs.count x)) none).map (·.1)

/-! ## Actions, conflicts and rows -/

/-- What a parser does in a state on a terminal. -/
inductive Action where
  | shift (state : Nat)
  | reduce (rule : Nat)
  | accept
  | error
  deriving DecidableEq, Repr

namespace Action

instance : Inhabited Action := ⟨error⟩

/-- Is it a shift? -/
def isShift : Action → Bool
  | shift _ => true
  | _ => false

/-- The rule of a reduction. -/
def reduction? : Action → Option Nat
  | reduce r => some r
  | _ => none

end Action

/-- The two ways in which offers can meet. -/
inductive Conflict.Kind where
  | shiftReduce
  | reduceReduce
  deriving DecidableEq, Repr

/-- A meeting that no precedence settled: in which state, on which terminal, and the rule whose
    reduction was dropped. -/
structure Conflict where
  state : Nat
  terminal : Nat
  kind : Conflict.Kind
  rule : Nat
  deriving DecidableEq, Repr

/-- What a state does: its explicit actions by increasing terminal, the states entered after a
    reduction, and the action on every other terminal. -/
structure ActionRow where
  actions : List (Nat × Action)
  gotos : List (Nat × Nat)
  fallback : Action
  deriving DecidableEq, Repr, Inhabited

namespace ActionRow

/-- The action on a terminal. -/
def action (row : ActionRow) (t : Nat) : Action :=
  (row.actions.lookup t).getD row.fallback

/-- Does entering the state always lead to one reduction? -/
def isLeaf (row : ActionRow) : Bool :=
  row.actions.isEmpty && row.gotos.isEmpty &&
    match row.fallback with
    | .reduce _ | .accept => true
    | .shift _ | .error => false

/-- Do shifts stand beside other explicit actions? -/
def isSplit (row : ActionRow) : Bool :=
  row.actions.any (·.2.isShift) && row.actions.any (!·.2.isShift)

end ActionRow

/-! ## Where offers meet -/

/-- A shift on terminal `t` meets a reduction by rule `r`: what is done, and whether that is a
    conflict. -/
def settleShift (g : Grammar) (existing : Action) (r t : Nat) : Action × Option Conflict.Kind :=
  match (g.rule r).level, g.alphabet.binding t with
  | some level, some binding =>
    if binding.level < level then (.reduce r, none)
    else if level < binding.level then (existing, none)
    else
      -- on one level the associativity decides
      match binding.assoc with
      | .left => (.reduce r, none)
      | .right => (existing, none)
      | .nonassoc => (.error, none)
  | _, _ => (existing, some .shiftReduce)

/-- What is done where a reduction by rule `r` meets what was decided before on terminal `t`, and
    the conflict that this is, if it is one: its kind and the rule that is dropped. -/
def settle (g : Grammar) (existing : Action) (r t : Nat) :
    Action × Option (Conflict.Kind × Nat) :=
  match existing with
  | .shift _ =>
    let (action, kind) := settleShift g existing r t
    (action, kind.map (·, r))
  | .reduce kept => (.reduce (min kept r), some (.reduceReduce, max kept r))
  | .accept | .error => (existing, none)

/-- The actions decided so far, by terminal, and the conflicts met. -/
structure Ballot where
  actions : Array (Option Action)
  conflicts : Array Conflict
  deriving DecidableEq, Repr

/-- Offers a reduction by rule `r` on terminal `t`. -/
def Ballot.offer (g : Grammar) (state r : Nat) (b : Ballot) (t : Nat) : Ballot :=
  match b.actions.getD t none with
  | none => { b with actions := b.actions.setIfInBounds t (some (.reduce r)) }
  | some existing =>
    let (action, conflict) := settle g existing r t
    let actions := b.actions.setIfInBounds t (some action)
    match conflict with
    | none => { b with actions }
    | some (kind, dropped) =>
      { actions, conflicts := b.conflicts.push ⟨state, t, kind, dropped⟩ }

/-! ## The row of a state -/

namespace State

/-- The shifts of a state, by terminal. -/
def shifts (g : Grammar) (s : State) : Array (Option Action) :=
  s.moves.foldl
    (fun actions (x, target) =>
      match x with
      | .terminal t => actions.setIfInBounds t (some (.shift target))
      | .nonterminal _ => actions)
    (Array.replicate g.terminalCount none)

/-- The states entered after reductions, by nonterminal. -/
def gotos (s : State) : List (Nat × Nat) :=
  s.moves.toList.filterMap fun (x, target) =>
    match x with
    | .nonterminal a => some (a, target)
    | .terminal _ => none

/-- The items with the dot at the end. -/
def complete (g : Grammar) (s : State) : List Item :=
  s.items.toList.filter (·.core.isComplete g)

/-- Does the state complete rule 0? -/
def accepts (g : Grammar) (s : State) : Bool :=
  (s.complete g).any (·.core.rule == 0)

/-- The rules other than rule 0 that the state completes, the lowest first, with their
    lookaheads. -/
def reductions (g : Grammar) (s : State) : List (Nat × SymbolSet) :=
  let offers := (s.complete g).filter (·.core.rule != 0)
  (offers.map fun item => (item.core.rule, s.lookahead item)).mergeSort (·.1 ≤ ·.1)

/-- Takes all offers of state number `i`. -/
def ballot (g : Grammar) (i : Nat) (s : State) : Ballot :=
  (s.reductions g).foldl (fun b (r, look) => look.toList.foldl (Ballot.offer g i r) b)
    ⟨s.shifts g, #[]⟩

/-- The action on all terminals that the row does not name. -/
def fallback (g : Grammar) (s : State) (actions : Array (Option Action)) : Action :=
  if s.accepts g then .accept
  else
    match commonest? (actions.toList.filterMap fun action => action.bind Action.reduction?) with
    | some r => .reduce r
    | none => .error

/-- The row of state number `i`, and the conflicts met on the way. -/
def actionRow (g : Grammar) (i : Nat) (s : State) : ActionRow × Array Conflict :=
  let b := s.ballot g i
  let fallback := s.fallback g b.actions
  let explicit := b.actions.toList.zipIdx.filterMap fun (action, t) =>
    match action with
    | some action => if action = fallback then none else some (t, action)
    | none => none
  ({ actions := explicit, gotos := s.gotos, fallback }, b.conflicts)

end State

/-- The rows of all states, and all conflicts in the order of states, rules and terminals. -/
structure Decisions where
  rows : Array ActionRow
  conflicts : Array Conflict

/-- Decides for every state of an automaton. -/
def Decisions.ofAutomaton (g : Grammar) (automaton : Automaton) : Decisions :=
  automaton.states.zipIdx.foldl
    (fun done (s, i) =>
      let (row, conflicts) := s.actionRow g i
      { rows := done.rows.push row, conflicts := done.conflicts ++ conflicts })
    { rows := #[], conflicts := #[] }

end Lalr
