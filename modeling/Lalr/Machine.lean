/-
  Running a parse table over raw token codes.

  The machine keeps a stack of codes, the top first.  In each step it either

    * decides: it takes a token if it has no lookahead, and looks up the action of the state on
      top.  A shift pushes the code and uses the lookahead up; or
    * reduces: it takes as many codes off the stack as the rule has symbols, and pushes the
      code that the goto table gives for what lies below.  The stack holds codes of the table, so
      the code below is a column as it is.

  A code of `nonLeafCount` or more stands for a leaf: the machine goes on reducing, without
  deciding, by the leaf's rule.  It never looks up such a code as a state, for the reduction takes
  it off.

  The input ends at the first token 0, or when the tokens run out.  A refused token is reported with
  the state in which the machine last decided.
-/
import Lalr.ParseTable

namespace Lalr

/-- What a run does that can be seen from outside. -/
inductive Event where
  | shift (state : Nat) (symbol : Int)
  | reduce (rule : Nat)
  deriving DecidableEq, Repr

/-- The rule of a reduction. -/
def Event.reduction? : Event → Option Nat
  | reduce rule => some rule
  | shift _ _ => none

/-- What the machine does next: look up an action, or reduce by a rule that `state` chose on
    `symbol`. -/
inductive Phase where
  | deciding
  | reducing (rule : Int) (state : Nat) (symbol : Int)
  deriving DecidableEq, Repr

/-- The machine between two steps. -/
structure Configuration where
  stack : List Nat
  look : Option Int
  input : List Nat
  /-- how many tokens were taken -/
  consumed : Nat
  phase : Phase
  deriving DecidableEq, Repr

/-- How a run ends: it accepts, it refuses a symbol in a state, or the table does not fit
    together. -/
inductive Outcome where
  | accepted
  | rejected (state : Nat) (symbol : Int)
  | fault
  deriving DecidableEq, Repr

/-- What one step leads to. -/
inductive Step where
  | next (c : Configuration) (event : Option Event)
  | halt (outcome : Outcome)
  deriving DecidableEq, Repr

namespace Configuration

/-- The machine before the first step. -/
def start (input : List Nat) : Configuration where
  stack := [0]
  look := none
  input
  consumed := 0
  phase := .deciding

/-- The state on top of the stack. -/
def top (c : Configuration) : Nat :=
  c.stack.headD 0

/-- The lookahead, and the machine that has it: a token is taken if there is none, and past the last
    token it is the end of input. -/
def peek (t : ParseTable) (c : Configuration) : Int × Configuration :=
  match c.look with
  | some symbol => (symbol, c)
  | none =>
    match c.input with
    | [] =>
      let symbol := t.symbolOf 0
      (symbol, { c with look := some symbol })
    | raw :: rest =>
      let symbol := t.symbolOf raw
      (symbol, { c with look := some symbol, input := rest, consumed := c.consumed + 1 })

/-- Looks up the action of the state on top and starts to do it. -/
def act (t : ParseTable) (c : Configuration) : Step :=
  let (symbol, c) := c.peek t
  let state := c.top
  match t.explicitAction state symbol with
  | .error _ => .halt .fault
  | .ok (some code) =>
    -- a positive code enters a state or, past the non-leaf states, reduces at once
    if 0 < code then
      let phase : Phase :=
        if code < t.nonLeafCount then .deciding else .reducing (code - t.nonLeafCount) state symbol
      .next { c with stack := code.toNat :: c.stack, look := none, phase }
        (some (.shift state symbol))
    else .next { c with phase := .reducing (-code) state symbol } none
  | .ok none =>
    match t.defaultRule state with
    | .error _ => .halt .fault
    | .ok rule => .next { c with phase := .reducing rule state symbol } none

/-- Reduces by a rule that is neither 0 nor the unexpected one. -/
def reduce (t : ParseTable) (c : Configuration) (rule state : Nat) (symbol : Int) : Step :=
  match t.ruleToLength[rule]?, t.ruleToNonterminal[rule]? with
  | some length, some nonterminal =>
    let stack := c.stack.drop length.toNat
    match t.gotoAt nonterminal.toNat (stack.headD 0 : Nat) with
    | .error _ => .halt .fault
    | .ok code =>
      let phase : Phase :=
        if code < t.nonLeafCount then .deciding else .reducing (code - t.nonLeafCount) state symbol
      .next { c with stack := code.toNat :: stack, phase } (some (.reduce rule))
  | _, _ => .halt .fault

/-- One step of the machine. -/
def step (t : ParseTable) (c : Configuration) : Step :=
  match c.phase with
  | .deciding => c.act t
  | .reducing rule state symbol =>
    -- to reduce by the start rule is to accept
    if rule = 0 then .halt .accepted
    else if rule = t.unexpectedRule then .halt (.rejected state symbol)
    else if rule < 0 then .halt .fault
    else c.reduce t rule.toNat state symbol

end Configuration

/-! ## Runs -/

/-- A run: what was done, how many tokens were taken, and how it ended, `none` if it was cut
    short. -/
structure Run where
  events : Array Event
  consumed : Nat
  outcome : Option Outcome
  deriving DecidableEq, Repr

namespace Run

/-- The rules that were reduced, in order. -/
def reduced (r : Run) : List Nat :=
  r.events.toList.filterMap Event.reduction?

/-- Takes steps until the machine halts, but at most `limit`. -/
def extend (t : ParseTable) : Nat → Array Event → Configuration → Run
  | 0, events, c => ⟨events, c.consumed, none⟩
  | limit + 1, events, c =>
    match c.step t with
    | .halt outcome => ⟨events, c.consumed, some outcome⟩
    | .next c event => extend t limit (events ++ event.toArray) c

end Run

namespace ParseTable

/-- Parses raw token codes. -/
def parse (t : ParseTable) (limit : Nat) (input : List Nat) : Run :=
  Run.extend t limit #[] (Configuration.start input)

/-- The text for a refused symbol. -/
def rejectionText (t : ParseTable) (state : Nat) (symbol : Int) : String :=
  let name := t.nameOf symbol
  s!"syntax error in state {state}: unexpected {name}"

/-- An event as text. -/
def eventText (t : ParseTable) : Event → String
  | .shift state symbol =>
    let name := t.nameOf symbol
    s!"state {state}: shift {name}"
  | .reduce rule => "reduce " ++ t.ruleTexts.getD rule ""

end ParseTable

end Lalr
