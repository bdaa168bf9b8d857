/-
  The LALR(1) automaton of a grammar.

  Two states are the same if they are entered by the same symbol and have the same signature, that
  is the same kernel cores.  Where a kernel leads to a state that is there, its lookaheads are added
  to the state's.

  The work goes like this:

    1. States are explored in the order in which they were made: each crossing enters a state that
       is there or makes a new one.
    2. If a kernel lookahead of a state grows, the state is closed again; if it was explored
       before, it is put on the stack of states that have to hand their lookaheads on.
    3. When every state is explored, the top of that stack is taken off, and the kernels it reaches
       are added to the states they lead to.

  The work ends when nothing is left to explore or to hand on.  It always does where each rule has
  fewer than 65536 symbols on its right side.  With longer rules a kernel can have the same core
  twice, so kernels may grow without end; then there is no automaton, and `finished` says so.
-/
import Lalr.ItemSet

namespace Lalr

/-- The states of a grammar.  `emptyItems` counts the empty rules that all closures added, those
    that were made again included. -/
structure Automaton where
  states : Array State
  emptyItems : Nat
  /-- by code of a symbol: the states entered by it -/
  entered : Array (Array Nat)
  /-- is no work left? -/
  finished : Bool

/-- The automaton while it is built. -/
structure Worklist where
  states : Array State
  /-- the states below this number are explored -/
  explored : Nat
  /-- the explored states whose lookaheads grew since, each once, the latest first -/
  grown : List Nat
  emptyItems : Nat
  /-- by code of a symbol: the states entered by it, in the order in which they were made -/
  entered : Array (Array Nat)

namespace Worklist

/-- The state that the start rule makes. -/
def start (a : Analysis) : Worklist :=
  let (first, empties) := State.ofKernel a none #[(⟨0, 0⟩, ∅)]
  { states := #[first]
    explored := 0
    grown := []
    emptyItems := empties
    entered := Array.replicate a.grammar.alphabet.size #[] }

/-- State `p`. -/
def state (w : Worklist) (p : Nat) : State :=
  w.states.getD p default

/-- The state that is entered by `x` and has the cores of the given kernel. -/
def lookup? (a : Analysis) (w : Worklist) (x : Symbol) (kernel : Kernel) : Option Nat :=
  let signature := kernel.signature
  (w.entered.getD (a.grammar.alphabet.code x) #[]).find? fun t =>
    (w.state t).entry == some x && (w.state t).signature == signature

/-- Puts a state on the stack of those that grew, unless it is there. -/
def noteGrown (w : Worklist) (t : Nat) : Worklist :=
  if w.grown.contains t then w else { w with grown := t :: w.grown }

/-- Adds the lookaheads of a kernel to state `t`. -/
def enrich (a : Analysis) (w : Worklist) (t : Nat) (kernel : Kernel) : Worklist :=
  match (w.state t).absorb a.grammar kernel with
  | (_, false) => w
  | (s, true) =>
    let (closed, empties) := s.rebuild a
    let w := { w with
      states := w.states.setIfInBounds t closed
      emptyItems := w.emptyItems + empties }
    -- a state that is not explored yet has handed nothing on so far
    if t < w.explored then w.noteGrown t else w

/-- Makes a new state, entered by `x`. -/
def addState (a : Analysis) (w : Worklist) (x : Symbol) (kernel : Kernel) : Worklist :=
  let (s, empties) := State.ofKernel a (some x) kernel
  let t := w.states.size
  { w with
    states := w.states.push s
    emptyItems := w.emptyItems + empties
    entered := w.entered.modify (a.grammar.alphabet.code x) (·.push t) }

/-- Notes that `x` leads from state `p` to state `t`. -/
def addMove (w : Worklist) (p : Nat) (x : Symbol) (t : Nat) : Worklist :=
  { w with states := w.states.modify p fun s => { s with moves := s.moves.push (x, t) } }

/-- Follows one crossing of state `p` for the first time. -/
def enter (a : Analysis) (p : Nat) (w : Worklist) (crossing : Symbol × Kernel) : Worklist :=
  let (x, kernel) := crossing
  match w.lookup? a x kernel with
  | some t => (w.enrich a t kernel).addMove p x t
  | none =>
    let t := w.states.size
    (w.addState a x kernel).addMove p x t

/-- Follows every crossing of state `p` for the first time. -/
def explore (a : Analysis) (w : Worklist) (p : Nat) : Worklist :=
  ((w.state p).crossings a.grammar).foldl (enter a p) w

/-- Hands the lookaheads of one crossing of state `p` on to the state it leads to. -/
def handOn (a : Analysis) (p : Nat) (w : Worklist) (crossing : Symbol × Kernel) : Worklist :=
  let (x, kernel) := crossing
  match (w.state p).moves.find? (·.1 == x) with
  | some (_, t) => w.enrich a t kernel
  | none => w

/-- Hands the lookaheads of state `p` on along all its crossings. -/
def handOnAll (a : Analysis) (w : Worklist) (p : Nat) : Worklist :=
  ((w.state p).crossings a.grammar).foldl (handOn a p) w

/-- Is no work left? -/
def isDone (w : Worklist) : Bool :=
  w.states.size ≤ w.explored && w.grown.isEmpty

/-- Does the next piece of work. -/
def work (a : Analysis) (w : Worklist) : Worklist :=
  if w.explored < w.states.size then
    let p := w.explored
    { w with explored := p + 1 }.explore a p
  else
    -- nothing is handed on before every state is explored
    match w.grown with
    | p :: others => { w with grown := others }.handOnAll a p
    | [] => w

/-- Works until no work is left, but takes at most `limit` steps. -/
def run (a : Analysis) : Nat → Worklist → Worklist
  | 0, w => w
  | limit + 1, w => if w.isDone then w else run a limit (w.work a)

/-- How many cores there are: a dot before each symbol of each rule, and one at its end. -/
def coreCount (g : Grammar) : Nat :=
  g.rules.foldl (fun n r => n + r.rhs.length + 1) 0

/-- More steps than the work can take if the dot gets to every place of each rule.  Then the
    signature of a state is a set of cores, so there are at most `2 ^ n` states for `n` cores; each
    is explored once, and hands on at most once for every symbol that is added to a kernel item. -/
def stepLimit (g : Grammar) : Nat :=
  let n := coreCount g
  (1 <<< n) * (n * g.alphabet.size + 1) + 1

end Worklist

/-- The automaton of a grammar. -/
def Automaton.ofAnalysis (a : Analysis) : Automaton :=
  let done := Worklist.run a (Worklist.stepLimit a.grammar) (Worklist.start a)
  { states := done.states
    emptyItems := done.emptyItems
    entered := done.entered
    finished := done.isDone }

end Lalr
