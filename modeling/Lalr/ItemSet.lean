/-
  States of the automaton: sets of items with lookaheads.

  A state keeps its kernel items first, then what their closure adds.  Lookaheads are sets in a
  table; items refer to them by slot (`Lalr.Closure` says which items share one).

    1. `State.spread` fills the slots of a closure.  Before `b` an item `A : α . b β` puts into the
       slot of `b` what `β` can begin with; if `β` can vanish, the item's own lookahead flows in as
       well, until nothing changes.
    2. `State.rebuild` makes the closure of a state anew, from its kernel items and their
       lookaheads.
    3. `State.crossings` moves the dots over the next symbols: the kernels that can be reached.
    4. `State.absorb` adds the lookaheads of a kernel to those of a state with the same cores.

  The number of kernel items is kept in 16 bits.
-/
import Lalr.Closure
import Lalr.First

namespace Lalr

/-- A grammar with what was worked out about it before the automaton is built. -/
structure Analysis where
  grammar : Grammar
  leading : LeadingEmpty
  firsts : Firsts

/-- Items to start a state from, with their lookaheads. -/
abbrev Kernel := Array (Core × SymbolSet)

/-- The cores of a kernel in the order of cores: what tells states apart. -/
def Kernel.signature (k : Kernel) : List Core :=
  (k.map (·.1)).toList.mergeSort Core.le

/-- A state of the automaton. -/
structure State where
  items : Array Item
  kernelSize : Nat
  /-- by slot -/
  lookaheads : Array SymbolSet
  /-- the symbol by which the state is entered, `none` for the first state -/
  entry : Option Symbol
  /-- the cores of the kernel that the state was made from -/
  signature : List Core
  /-- the states entered from here, by symbol -/
  moves : Array (Symbol × Nat) := #[]
  deriving DecidableEq, Repr, Inhabited

/-- How many kernel items a state keeps: the kernel's size in 16 bits. -/
def kernelLimit (size : Nat) : Nat :=
  size % 65536

namespace State

/-- The kernel items. -/
def kernel (s : State) : Array Item :=
  s.items.take s.kernelSize

/-- The lookahead of an item of the state. -/
def lookahead (s : State) (item : Item) : SymbolSet :=
  s.lookaheads.getD item.slot ∅

/-! ## Closing a state -/

/-- `(dst, src)`: everything in the slot `src` belongs into the slot `dst` as well. -/
abbrev Edge := Nat × Nat

/-- Puts into the slot of the nonterminal after the dot what can follow it inside the item; if all
    of that can vanish, an edge from the item's own slot is added. -/
def seed (a : Analysis) (slotOf : Array (Option Nat)) (acc : Array SymbolSet × Array Edge)
    (item : Item) : Array SymbolSet × Array Edge :=
  match item.core.afterDot a.grammar with
  | .nonterminal b :: beta =>
    match slotOf.getD b none with
    | none => acc
    | some dst =>
      let (sets, edges) := acc
      match a.firsts.ofSymbols beta ∅ with
      | (first, vanishes) =>
        (sets.modify dst fun s => (s.union first).1,
          if vanishes then edges.push (dst, item.slot) else edges)
  | _ => acc

/-- Follows every edge once; also says whether any set grew. -/
def followEdges (edges : Array Edge) (sets : Array SymbolSet) : Array SymbolSet × Bool :=
  edges.foldl
    (fun (sets, grew) (dst, src) =>
      let (sets, added) := SymbolSet.absorbAt sets dst src
      (sets, grew || added))
    (sets, false)

/-- The lookaheads of a closure whose kernel items have the given ones.  A pass that changes
    anything adds a symbol to a slot. -/
def spread (a : Analysis) (c : Closure) (kernel : Array SymbolSet) : Array SymbolSet :=
  let (sets, edges) := c.items.foldl (seed a c.slotOf)
    (kernel ++ Array.replicate (c.slots - kernel.size) ∅, #[])
  untilStable (followEdges edges) (c.slots * a.grammar.alphabet.size + 1) sets

/-- Makes the closure of a state anew.  Also tells how many empty rules it added. -/
def rebuild (a : Analysis) (s : State) : State × Nat :=
  let c := Closure.ofKernel a.grammar a.leading s.kernel
  let lookaheads := spread a c (s.lookaheads.take s.kernelSize)
  ({ s with items := c.items, lookaheads }, c.empties)

/-- The state that a kernel makes, entered by the given symbol. -/
def ofKernel (a : Analysis) (entry : Option Symbol) (kernel : Kernel) : State × Nat :=
  rebuild a {
    items := kernel.mapIdx fun i (core, _) => ⟨core, none, i⟩
    kernelSize := kernelLimit kernel.size
    lookaheads := kernel.map (·.2)
    entry
    signature := kernel.signature }

/-! ## Leaving and entering a state -/

/-- Adds an item that is reached over `x` to the kernel of `x`. -/
def addCrossing (out : Array (Symbol × Kernel)) (x : Symbol) (core : Core) (look : SymbolSet) :
    Array (Symbol × Kernel) :=
  match out.findIdx? (·.1 == x) with
  | some i => out.modify i fun (y, kernel) => (y, kernel.push (core, look))
  | none => out.push (x, #[(core, look)])

/-- The kernels reached from a state, by the symbol crossed, in the order in which the symbols
    first stand after a dot. -/
def crossings (g : Grammar) (s : State) : Array (Symbol × Kernel) :=
  s.items.foldl
    (fun out item =>
      match item.core.next? g with
      | some x => addCrossing out x item.core.advance (s.lookahead item)
      | none => out)
    #[]

/-- The first item with the given core, if there is one.  The kernels of a state mostly list their
    cores in one order, so the item at the same place is tried first.  With a core of a short rule
    that is the only one; cores of longer rules may be there twice. -/
def itemOf? (g : Grammar) (items : Array Item) (place : Nat) (core : Core) : Option Item :=
  match items[place]? with
  | some item =>
    if item.core = core ∧ core.isShort g then some item else items.find? (·.core == core)
  | none => items.find? (·.core == core)

/-- Adds a lookahead to the slot of an item, if there is one; also says whether that or an earlier
    addition made a set grow. -/
def absorbLookahead (acc : Array SymbolSet × Bool) (item : Option Item) (look : SymbolSet) :
    Array SymbolSet × Bool :=
  match item with
  | none => acc
  | some item =>
    let (sets, grew) := acc
    let (grown, added) := (sets.getD item.slot ∅).union look
    (sets.setIfInBounds item.slot grown, grew || added)

/-- Adds the lookaheads of a kernel to those of the state; also says whether any set grew. -/
def absorb (g : Grammar) (s : State) (kernel : Kernel) : State × Bool :=
  let items := s.kernel
  let (lookaheads, grew) := kernel.zipIdx.foldl
    (fun acc ((core, look), place) => absorbLookahead acc (itemOf? g items place core) look)
    (s.lookaheads, false)
  ({ s with lookaheads }, grew)

end State

end Lalr
