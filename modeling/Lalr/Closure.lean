/-
  The items of a closure.

  Around the kernel items of a state, the closure puts, for every nonterminal after a dot, the rules
  of that nonterminal with the dot in front.  All items it adds for one nonterminal share a
  slot for their lookahead; kernel item `i` has slot `i`.

    1. The items are visited in order, those added on the way included.  A nonterminal `a` after a
       dot reserves a slot; its non-empty rules are added when it is met first.
    2. Then `addEmpty` adds the empty rules of `a`, and those of the nonterminals that its rules
       begin with, and so on.  It searches only nonterminals with a leading-empty mark, each once.

  What is added depends on the cores of the kernel items only, not on lookaheads.
-/
import Lalr.Item
import Lalr.LeadingEmpty

namespace Lalr

/-- A closure on its way: the items found so far and the slots given out. -/
structure Closure where
  items : Array Item
  /-- how many slots are in use -/
  slots : Nat
  /-- the slot of each nonterminal that has one -/
  slotOf : Array (Option Nat)
  /-- the nonterminals whose non-empty rules were added -/
  opened : Array Bool
  /-- the nonterminals whose empty rules were looked for -/
  searched : Array Bool
  /-- how many empty rules were added -/
  empties : Nat
  deriving DecidableEq, Repr

namespace Closure

/-- The closure before its first step: the kernel items alone. -/
def start (g : Grammar) (kernel : Array Item) : Closure where
  items := kernel
  slots := kernel.size
  slotOf := Array.replicate g.nonterminalCount none
  opened := Array.replicate g.nonterminalCount false
  searched := Array.replicate g.nonterminalCount false
  empties := 0

/-- The slot of nonterminal `a`; the first use gives it a new one. -/
def reserve (c : Closure) (a : Nat) : Closure × Nat :=
  match c.slotOf.getD a none with
  | some slot => (c, slot)
  | none =>
    let slot := c.slots
    ({ c with slots := slot + 1, slotOf := c.slotOf.setIfInBounds a (some slot) }, slot)

/-- Adds rule `r` of nonterminal `a`. -/
def addItem (c : Closure) (a slot r : Nat) : Closure :=
  { c with items := c.items.push ⟨⟨r, 0⟩, some a, slot⟩ }

/-- Adds the non-empty rules of nonterminal `a`, once. -/
def addRules (g : Grammar) (c : Closure) (a slot : Nat) : Closure :=
  if c.opened.getD a false then c
  else
    (g.rulesOf a).foldl
      (fun c r => if (g.rule r).rhs.isEmpty then c else c.addItem a slot r)
      { c with opened := c.opened.setIfInBounds a true }

/-- Adds the empty rule `r` of nonterminal `a`. -/
def addEmptyRule (c : Closure) (a r : Nat) : Closure :=
  let (c, slot) := c.reserve a
  let c := c.addItem a slot r
  { c with empties := c.empties + 1 }

/-- Adds the empty rules of nonterminal `a` and of the nonterminals that its rules begin with.  A
    nonterminal is searched once, so the search is at most `depth` deep for as many nonterminals. -/
def addEmpty (g : Grammar) (e : LeadingEmpty) : Nat → Closure → Nat → Closure
  | 0, c, _ => c
  | depth + 1, c, a =>
    if c.searched.getD a false || !e.isMarked a then c
    else
      -- the mark comes before the rules, so a search below does not come back to `a`
      (g.rulesOf a).foldl
        (fun c r =>
          match (g.rule r).rhs with
          | [] => c.addEmptyRule a r
          | .nonterminal b :: _ => addEmpty g e depth c b
          | .terminal _ :: _ => c)
        { c with searched := c.searched.setIfInBounds a true }

/-- Adds what the symbol after the dot of an item calls for. -/
def visit (g : Grammar) (e : LeadingEmpty) (c : Closure) (item : Item) : Closure :=
  match item.core.next? g with
  | some (.nonterminal a) =>
    let (c, slot) := c.reserve a
    addEmpty g e (g.nonterminalCount + 1) (c.addRules g a slot) a
  | _ => c

/-- Visits the items from number `i` on, those added on the way included. -/
def walk (g : Grammar) (e : LeadingEmpty) : Nat → Nat → Closure → Closure
  | 0, _, c => c
  | steps + 1, i, c =>
    match c.items[i]? with
    | none => c
    | some item => walk g e steps (i + 1) (c.visit g e item)

/-- The closure of kernel items.  Every rule is added at most once, which bounds the walk. -/
def ofKernel (g : Grammar) (e : LeadingEmpty) (kernel : Array Item) : Closure :=
  walk g e (kernel.size + g.rules.size + 1) 0 (start g kernel)

end Closure

end Lalr
