/-
  The numbers of the states in the tables.

  State 0 comes first, whatever its kind; then the split states, which need two action rows; then
  the other states that are no leaves; then the leaves.  So two comparisons tell the kind of a
  state by its number:

    * a state below `splitCount` has a second action row.  If any state is split, state 0 is among
      these even where it is not split itself, and its second row is empty;
    * a state below `nonLeafCount` has an action row at all.
-/
import Lalr.Decision

namespace Lalr

/-- A new order of the states. -/
structure Numbering where
  /-- the old numbers in the new order -/
  order : List Nat
  /-- the new numbers by old number -/
  places : Array Nat
  nonLeafCount : Nat
  splitCount : Nat
  deriving DecidableEq, Repr

namespace Numbering

/-- The new number of old state `s`. -/
def number (n : Numbering) (s : Nat) : Nat :=
  n.places.getD s n.order.length

/-- Is `s` a leaf?  State 0 never counts as one. -/
def isLeaf (rows : Array ActionRow) (s : Nat) : Bool :=
  s != 0 && (rows.getD s default).isLeaf

/-- Does `s` need two action rows? -/
def isSplit (rows : Array ActionRow) (s : Nat) : Bool :=
  !isLeaf rows s && (rows.getD s default).isSplit

/-- The places in an order of the numbers below its length. -/
def placesOf (order : List Nat) : Array Nat :=
  order.zipIdx.foldl (fun places (s, i) => places.setIfInBounds s i)
    (Array.replicate order.length 0)

/-- The order of the states of the given rows. -/
def ofRows (rows : Array ActionRow) : Numbering :=
  let others := List.range' 1 (rows.size - 1)
  let split := others.filter (isSplit rows)
  let plain := others.filter fun s => !isLeaf rows s && !isSplit rows s
  let leaves := others.filter (isLeaf rows)
  let order := 0 :: split ++ plain ++ leaves
  -- state 0 stays in front, and so has a second row if any state behind it has one
  { order
    places := placesOf order
    nonLeafCount := 1 + split.length + plain.length
    splitCount := if isSplit rows 0 || !split.isEmpty then 1 + split.length else 0 }

end Numbering

end Lalr
