/-
  Sparse rows laid over each other in one pair of arrays.

  A row is a number in `base`; its entry for a column, if there is one, stands at
  `base + column`.  Rows overlap, so a slot says in `check` whose entry it holds: a reader
  that expects `c` accepts the slot only if `check` holds `c` there.

    * A negative index, or one past `check`, is no entry.
    * Falling off `base`, or off `values` at a slot that `check` vouches for, is an `Overrun`:
      the table is not one that was packed here.
-/

namespace Lalr

/-- The array of a parse table that a look-up fell off. -/
inductive Overrun where
  | base
  | values
  | fallback
  deriving DecidableEq, Repr

/-- Overlapping rows: the values, the marks that tell rows apart, and where each row starts. -/
structure SparseTable where
  values : Array Int := #[]
  check : Array Int := #[]
  base : Array Int := #[]
  deriving DecidableEq, Repr

namespace SparseTable

/-- The value of the slot at `index` if it is marked with `expected`. -/
def entryAt (t : SparseTable) (index expected : Int) : Except Overrun (Option Int) :=
  if index < 0 then .ok none
  else if t.check[index.toNat]? = some expected then
    match t.values[index.toNat]? with
    | some v => .ok (some v)
    | none => .error .values
  else .ok none

/-- The entry of `row` in `column`, where the row's slots are marked with `expected`. -/
def read (t : SparseTable) (row : Nat) (column expected : Int) : Except Overrun (Option Int) :=
  match t.base[row]? with
  | none => .error .base
  | some base => t.entryAt (base + column) expected

end SparseTable

end Lalr
