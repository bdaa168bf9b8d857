/-
  Laying sparse rows over each other by first fit.

  A sparse row is a list of entries, a column and a value each, by increasing column.  Rows are
  placed the longest first.  A row gets the least base, not below minus its first column, at which

    * the base is not 0, which is the base of the empty rows;
    * every slot it needs is free;
    * with `Marking.byColumn`, no row laid before has that base.

  A slot is marked with its entry's column, or with the number of its row.  Marks by column
  tell rows apart by their bases alone, so only equal rows may share one; and equal rows do.  An
  unused slot has the mark -1 and the value 0.

  Slots have 32-bit numbers.  Past the end of the table all slots are free, so the search for a base
  goes on undisturbed where the numbers end; but a row whose first fit has a slot beyond them cannot
  be written, and the packing is given up (`pack?`).
-/
import Lalr.SparseTable

namespace Lalr

/-- A sparse row: columns and values, by increasing column. -/
abbrev SparseRow := List (Nat × Int)

/-- What a slot is marked with. -/
inductive Marking where
  | byColumn
  | byRow
  deriving DecidableEq, Repr

/-- The mark of an unused slot. -/
def freeMark : Int := -1

/-- Rows that were laid into one table, with their bases in the order of placing. -/
structure Packing where
  values : Array Int := #[]
  check : Array Int := #[]
  laid : List (SparseRow × Int) := []
  deriving DecidableEq, Repr

namespace Packing

/-- Is the slot unused?  Slots past the end are. -/
def isFree (p : Packing) (slot : Int) : Bool :=
  p.check.getD slot.toNat freeMark == freeMark

/-- May the row be placed at the base? -/
def admits (p : Packing) (marking : Marking) (row : SparseRow) (base : Int) : Bool :=
  base != 0
    && row.all (fun (column, _) => p.isFree (base + column))
    && (marking == .byRow || p.laid.all (·.2 != base))

/-- The least base from `base` on at which the row fits; `steps` bounds the search. -/
def leastFit (p : Packing) (marking : Marking) (row : SparseRow) : Nat → Int → Int
  | 0, base => base
  | steps + 1, base =>
    if p.admits marking row base then base else leastFit p marking row steps (base + 1)

/-- Writes one entry, making room for it at the end if that is needed. -/
def write (p : Packing) (slot : Nat) (value mark : Int) : Packing :=
  let room := slot + 1 - p.check.size
  { p with
    values := (p.values ++ Array.replicate room 0).setIfInBounds slot value
    check := (p.check ++ Array.replicate room freeMark).setIfInBounds slot mark }

/-- Writes the entries of a row at a base. -/
def writeRow (p : Packing) (marking : Marking) (number : Nat) (row : SparseRow) (base : Int) :
    Packing :=
  row.foldl
    (fun p (column, value) =>
      let mark : Nat := if marking = .byColumn then column else number
      p.write (base + column).toNat value mark)
    p

/-- The base of a row equal to this one, if bases may be shared. -/
def shared? (p : Packing) (marking : Marking) (row : SparseRow) : Option Int :=
  if marking = .byColumn then p.laid.lookup row else none

/-- Places row `number`, and tells its base.  Past the end of the table all slots are free, which
    bounds the search. -/
def addRow (p : Packing) (marking : Marking) (number : Nat) (row : SparseRow) : Packing × Int :=
  match row with
  | [] => (p, 0)
  | (column, _) :: _ =>
    match p.shared? marking row with
    | some base => (p, base)
    | none =>
      -- enough to pass 0, the end of the table and every base in use
      let steps := column + p.check.size + p.laid.length + 2
      let base := p.leastFit marking row steps (-column)
      let p := p.writeRow marking number row base
      ({ p with laid := p.laid ++ [(row, base)] }, base)

end Packing

/-- Rows that were packed: the table, and the numbers of the rows in the order of placing. -/
structure PackedRows where
  rows : Array SparseRow
  order : List Nat
  table : SparseTable

namespace PackedRows

/-- The numbers of the rows, the longest first; rows of one length keep their order. -/
def placingOrder (rows : Array SparseRow) : List Nat :=
  (List.range rows.size).mergeSort fun r s =>
    (rows.getD s []).length ≤ (rows.getD r []).length

/-- Packs rows into one table. -/
def pack (marking : Marking) (rows : Array SparseRow) : PackedRows :=
  let order := placingOrder rows
  let (packing, base) := order.foldl
    (fun (packing, base) r =>
      let (packing, b) := packing.addRow marking r (rows.getD r [])
      (packing, base.setIfInBounds r b))
    (({} : Packing), Array.replicate rows.size 0)
  { rows, order, table := { values := packing.values, check := packing.check, base } }

/-- The slots below this one have 32-bit numbers. -/
def slotLimit : Int := 2147483648

/-- Do all entries of all rows have 32-bit slot numbers? -/
def isNarrow (p : PackedRows) : Bool :=
  p.rows.zipIdx.all fun (row, r) =>
    row.all fun (column, _) => p.table.base.getD r 0 + column < slotLimit

/-- Packs rows into one table whose slots have 32-bit numbers, if they do. -/
def pack? (marking : Marking) (rows : Array SparseRow) : Option PackedRows :=
  let p := pack marking rows
  if p.isNarrow then some p else none

/-- How many entries all rows have together. -/
def entryCount (p : PackedRows) : Nat :=
  p.rows.foldl (fun n row => n + row.length) 0

end PackedRows

end Lalr
