/-
  The numbering is a partition of the states, and the action rows follow it.

    1. The numbers of the states are a permutation that tells their kinds apart
       (`Numbering.Partitions`): two comparisons tell whether a number is that of a leaf, and
       whether it is that of a split state.
    2. The rows that are asked for a number are told by the same comparisons
       (`ParseTable.askedRows`).
    3. So each action of a state stands in a row that is asked for this state and for no other
       (`Coding.rowOf`).

  Nothing is assumed of the rows but that there is one.  `numbering_sound` collects this.
-/
import Mathlib
import Lalr.Proofs.Build
import Lalr.Proofs.Encoding
import Lalr.Proofs.Growth

namespace Lalr

variable {rows : Array ActionRow} {s : Nat}

/-! ## Kinds of states

  A state is a leaf, or split, or neither.  State 0 is an exception twice: it never counts as a
  leaf, and it stays in front even if it is not split. -/

namespace Numbering

/-- The numbers are those of the states in a new order: 0 stays in front, the leaves go to the end,
    and the split states, if there are any, come right behind 0. -/
structure Partitions (n : Numbering) (rows : Array ActionRow) : Prop where
  perm : n.order.Perm (List.range rows.size)
  order_iff : ∀ {s i}, s < rows.size → (n.order[i]? = some s ↔ n.number s = i)
  number_zero : n.number 0 = 0
  leaf_iff : ∀ {s}, s < rows.size →
    (n.nonLeafCount ≤ n.number s ↔ s ≠ 0 ∧ (rows.getD s default).isLeaf = true)
  split_lt : ∀ {s}, s < rows.size → (rows.getD s default).isSplit = true → n.number s < n.splitCount
  split_of_lt : ∀ {s}, s < rows.size → n.number s < n.splitCount →
    s = 0 ∨ ((rows.getD s default).isSplit = true ∧ (rows.getD s default).isLeaf = false)
  splitCount_eq_zero : (∀ s, s < rows.size → (rows.getD s default).isSplit = false) →
    n.splitCount = 0
  splitCount_le : n.splitCount ≤ n.nonLeafCount

/-- A row with actions is no leaf's. -/
theorem isLeaf_of_mem {row : ActionRow} {e : Nat × Action} (h : e ∈ row.actions) :
    row.isLeaf = false := by
  rw [ActionRow.isLeaf, List.isEmpty_eq_false_iff.mpr (List.ne_nil_of_mem h), Bool.false_and,
    Bool.false_and]

theorem isLeaf_of_row_isSplit {row : ActionRow} (h : row.isSplit = true) : row.isLeaf = false := by
  rw [ActionRow.isSplit, Bool.and_eq_true, List.any_eq_true] at h
  obtain ⟨⟨e, he, -⟩, -⟩ := h
  exact isLeaf_of_mem he

theorem isSplit_eq (rows : Array ActionRow) (s : Nat) :
    isSplit rows s = (rows.getD s default).isSplit := by
  rw [isSplit, isLeaf]
  cases hsplit : (rows.getD s default).isSplit with
  | false => rw [Bool.and_false]
  | true => rw [isLeaf_of_row_isSplit hsplit, Bool.and_false, Bool.not_false, Bool.and_true]

/-- The order and the numbers are inverse to each other. -/
theorem order_eq_some_iff {i : Nat} (h : s < rows.size) :
    (ofRows rows).order[i]? = some s ↔ (ofRows rows).number s = i := by
  constructor
  · intro hget
    obtain ⟨hi, rfl⟩ := List.getElem?_eq_some_iff.mp hget
    rw [number_eq_idxOf]
    exact nodup_order.idxOf_getElem i hi
  · rintro rfl
    exact order_number h

/-- No two states have one number. -/
theorem number_inj {s' : Nat} (h : s < rows.size) (h' : s' < rows.size)
    (heq : (ofRows rows).number s = (ofRows rows).number s') : s = s' := by
  have hget := order_number h
  rw [heq, order_number h'] at hget
  exact (Option.some.inj hget).symm

/-- Without split states there are none in front. -/
theorem splitCount_eq_zero (hpos : 0 < rows.size)
    (h : ∀ s, s < rows.size → isSplit rows s = false) : (ofRows rows).splitCount = 0 := by
  have hothers : (List.range' 1 (rows.size - 1)).filter (isSplit rows) = [] := by
    refine List.filter_eq_nil_iff.mpr fun s hs => ?_
    rw [List.mem_range'_1] at hs
    rw [h s (by omega)]
    decide
  show (if isSplit rows 0 || !List.isEmpty _ then _ else 0) = 0
  rw [hothers, h 0 hpos]
  rfl

/-- Below `splitCount` are the numbers of the split states, and that of state 0. -/
theorem split_of_number_lt (h : s < rows.size)
    (hlt : (ofRows rows).number s < (ofRows rows).splitCount) : s = 0 ∨ isSplit rows s = true := by
  have hpos : 0 < rows.size := Nat.zero_lt_of_lt h
  by_cases hsome : ∃ q, q < rows.size ∧ isSplit rows q = true
  · obtain ⟨q, hq, hsplit⟩ := hsome
    rw [← length_splitFront hq hsplit, number_eq_idxOf,
      ← (splitFront_prefixes_order rows).mem_iff_idxOf_lt_length] at hlt
    exact ((mem_splitFront hpos).mp hlt).imp id And.right
  · have hnone : ∀ q, q < rows.size → isSplit rows q = false := by
      intro q hq
      by_contra hsplit
      exact hsome ⟨q, hq, Bool.not_eq_false _ ▸ hsplit⟩
    rw [splitCount_eq_zero hpos hnone] at hlt
    exact absurd hlt (Nat.not_lt_zero _)

/-- All of it. -/
theorem partitions (hpos : 0 < rows.size) : (ofRows rows).Partitions rows where
  perm := by
    have hperm := perm_order rows
    rwa [max_eq_left hpos] at hperm
  order_iff h := order_eq_some_iff h
  number_zero := number_zero
  leaf_iff {s} h := by
    rw [← Nat.not_lt, number_lt_nonLeafCount_iff h, Bool.not_eq_false, isLeaf, Bool.and_eq_true,
      bne_iff_ne]
  split_lt {s} h hsplit := number_lt_splitCount h ((isSplit_eq rows s).trans hsplit)
  split_of_lt {s} h hlt := by
    refine (split_of_number_lt h hlt).imp id fun hsplit => ?_
    rw [isSplit_eq] at hsplit
    exact ⟨hsplit, isLeaf_of_row_isSplit hsplit⟩
  splitCount_eq_zero h := splitCount_eq_zero hpos fun s hs => (isSplit_eq rows s).trans (h s hs)
  splitCount_le := splitCount_le rows

end Numbering

/-! ## Rows that are asked

  Which rows are asked depends on two comparisons of the state's number, and not on what stands
  in the rows. -/

namespace ParseTable

/-- The action rows that are asked for a state, in this order. -/
def askedRows (t : ParseTable) (state : Nat) : List Nat :=
  if t.nonLeafCount ≤ state then []
  else if state < t.splitCount then [state, state + t.nonLeafCount]
  else [state]

/-- The rows that are asked for a state. -/
theorem mem_askedRows {t : ParseTable} {state row : Nat} : row ∈ t.askedRows state ↔
    state < t.nonLeafCount ∧
      (row = state ∨ (state < t.splitCount ∧ row = state + t.nonLeafCount)) := by
  rw [askedRows]
  split
  · rename_i hleaf
    exact iff_of_false List.not_mem_nil fun h => Nat.not_lt.mpr hleaf h.1
  · rename_i hleaf
    rw [Nat.not_le] at hleaf
    split
    · rename_i hsplit
      simp [hleaf, hsplit]
    · rename_i hsplit
      simp [hleaf, hsplit]

/-- The entry for `symbol` in the first of the rows that has one. -/
def ask (t : ParseTable) (symbol : Int) : List Nat → Except Overrun (Option Int)
  | [] => .ok none
  | row :: rows =>
    match t.actions.read row symbol symbol with
    | .error e => .error e
    | .ok (some v) => .ok (some v)
    | .ok none => t.ask symbol rows

/-- The second row of a state is asked only below `splitCount`, and leaves have none. -/
theorem actionEntry_eq_ask (t : ParseTable) (state : Nat) (symbol : Int) :
    t.actionEntry state symbol = t.ask symbol (t.askedRows state) := by
  rw [actionEntry, askedRows]
  by_cases hleaf : t.nonLeafCount ≤ state
  · rw [if_pos hleaf, if_pos hleaf]
    rfl
  · rw [if_neg hleaf, if_neg hleaf]
    by_cases hsplit : state < t.splitCount
    · rw [if_pos hsplit, if_pos hsplit, ask, ask]
      cases t.actions.read (state + t.nonLeafCount) symbol symbol with
      | error e => rfl
      | ok entry => cases entry <;> rfl
    · rw [if_neg hsplit, if_neg hsplit, ask]
      rfl

end ParseTable

/-! ## Rows that are written

  Each action of a state is written into one row.  That the rows which are asked are those which
  were written takes that the comparisons tell the kinds of states. -/

namespace Coding

variable {c : Coding} {t : Nat} {a : Action}

/-- The action row in which the action of a state is written. -/
def rowOf (c : Coding) (s : Nat) (a : Action) : Nat :=
  if (c.row s).isSplit && !a.isShift then c.numbering.number s + c.numbering.nonLeafCount
  else c.numbering.number s

/-- The row of an action is the first or the second one of its state. -/
theorem rowOf_cases (s : Nat) (a : Action) : c.rowOf s a = c.numbering.number s ∨
    ((c.row s).isSplit = true ∧ c.rowOf s a = c.numbering.number s + c.numbering.nonLeafCount) := by
  rw [rowOf]
  split
  · rename_i hsecond
    rw [Bool.and_eq_true] at hsecond
    exact Or.inr ⟨hsecond.1, rfl⟩
  · exact Or.inl rfl

theorem mem_entries {test : Action → Bool} (h : (t, a) ∈ (c.row s).actions) (ha : test a = true) :
    (t, c.actionCode a) ∈ c.entries s test :=
  List.mem_map.mpr ⟨(t, a), List.mem_filter.mpr ⟨h, ha⟩, rfl⟩

/-- A state with an entry is no leaf. -/
theorem isLeaf_of_mem (h : (t, a) ∈ ((ofRows rows).row s).actions) :
    Numbering.isLeaf rows s = false := by
  have hrow : (rows.getD s default).isLeaf = false := Numbering.isLeaf_of_mem h
  rw [Numbering.isLeaf, hrow, Bool.and_false]

/-- A split state has a second row. -/
theorem number_lt_splitCount (hs : s < rows.size) (hsplit : ((ofRows rows).row s).isSplit = true) :
    (ofRows rows).numbering.number s < (ofRows rows).numbering.splitCount :=
  Numbering.number_lt_splitCount hs ((Numbering.isSplit_eq rows s).trans hsplit)

/-- Every action is written. -/
theorem exists_row (hs : s < rows.size) (h : (t, a) ∈ ((ofRows rows).row s).actions) :
    ∃ row, (ofRows rows).actionRows[(ofRows rows).rowOf s a]? = some row ∧
      (t, (ofRows rows).actionCode a) ∈ row := by
  have hleaf := isLeaf_of_mem h
  rw [rowOf]
  split
  · -- the state is split and the action no shift
    rename_i hsecond
    rw [Bool.and_eq_true] at hsecond
    refine ⟨_, actionRows_second hs hleaf (number_lt_splitCount hs hsecond.1), ?_⟩
    rw [secondRow, if_pos hsecond.1]
    exact mem_entries h hsecond.2
  · rename_i hfirst
    refine ⟨_, actionRows_first hs hleaf, ?_⟩
    rw [firstRow]
    split
    · rename_i hsplit
      refine mem_entries h ?_
      rw [hsplit, Bool.true_and, Bool.not_eq_true, Bool.not_eq_false'] at hfirst
      exact hfirst
    · exact mem_entries h rfl

end Coding

namespace Encoded

variable (g : Grammar) (text : String) {t : Nat} {a : Action}

/-- The row of an action is asked for its state, and for no other. -/
theorem rowOf_mem_askedRows {s' : Nat} (hs : s < rows.size) (hs' : s' < rows.size)
    (h : (t, a) ∈ ((Coding.ofRows rows).row s).actions) :
    (Coding.ofRows rows).rowOf s a ∈ (ofRows g text rows).table.askedRows
      ((Coding.ofRows rows).numbering.number s') ↔ s' = s := by
  have hlt : (Numbering.ofRows rows).number s < (Numbering.ofRows rows).nonLeafCount :=
    Coding.number_lt hs (Coding.isLeaf_of_mem h)
  have hrow : (Coding.ofRows rows).rowOf s a = (Numbering.ofRows rows).number s ∨
      (((Coding.ofRows rows).row s).isSplit = true ∧ (Coding.ofRows rows).rowOf s a =
        (Numbering.ofRows rows).number s + (Numbering.ofRows rows).nonLeafCount) :=
    Coding.rowOf_cases s a
  rw [ParseTable.mem_askedRows]
  show (Numbering.ofRows rows).number s' < (Numbering.ofRows rows).nonLeafCount ∧
    ((Coding.ofRows rows).rowOf s a = (Numbering.ofRows rows).number s' ∨
      ((Numbering.ofRows rows).number s' < (Numbering.ofRows rows).splitCount ∧
        (Coding.ofRows rows).rowOf s a =
          (Numbering.ofRows rows).number s' + (Numbering.ofRows rows).nonLeafCount)) ↔ s' = s
  constructor
  · rintro ⟨hlt', hasked⟩
    -- first rows lie before the second ones, so the row tells the number
    refine Numbering.number_inj hs' hs ?_
    rcases hrow with hrow | ⟨-, hrow⟩ <;> rw [hrow] at hasked <;> omega
  · rintro rfl
    refine ⟨hlt, hrow.imp id fun hsecond => ⟨?_, hsecond.2⟩⟩
    exact Coding.number_lt_splitCount hs hsecond.1

/-- Whatever the rows are, if there is one, the numbering is a partition of the states by kind, and
    the table asks the rows that `askedRows` tells.  Each action of a state is written into a row
    that is there, also in the packed table, and that is asked for this state and for no other.  So
    it is found. -/
theorem numbering_sound (hpos : 0 < rows.size) :
    (Numbering.ofRows rows).Partitions rows
    ∧ (∀ state symbol, (ofRows g text rows).table.actionEntry state symbol =
        (ofRows g text rows).table.ask symbol ((ofRows g text rows).table.askedRows state))
    ∧ ∀ s < rows.size, ∀ t a, (t, a) ∈ (rows.getD s default).actions →
        (∃ row, (Coding.ofRows rows).actionRows[(Coding.ofRows rows).rowOf s a]? = some row
          ∧ (t, (Coding.ofRows rows).actionCode a) ∈ row)
        ∧ (Coding.ofRows rows).rowOf s a < (ofRows g text rows).table.actions.base.size
        ∧ (∀ s' < rows.size, (Coding.ofRows rows).rowOf s a ∈
            (ofRows g text rows).table.askedRows ((Numbering.ofRows rows).number s') ↔ s' = s)
        ∧ ((∀ s, SortedByKey (rows.getD s default).actions) →
            (ofRows g text rows).table.actionEntry ((Numbering.ofRows rows).number s) t =
              .ok (some ((Coding.ofRows rows).actionCode a))) := by
  refine ⟨Numbering.partitions hpos,
    fun state symbol => ParseTable.actionEntry_eq_ask _ state symbol,
    fun s hs t a h => ?_⟩
  obtain ⟨row, hrow, hmem⟩ := Coding.exists_row hs h
  refine ⟨⟨row, hrow, hmem⟩, ?_, fun s' hs' => rowOf_mem_askedRows g text hs hs' h,
    fun hsorted => ?_⟩
  · show _ < (PackedRows.pack .byColumn (Coding.ofRows rows).actionRows).table.base.size
    rw [PackedRows.size_base]
    exact (Array.getElem?_eq_some_iff.mp hrow).1
  · have hentry := actionEntry_number g text hsorted hs (Coding.isLeaf_of_mem h) t
    have hlookup : ((Coding.ofRows rows).row s).actions.lookup t = some a :=
      (hsorted s).lookup_eq_some_iff.mpr h
    rw [hlookup] at hentry
    exact hentry

/-- State 1 is a leaf, state 2 is split, and state 0 is neither. -/
def mixedRows : Array ActionRow :=
  #[⟨[(1, .shift 1)], [], .error⟩, ⟨[], [], .reduce 1⟩,
    ⟨[(0, .reduce 1), (1, .shift 1)], [], .error⟩, ⟨[(2, .reduce 2)], [], .error⟩]

/-- The theorem for these.  State 2 gets number 1; its reduction stands in the second of the rows
    that are asked for 1, and is found there. -/
theorem numbering_sound_mixedRows : 0 < mixedRows.size
    ∧ (Numbering.ofRows mixedRows).Partitions mixedRows
    ∧ (Numbering.ofRows mixedRows).order = [0, 2, 3, 1]
    ∧ (Numbering.ofRows mixedRows).splitCount = 2 ∧ (Numbering.ofRows mixedRows).nonLeafCount = 3
    ∧ (Coding.ofRows mixedRows).rowOf 2 (.reduce 1) = 4
    ∧ 4 ∈ (ofRows sumsGrammar "" mixedRows).table.askedRows 1
    ∧ (ofRows sumsGrammar "" mixedRows).table.actionEntry 1 0 = .ok (some (-1)) := by
  have hpos : 0 < mixedRows.size := by decide
  have hsorted : ∀ s, SortedByKey (mixedRows.getD s default).actions := by
    intro s
    rcases Nat.lt_or_ge s 4 with hs | hs
    · have hall : ∀ b : Fin 4,
          ((mixedRows.getD b default).actions).Pairwise (·.1 < ·.1) := by decide
      exact hall ⟨s, hs⟩
    · rw [getD_of_size_le _ hs]
      exact List.Pairwise.nil
  obtain ⟨hpart, -, hrows⟩ := numbering_sound sumsGrammar "" hpos
  have hmem : (0, .reduce 1) ∈ (mixedRows.getD 2 default).actions := List.mem_cons_self
  obtain ⟨-, -, hasked, hentry⟩ := hrows 2 (by decide) 0 (.reduce 1) hmem
  exact ⟨hpos, hpart, by decide, by decide, by decide, by decide,
    (hasked 2 (by decide)).mpr rfl, hentry hsorted⟩

end Encoded

end Lalr
