/-
  The parse table says what the rows say.

  For every state that is no leaf, under its number in the table,

    * the explicit action on a terminal is that of the state's row, coded (`explicitAction_number`);
    * the default rule is that of the row's fallback (`defaultRule_number`);
    * the goto on a nonterminal enters the row's target (`gotoAt_number`).

  The numbering is a permutation of the states that puts 0 first and the leaves last.
-/
import Mathlib
import Lalr.Encoding
import Lalr.Proofs.FirstFit
import Lalr.Proofs.Growth

namespace Lalr

/-! ## The numbers of the states

  The order is made of three lists: state 0 with the split states, the other states that are no
  leaves, and the leaves.  A number is a place in it, so what is said of the order is said of the
  numbers. -/

namespace Numbering

variable {rows : Array ActionRow} {s : Nat}

/-- The first state is entered by no symbol, so it is not counted as a leaf. -/
theorem isLeaf_zero : isLeaf rows 0 = false :=
  rfl

/-- Split states shift, so they are no leaves. -/
theorem isLeaf_of_isSplit (h : isSplit rows s = true) : isLeaf rows s = false := by
  rw [isSplit, Bool.and_eq_true, Bool.not_eq_true'] at h
  exact h.1

/-- State 0 is in the order even of no rows. -/
theorem mem_order_iff : s ∈ (ofRows rows).order ↔ s < max rows.size 1 := by
  show s ∈ 0 :: _ ++ _ ++ _ ↔ _
  simp only [List.mem_append, List.mem_cons, List.mem_filter, List.mem_range'_1, Bool.and_eq_true,
    Bool.not_eq_true']
  constructor
  · omega
  · intro hs
    cases hleaf : isLeaf rows s <;> cases hsplit : isSplit rows s <;> simp <;> omega

/-- The order lists all states. -/
theorem mem_order (hpos : 0 < rows.size) : s ∈ (ofRows rows).order ↔ s < rows.size := by
  rw [mem_order_iff, Nat.max_eq_left hpos]

/-- It lists each of them once. -/
theorem nodup_order : (ofRows rows).order.Nodup := by
  show (0 :: _ ++ _ ++ _).Nodup
  have hothers : (List.range' 1 (rows.size - 1)).Nodup := List.nodup_range'
  simp only [List.cons_append, List.nodup_cons, List.mem_append, List.mem_filter,
    List.mem_range'_1, List.nodup_append, hothers.filter, true_and, Bool.and_eq_true,
    Bool.not_eq_true']
  refine ⟨by omega, ?_, ?_⟩
  · rintro a ⟨-, ha⟩ b ⟨-, -, hb⟩ rfl
    rw [ha] at hb
    exact absurd hb (by decide)
  · rintro a ha b ⟨-, hb⟩ rfl
    rcases ha with ⟨-, ha⟩ | ⟨-, ha, -⟩
    · rw [isLeaf_of_isSplit ha] at hb
      exact absurd hb (by decide)
    · rw [ha] at hb
      exact absurd hb (by decide)

/-- The states in another order.  Where there are no states, there is a 0 all the same. -/
theorem perm_order (rows : Array ActionRow) :
    (ofRows rows).order.Perm (List.range (max rows.size 1)) := by
  refine (List.perm_ext_iff_of_nodup nodup_order List.nodup_range).mpr fun s => ?_
  rw [mem_order_iff, List.mem_range]

/-- Without rows the order still lists state 0. -/
theorem length_order (rows : Array ActionRow) : (ofRows rows).order.length = max rows.size 1 := by
  rw [(perm_order rows).length_eq, List.length_range]

/-- The number of a state is its place in the order. -/
theorem number_eq_idxOf (rows : Array ActionRow) (s : Nat) :
    (ofRows rows).number s = (ofRows rows).order.idxOf s := by
  rw [number, show (ofRows rows).places = placesOf (ofRows rows).order from rfl, placesOf]
  by_cases hs : s ∈ (ofRows rows).order
  · have hlt : s < (ofRows rows).order.length := length_order rows ▸ mem_order_iff.mp hs
    have hentry : (s, (ofRows rows).order.idxOf s) ∈ (ofRows rows).order.zipIdx :=
      List.mk_mem_zipIdx_iff_getElem?.mpr (List.getElem?_idxOf hs)
    rcases getD_foldl_setIfInBounds (·.1) (·.2) (ofRows rows).order.zipIdx
      (Array.replicate (ofRows rows).order.length 0) s (ofRows rows).order.length with
      ⟨⟨t, i⟩, he, rfl, hvalue⟩ | ⟨-, hnone⟩
    · -- each state is in the order once, so the entry is that of its place
      obtain ⟨hi, rfl⟩ := List.getElem?_eq_some_iff.mp (List.mk_mem_zipIdx_iff_getElem?.mp he)
      exact hvalue.trans (nodup_order.idxOf_getElem i hi).symm
    · exact absurd rfl (hnone (by rw [Array.size_replicate]; exact hlt) _ hentry)
  · rw [List.idxOf_of_notMem hs, getD_of_size_le]
    rw [mem_order_iff, ← length_order rows, Nat.not_lt] at hs
    rw [size_foldl_setIfInBounds, Array.size_replicate]
    exact hs

/-- State 0 keeps its number. -/
theorem number_zero : (ofRows rows).number 0 = 0 := by
  rw [number_eq_idxOf]
  show List.idxOf 0 (0 :: _ ++ _ ++ _) = 0
  rw [List.cons_append, List.cons_append, List.idxOf_cons_self]

/-- New numbers are places in the order. -/
theorem number_lt (h : s < rows.size) : (ofRows rows).number s < (ofRows rows).order.length := by
  rw [number_eq_idxOf]
  exact List.idxOf_lt_length_of_mem ((mem_order (Nat.zero_lt_of_lt h)).mpr h)

/-- At the place of its number stands the state. -/
theorem order_number (h : s < rows.size) :
    (ofRows rows).order[(ofRows rows).number s]? = some s := by
  have hlt := number_lt h
  simp only [number_eq_idxOf] at hlt ⊢
  rw [List.getElem?_eq_getElem hlt]
  exact congrArg some (List.getElem_idxOf hlt)

/-- State 0 and the split states, which come first. -/
def splitFront (rows : Array ActionRow) : List Nat :=
  0 :: (List.range' 1 (rows.size - 1)).filter (isSplit rows)

/-- The states before the leaves. -/
def front (rows : Array ActionRow) : List Nat :=
  splitFront rows ++
    (List.range' 1 (rows.size - 1)).filter fun s => !isLeaf rows s && !isSplit rows s

/-- In front stand the states that are no leaves. -/
theorem front_prefixes_order (rows : Array ActionRow) : front rows <+: (ofRows rows).order :=
  ⟨_, rfl⟩

/-- In front of those stand the split ones. -/
theorem splitFront_prefixes_order (rows : Array ActionRow) :
    splitFront rows <+: (ofRows rows).order :=
  List.IsPrefix.trans ⟨_, rfl⟩ (front_prefixes_order rows)

theorem length_front (rows : Array ActionRow) :
    (front rows).length = (ofRows rows).nonLeafCount := by
  rw [front, splitFront, List.length_append, List.length_cons, Nat.add_comm _ 1]
  rfl

theorem nonLeafCount_le (rows : Array ActionRow) :
    (ofRows rows).nonLeafCount ≤ max rows.size 1 := by
  rw [← length_front, ← length_order]
  exact (front_prefixes_order rows).length_le

/-- The states that are no leaves come before the leaves. -/
theorem number_lt_nonLeafCount_iff (h : s < rows.size) :
    (ofRows rows).number s < (ofRows rows).nonLeafCount ↔ isLeaf rows s = false := by
  rw [← length_front, number_eq_idxOf, ← (front_prefixes_order rows).mem_iff_idxOf_lt_length]
  simp only [front, splitFront, List.mem_append, List.mem_cons, List.mem_filter,
    List.mem_range'_1, Bool.and_eq_true, Bool.not_eq_true']
  constructor
  · rintro ((rfl | ⟨-, hsplit⟩) | ⟨-, hleaf, -⟩)
    · exact isLeaf_zero
    · exact isLeaf_of_isSplit hsplit
    · exact hleaf
  · intro hleaf
    cases hsplit : isSplit rows s <;> simp [hleaf] <;> omega

/-- The states in front of all others are state 0 and the split ones. -/
theorem mem_splitFront (hpos : 0 < rows.size) :
    s ∈ splitFront rows ↔ s = 0 ∨ (s < rows.size ∧ isSplit rows s = true) := by
  rw [splitFront, List.mem_cons, List.mem_filter, List.mem_range'_1]
  constructor
  · rintro (h | ⟨hlt, hsplit⟩)
    · exact Or.inl h
    · exact Or.inr ⟨by omega, hsplit⟩
  · rintro (h | ⟨hlt, hsplit⟩)
    · exact Or.inl h
    · rcases Nat.eq_zero_or_pos s with h | h
      · exact Or.inl h
      · exact Or.inr ⟨by omega, hsplit⟩

/-- With a state that needs two action rows, `splitCount` counts it and those before it. -/
theorem length_splitFront (h : s < rows.size) (hsplit : isSplit rows s = true) :
    (splitFront rows).length = (ofRows rows).splitCount := by
  show _ = if isSplit rows 0 || !List.isEmpty _ then 1 + List.length _ else 0
  rw [if_pos, splitFront, List.length_cons, Nat.add_comm]
  rcases Nat.eq_zero_or_pos s with rfl | hpos
  · rw [hsplit, Bool.true_or]
  · have hmem : s ∈ (List.range' 1 (rows.size - 1)).filter (isSplit rows) := by
      rw [List.mem_filter, List.mem_range'_1]
      exact ⟨by omega, hsplit⟩
    rw [List.isEmpty_eq_false_iff.mpr (List.ne_nil_of_mem hmem), Bool.not_false, Bool.or_true]

/-- The states that need two action rows come before those that need one. -/
theorem number_lt_splitCount (h : s < rows.size) (hsplit : isSplit rows s = true) :
    (ofRows rows).number s < (ofRows rows).splitCount := by
  have hmem := (mem_splitFront (Nat.zero_lt_of_lt h)).mpr (Or.inr ⟨h, hsplit⟩)
  rw [← length_splitFront h hsplit, number_eq_idxOf]
  exact ((splitFront_prefixes_order rows).mem_iff_idxOf_lt_length s).mp hmem

/-- Split states are among those that are no leaves. -/
theorem splitCount_le (rows : Array ActionRow) :
    (ofRows rows).splitCount ≤ (ofRows rows).nonLeafCount := by
  unfold ofRows
  simp only
  split <;> omega

end Numbering

/-! ## Action rows

  A state may have its actions in two rows, the second one with those that the first leaves out.
  Both are selections from the row of the state, and together they miss nothing. -/

namespace Coding

variable {rows : Array ActionRow} {s t : Nat}

/-- The number of a state that is no leaf. -/
theorem number_lt (hs : s < rows.size) (hleaf : Numbering.isLeaf rows s = false) :
    (ofRows rows).numbering.number s < (ofRows rows).numbering.nonLeafCount :=
  (Numbering.number_lt_nonLeafCount_iff hs).mpr hleaf

/-- A state that is no leaf stands at its number among those that have rows. -/
theorem nonLeaves_number (hs : s < rows.size) (hleaf : Numbering.isLeaf rows s = false) :
    (ofRows rows).nonLeaves[(ofRows rows).numbering.number s]? = some s := by
  rw [nonLeaves, List.getElem?_take_of_lt (number_lt hs hleaf)]
  exact Numbering.order_number hs

/-- As many states have rows as there are no leaves. -/
theorem length_nonLeaves (rows : Array ActionRow) :
    (ofRows rows).nonLeaves.length = (ofRows rows).numbering.nonLeafCount := by
  have hfront := (Numbering.front_prefixes_order rows).length_le
  rw [Numbering.length_front] at hfront
  exact List.length_take_of_le hfront

/-- Coded entries keep the order of the row. -/
theorem sortedByKey_entries {c : Coding} (hrow : SortedByKey (c.row s).actions)
    (test : Action → Bool) : SortedByKey (c.entries s test) :=
  (hrow.filter _).map _

/-- A coded entry is found under the terminal of its action. -/
theorem lookup_entries {c : Coding} (hrow : SortedByKey (c.row s).actions)
    (test : Action → Bool) : (c.entries s test).lookup t =
      (((c.row s).actions.lookup t).filter test).map c.actionCode := by
  rw [entries, lookup_map_snd, hrow.lookup_filter]

/-- The first row of a state stands at the state's number. -/
theorem actionRows_first (hs : s < rows.size) (hleaf : Numbering.isLeaf rows s = false) :
    (ofRows rows).actionRows[(ofRows rows).numbering.number s]? =
      some ((ofRows rows).firstRow s) := by
  have hlt := number_lt hs hleaf
  rw [actionRows, List.getElem?_toArray, List.getElem?_append_left, List.getElem?_map,
    nonLeaves_number hs hleaf]
  · rfl
  · rw [List.length_map, length_nonLeaves]
    exact hlt

/-- The second row stands as many places further on as there are first rows. -/
theorem actionRows_second (hs : s < rows.size) (hleaf : Numbering.isLeaf rows s = false)
    (hsplit : (ofRows rows).numbering.number s < (ofRows rows).numbering.splitCount) :
    (ofRows rows).actionRows[(ofRows rows).numbering.number s +
      (ofRows rows).numbering.nonLeafCount]? = some ((ofRows rows).secondRow s) := by
  rw [actionRows, List.getElem?_toArray, List.getElem?_append_right, List.length_map,
    length_nonLeaves, Nat.add_sub_cancel, List.getElem?_map, List.getElem?_take_of_lt hsplit,
    nonLeaves_number hs hleaf]
  · rfl
  · rw [List.length_map, length_nonLeaves]
    exact Nat.le_add_left _ _

/-- What holds of the selected actions of a state, and of an empty row, holds of each action row. -/
theorem forall_actionRows {P : SparseRow → Prop} (hempty : P [])
    (hentries : ∀ s test, P ((ofRows rows).entries s test)) :
    ∀ row ∈ (ofRows rows).actionRows, P row := by
  intro row hrow
  rw [actionRows, List.mem_toArray, List.mem_append, List.mem_map, List.mem_map] at hrow
  obtain ⟨s, -, rfl⟩ | ⟨s, -, rfl⟩ := hrow
  · unfold firstRow
    split <;> exact hentries s _
  · unfold secondRow
    split
    · exact hentries s _
    · exact hempty

/-- All action rows are listed by terminal. -/
theorem sortedByKey_actionRows (hrows : ∀ s, SortedByKey ((ofRows rows).row s).actions) :
    ∀ row ∈ (ofRows rows).actionRows, SortedByKey row :=
  forall_actionRows List.Pairwise.nil fun s test => sortedByKey_entries (hrows s) test

/-- The columns of the action rows are those of the actions. -/
theorem column_actionRows_lt {width : Nat}
    (hcolumns : ∀ s, ∀ e ∈ ((ofRows rows).row s).actions, e.1 < width) :
    ∀ row ∈ (ofRows rows).actionRows, ∀ e ∈ row, e.1 < width := by
  refine forall_actionRows (fun e he => absurd he List.not_mem_nil) fun s test e he => ?_
  obtain ⟨e', he', rfl⟩ := List.mem_map.mp he
  exact hcolumns s e' (List.mem_of_mem_filter he')

/-- How many action rows there are. -/
theorem size_actionRows (rows : Array ActionRow) : (ofRows rows).actionRows.size =
    (ofRows rows).numbering.nonLeafCount + (ofRows rows).numbering.splitCount := by
  have hsplit : (ofRows rows).numbering.splitCount ≤ (ofRows rows).nonLeaves.length := by
    rw [length_nonLeaves]
    exact Numbering.splitCount_le rows
  rw [actionRows, List.size_toArray, List.length_append, List.length_map, List.length_map,
    List.length_take_of_le hsplit, length_nonLeaves]

/-- Reading the first row of a state, and the second one where that has no entry, finds the code of
    the action in the state's row. -/
theorem lookup_rows {c : Coding} (hrow : SortedByKey (c.row s).actions) :
    ((c.firstRow s).lookup t).or ((c.secondRow s).lookup t) =
      ((c.row s).actions.lookup t).map c.actionCode := by
  unfold firstRow secondRow
  split
  · rw [lookup_entries hrow, lookup_entries hrow]
    cases (c.row s).actions.lookup t with
    | none => rfl
    | some action => cases action <;> rfl
  · rw [lookup_entries hrow]
    cases (c.row s).actions.lookup t <;> rfl

end Coding

/-! ## The table

  Reading two packed rows in turn comes to looking an action up in the row of the state. -/

namespace Encoded

variable {rows : Array ActionRow} {s : Nat} (g : Grammar) (text : String)

/-- Every action row can be read from the table. -/
theorem read_actions (hrows : ∀ s, SortedByKey ((Coding.ofRows rows).row s).actions) {r : Nat}
    {row : SparseRow} (hrow : (Coding.ofRows rows).actionRows[r]? = some row) (t : Nat) :
    (ofRows g text rows).table.actions.read r t t = .ok (row.lookup t) := by
  obtain ⟨hr, hget⟩ := Array.getElem?_eq_some_iff.mp hrow
  have h := PackedRows.read_pack .byColumn (Coding.sortedByKey_actionRows hrows) hr t
  rw [Array.getD_eq_getD_getElem?, hrow] at h
  exact h

/-- The raw entry of a state for a terminal is the code of the action in its row. -/
theorem actionEntry_number (hrows : ∀ s, SortedByKey ((Coding.ofRows rows).row s).actions)
    (hs : s < rows.size) (hleaf : Numbering.isLeaf rows s = false) (t : Nat) :
    (ofRows g text rows).table.actionEntry ((Coding.ofRows rows).numbering.number s) t =
      .ok ((((Coding.ofRows rows).row s).actions.lookup t).map
        (Coding.ofRows rows).actionCode) := by
  have hlt : ¬ (ofRows g text rows).table.nonLeafCount ≤ (Coding.ofRows rows).numbering.number s :=
    Nat.not_le.mpr (Coding.number_lt hs hleaf)
  rw [← Coding.lookup_rows (hrows s), ParseTable.actionEntry, if_neg hlt,
    read_actions g text hrows (Coding.actionRows_first hs hleaf)]
  cases hfirst : ((Coding.ofRows rows).firstRow s).lookup t with
  | some v => rfl
  | none =>
    show (if (Coding.ofRows rows).numbering.number s <
      (Coding.ofRows rows).numbering.splitCount then _ else _) = _
    split
    · rename_i hsplit
      exact read_actions g text hrows (Coding.actionRows_second hs hleaf hsplit) t
    · rename_i hsplit
      -- a state without a second row is not split
      have hplain : ¬ ((Coding.ofRows rows).row s).isSplit = true := by
        intro h
        refine hsplit (Numbering.number_lt_splitCount hs ?_)
        rw [Numbering.isSplit, hleaf]
        exact h
      rw [Coding.secondRow, if_neg hplain]
      rfl

/-- The action of a state on a terminal is that of its row. -/
theorem explicitAction_number (hrows : ∀ s, SortedByKey ((Coding.ofRows rows).row s).actions)
    (hs : s < rows.size) (hleaf : Numbering.isLeaf rows s = false) (t : Nat) :
    (ofRows g text rows).table.explicitAction ((Coding.ofRows rows).numbering.number s) t =
      .ok (((((Coding.ofRows rows).row s).actions.lookup t).map
        (Coding.ofRows rows).actionCode).filter (· != useDefault)) := by
  rw [ParseTable.explicitAction, actionEntry_number g text hrows hs hleaf]
  rfl

/-- The default rule of a state is that of its row's fallback. -/
theorem defaultRule_number (hs : s < rows.size) :
    (ofRows g text rows).table.defaultRule ((Coding.ofRows rows).numbering.number s) =
      .ok (Coding.fallbackRule ((Coding.ofRows rows).row s).fallback) := by
  have hget : (ofRows g text rows).table.actionDefault[(Coding.ofRows rows).numbering.number s]? =
      some (Coding.fallbackRule ((Coding.ofRows rows).row s).fallback) := by
    show (Coding.ofRows rows).actionDefault[_]? = _
    rw [Coding.actionDefault, List.getElem?_toArray, List.getElem?_map]
    show Option.map _ ((Numbering.ofRows rows).order[(Numbering.ofRows rows).number s]?) = _
    rw [Numbering.order_number hs]
    rfl
  rw [ParseTable.defaultRule, hget]

/-! ## Gotos

  A column of gotos is kept as one row, with its most frequent target as the default.  The
  default is left out of the row, and comes back when nothing is found there. -/

/-- The targets of a nonterminal are the codes that its column holds. -/
theorem gotoTargets_eq (c : Coding) (a : Nat) : c.gotoTargets a =
    entriesOf (fun s => ((c.row s).gotos.lookup a).map c.stateCode) c.nonLeaves := by
  rw [Coding.gotoTargets, entriesOf]
  congr 1
  funext entry
  obtain ⟨s, new⟩ := entry
  rw [Option.map_map]
  rfl

/-- The targets are listed by state. -/
theorem sortedByKey_gotoTargets (c : Coding) (a : Nat) : SortedByKey (c.gotoTargets a) := by
  rw [gotoTargets_eq]
  exact sortedByKey_entriesOf _ _

/-- What is left of them without the default is, too. -/
theorem sortedByKey_gotoRows (c : Coding) (n : Nat) :
    ∀ row ∈ ((Array.range n).map c.gotoTargets).map Coding.gotoRow, SortedByKey row := by
  intro row hrow
  obtain ⟨targets, hmem, rfl⟩ := Array.mem_map.mp hrow
  obtain ⟨a, -, rfl⟩ := Array.mem_map.mp hmem
  exact (sortedByKey_gotoTargets c a).filter _

/-- A target is found in the row unless it is the default. -/
theorem lookup_gotoRow {targets : SparseRow} (h : SortedByKey targets) (k : Nat) :
    (Coding.gotoRow targets).lookup k =
      (targets.lookup k).filter (· != Coding.gotoFallback targets) :=
  h.lookup_filter (· != Coding.gotoFallback targets)

/-- What is entered from a state after a reduction is the target in its row. -/
theorem gotoAt_number (hs : s < rows.size) (hleaf : Numbering.isLeaf rows s = false) {a q : Nat}
    (ha : a < g.nonterminalCount)
    (hgoto : ((Coding.ofRows rows).row s).gotos.lookup a = some q) :
    (ofRows g text rows).table.gotoAt a ((Coding.ofRows rows).numbering.number s : Nat) =
      .ok ((Coding.ofRows rows).stateCode q) := by
  have htarget : ((Coding.ofRows rows).gotoTargets a).lookup
      ((Coding.ofRows rows).numbering.number s) = some ((Coding.ofRows rows).stateCode q) := by
    rw [gotoTargets_eq, lookup_entriesOf, Coding.nonLeaves_number hs hleaf]
    show ((((Coding.ofRows rows).row s).gotos.lookup a).map _) = _
    rw [hgoto]
    rfl
  have htargets : ((Array.range g.nonterminalCount).map (Coding.ofRows rows).gotoTargets)[a]? =
      some ((Coding.ofRows rows).gotoTargets a) := by
    rw [Array.getElem?_map, Array.getElem?_range, if_pos ha]
    rfl
  have hread : (ofRows g text rows).table.gotos.read a
      ((Coding.ofRows rows).numbering.number s : Nat) a =
      .ok ((some ((Coding.ofRows rows).stateCode q)).filter
        (· != Coding.gotoFallback ((Coding.ofRows rows).gotoTargets a))) := by
    have h := PackedRows.read_pack .byRow
      (sortedByKey_gotoRows (Coding.ofRows rows) g.nonterminalCount)
      (r := a)
      (by rw [Array.size_map, Array.size_map, Array.size_range]; exact ha)
      ((Coding.ofRows rows).numbering.number s)
    rw [Array.getD_eq_getD_getElem?, Array.getElem?_map, htargets, Option.map_some,
      Option.getD_some, lookup_gotoRow (sortedByKey_gotoTargets _ a), htarget] at h
    exact h
  have hdefault : (ofRows g text rows).table.defaultGoto a =
      .ok (Coding.gotoFallback ((Coding.ofRows rows).gotoTargets a)) := by
    have hget : (ofRows g text rows).table.gotoDefault[a]? =
        some (Coding.gotoFallback ((Coding.ofRows rows).gotoTargets a)) := by
      show (Array.map _ _)[a]? = _
      rw [Array.getElem?_map, htargets]
      rfl
    rw [ParseTable.defaultGoto, hget]
  -- the target that is left out of the row is the default
  rw [ParseTable.gotoAt, hread, hdefault, ParseTable.orFallback, Option.filter_some]
  split
  · rfl
  · rename_i hsame
    rw [bne_iff_ne, not_not] at hsame
    rw [hsame]
    rfl

/-! ## Rules -/

/-- The table has the length of each rule. -/
theorem ruleToLength_eq {r : Nat} (hr : r < g.rules.size) :
    (ofRows g text rows).table.ruleToLength[r]? = some ((g.rule r).rhs.length : Int) := by
  show (g.rules.map _)[r]? = _
  rw [Array.getElem?_map, Array.getElem?_eq_getElem hr, Grammar.rule, Array.getD_eq_getD_getElem?,
    Array.getElem?_eq_getElem hr]
  rfl

/-- It has the left side of each rule. -/
theorem ruleToNonterminal_eq {r : Nat} (hr : r < g.rules.size) :
    (ofRows g text rows).table.ruleToNonterminal[r]? = some ((g.rule r).lhs : Int) := by
  show (g.rules.map _)[r]? = _
  rw [Array.getElem?_map, Array.getElem?_eq_getElem hr, Grammar.rule, Array.getD_eq_getD_getElem?,
    Array.getElem?_eq_getElem hr]
  rfl

/-! ## Sizes -/

/-- There is an action row for each state that is no leaf, and a second one for each state that may
    be split; every slot that is marked has a value. -/
theorem size_actions (hrows : ∀ s, SortedByKey ((Coding.ofRows rows).row s).actions) :
    (ofRows g text rows).table.actions.base.size =
        (ofRows g text rows).table.nonLeafCount + (ofRows g text rows).table.splitCount ∧
      (ofRows g text rows).table.actions.check.size =
        (ofRows g text rows).table.actions.values.size := by
  obtain ⟨hbase, hcheck⟩ := PackedRows.size_pack .byColumn (Coding.sortedByKey_actionRows hrows)
  exact ⟨hbase.trans (Coding.size_actionRows rows), hcheck⟩

/-- There is a goto row with a default for each nonterminal; every slot that is marked has a value.
    -/
theorem size_gotos :
    (ofRows g text rows).table.gotos.base.size = g.nonterminalCount ∧
      (ofRows g text rows).table.gotoDefault.size = g.nonterminalCount ∧
      (ofRows g text rows).table.gotos.check.size =
        (ofRows g text rows).table.gotos.values.size := by
  obtain ⟨hbase, hcheck⟩ := PackedRows.size_pack .byRow
    (sortedByKey_gotoRows (Coding.ofRows rows) g.nonterminalCount)
  refine ⟨?_, ?_, hcheck⟩
  · show (PackedRows.pack .byRow _).table.base.size = _
    rw [hbase, Array.size_map, Array.size_map, Array.size_range]
  · show (Array.map _ _).size = _
    rw [Array.size_map, Array.size_map, Array.size_range]

/-- Each rule has a text. -/
theorem size_ruleTexts : (ofRows g text rows).table.ruleTexts.size = g.rules.size := by
  show (Array.map _ _).size = _
  rw [Array.size_map, Array.size_range]

/-! ## 32-bit numbers

  Packed slots have 32-bit numbers.  With few states and symbols all rows stay below that, if
  they are packed by first fit. -/

/-- The columns of a goto row are numbers of states that are no leaves. -/
theorem column_gotoTargets_lt {c : Coding} {a : Nat} {e : Nat × Int} (he : e ∈ c.gotoTargets a) :
    e.1 < c.nonLeaves.length := by
  rw [gotoTargets_eq] at he
  obtain ⟨new, code⟩ := e
  obtain ⟨s, hs, -⟩ := Option.bind_eq_some_iff.mp (mem_entriesOf.mp he)
  exact (List.getElem?_eq_some_iff.mp hs).1

/-- The rows of few states over few symbols can be packed. -/
theorem isNarrow_ofRows (hrows : ∀ s, SortedByKey ((Coding.ofRows rows).row s).actions)
    (hcolumns : ∀ s, ∀ e ∈ ((Coding.ofRows rows).row s).actions, e.1 < g.terminalCount) {n : Nat}
    (hpos : 0 < n) (hsize : rows.size ≤ n) (hsmall : (2 * n + g.alphabet.size) ^ 2 ≤ 2 ^ 31) :
    (ofRows g text rows).isNarrow = true := by
  have hle : (Coding.ofRows rows).numbering.nonLeafCount ≤ n :=
    (Numbering.nonLeafCount_le rows).trans (max_le hsize hpos)
  have hsplit : (Coding.ofRows rows).numbering.splitCount ≤
    (Coding.ofRows rows).numbering.nonLeafCount := Numbering.splitCount_le rows
  have halphabet : g.alphabet.size = g.terminalCount + g.nonterminalCount := rfl
  rw [isNarrow, Bool.and_eq_true]
  constructor
  -- action rows: two at most for each state, with terminals for columns
  · refine PackedRows.isNarrow_pack (Coding.sortedByKey_actionRows hrows)
      (Coding.column_actionRows_lt hcolumns) (le_trans ?_ hsmall)
    rw [Coding.size_actionRows, sq]
    exact Nat.mul_le_mul (by omega) (by omega)
  -- goto rows: one for each nonterminal, with the new numbers for columns
  · have hsorted := sortedByKey_gotoRows (Coding.ofRows rows) g.nonterminalCount
    refine PackedRows.isNarrow_pack hsorted (fun row hrow e he => (?_ : e.1 < n))
      (le_trans ?_ hsmall)
    · obtain ⟨targets, hmem, rfl⟩ := Array.mem_map.mp hrow
      obtain ⟨a, -, rfl⟩ := Array.mem_map.mp hmem
      have hlt := column_gotoTargets_lt (List.mem_of_mem_filter he)
      rw [Coding.length_nonLeaves] at hlt
      exact hlt.trans_le hle
    · rw [Array.size_map, Array.size_map, Array.size_range, sq]
      exact Nat.mul_le_mul (by omega) (by omega)

end Encoded

end Lalr
