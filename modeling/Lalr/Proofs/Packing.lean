/-
  Packed rows can be read back.

  Reading a packed table in row `r` and column `c` gives what row `r` has in that column
  (`PackedRows.read_pack`): no entry is lost, and none of another row is seen.

    1. Every slot has a mark, free or not, and a value (`markAt`, `valueAt`); writing changes one
       slot of each.
    2. `Finds` is the search for a base with no bound on the steps.  Some base is near enough
       (`exists_admits`), so the bounded search ends like it, at the least base that is admitted
       (`Finds.isLeast`, `finds_leastFit`).
    3. `Laid` is what the placing of rows keeps: entries stand where they should, every mark comes
       from a row that was placed, and the bases tell rows apart where the marks do not.
-/
import Mathlib
import Lalr.Packing
import Lalr.Proofs.Keyed

namespace Lalr

/-- The mark of the slot for column `c` in row `r`. -/
def Marking.mark (marking : Marking) (r c : Nat) : Int :=
  if marking = .byColumn then c else r

/-- Marks of entries are not negative, so they differ from that of a free slot. -/
theorem Marking.mark_ne_free (marking : Marking) (r c : Nat) : marking.mark r c ≠ freeMark := by
  unfold Marking.mark freeMark
  split <;> omega

namespace Packing

/-- The mark of a slot. -/
def markAt (p : Packing) (i : Nat) : Int :=
  p.check.getD i freeMark

/-- The value of a slot. -/
def valueAt (p : Packing) (i : Nat) : Int :=
  p.values.getD i 0

/-! ## Writing

  A slot has a mark and a value, which are written together.  What a row writes is shown by
  induction on its entries; as their columns differ, none is written over. -/

/-- Writing into an array that is long enough, or was made so. -/
theorem getD_setIfInBounds_append {α : Type} (xs : Array α) {room slot : Nat} (free value : α)
    (hroom : slot < xs.size + room) (i : Nat) :
    ((xs ++ Array.replicate room free).setIfInBounds slot value).getD i free =
      if i = slot then value else xs.getD i free := by
  rw [Array.getD_eq_getD_getElem?, Array.getElem?_setIfInBounds, Array.size_append,
    Array.size_replicate]
  by_cases hi : i = slot
  · rw [if_pos hi.symm, if_pos hi, if_pos hroom]
    rfl
  · rw [if_neg (Ne.symm hi), if_neg hi, Array.getElem?_append, Array.getD_eq_getD_getElem?]
    split
    · rfl
    · rename_i hge
      rw [Array.getElem?_eq_none (Nat.le_of_not_lt hge), Array.getElem?_replicate]
      split <;> rfl

/-- Writing a slot changes the mark of this slot only. -/
theorem markAt_write (p : Packing) (slot : Nat) (value mark : Int) (i : Nat) :
    (p.write slot value mark).markAt i = if i = slot then mark else p.markAt i :=
  getD_setIfInBounds_append p.check freeMark mark (by omega) i

/-- It changes the value of this slot only. -/
theorem valueAt_write {p : Packing} (hsize : p.values.size = p.check.size) (slot : Nat)
    (value mark : Int) (i : Nat) :
    (p.write slot value mark).valueAt i = if i = slot then value else p.valueAt i :=
  getD_setIfInBounds_append p.values 0 value (by omega) i

theorem size_write {p : Packing} (hsize : p.values.size = p.check.size) (slot : Nat)
    (value mark : Int) :
    (p.write slot value mark).values.size = (p.write slot value mark).check.size := by
  simp [write, hsize]

theorem laid_write (p : Packing) (slot : Nat) (value mark : Int) :
    (p.write slot value mark).laid = p.laid :=
  rfl

variable {marking : Marking} {number : Nat} {row : SparseRow} {base : Int}

/-- A row is written entry by entry. -/
theorem writeRow_cons (p : Packing) (e : Nat × Int) :
    p.writeRow marking number (e :: row) base =
      (p.write (base + e.1).toNat e.2 (marking.mark number e.1)).writeRow marking number row
        base := by
  unfold writeRow Marking.mark
  rw [List.foldl_cons]
  split <;> rfl

theorem laid_writeRow (p : Packing) : (p.writeRow marking number row base).laid = p.laid := by
  induction row generalizing p with
  | nil => rfl
  | cons e row ih => rw [writeRow_cons, ih, laid_write]

theorem size_writeRow {p : Packing} (hsize : p.values.size = p.check.size) :
    (p.writeRow marking number row base).values.size =
      (p.writeRow marking number row base).check.size := by
  induction row generalizing p with
  | nil => exact hsize
  | cons e row ih =>
    rw [writeRow_cons]
    exact ih (size_write hsize _ _ _)

/-- Slots that the row does not need stay as they are. -/
theorem writeRow_other {p : Packing} (hsize : p.values.size = p.check.size) (marking : Marking)
    (number : Nat) {row : SparseRow} {base : Int} {i : Nat}
    (hi : ∀ e ∈ row, i ≠ (base + e.1).toNat) :
    (p.writeRow marking number row base).markAt i = p.markAt i ∧
      (p.writeRow marking number row base).valueAt i = p.valueAt i := by
  induction row generalizing p with
  | nil => exact ⟨rfl, rfl⟩
  | cons e row ih =>
    have hne := hi e List.mem_cons_self
    obtain ⟨hmark, hvalue⟩ := ih (size_write hsize (base + e.1).toNat e.2
      (marking.mark number e.1)) fun e' he' => hi e' (List.mem_cons_of_mem _ he')
    rw [writeRow_cons, hmark, hvalue, markAt_write, valueAt_write hsize, if_neg hne, if_neg hne]
    exact ⟨rfl, rfl⟩

/-- The slots that the row needs are written. -/
theorem writeRow_mem {p : Packing} (hsize : p.values.size = p.check.size)
    (hrow : SortedByKey row) (hpos : ∀ e ∈ row, 0 ≤ base + e.1) {e : Nat × Int} (he : e ∈ row) :
    (p.writeRow marking number row base).markAt (base + e.1).toNat = marking.mark number e.1 ∧
      (p.writeRow marking number row base).valueAt (base + e.1).toNat = e.2 := by
  induction row generalizing p with
  | nil => exact absurd he List.not_mem_nil
  | cons e' row ih =>
    obtain ⟨hlt, hrow⟩ := List.pairwise_cons.mp hrow
    rw [writeRow_cons]
    rcases List.mem_cons.mp he with rfl | he
    · -- the entries behind it have greater columns, so they go to other slots
      have hother : ∀ d ∈ row, (base + e.1).toNat ≠ (base + d.1).toNat := by
        intro d hd
        have := hlt d hd
        have := hpos d (List.mem_cons_of_mem _ hd)
        have := hpos e List.mem_cons_self
        omega
      obtain ⟨hmark, hvalue⟩ := writeRow_other
        (size_write hsize (base + e.1).toNat e.2 (marking.mark number e.1)) marking number hother
      rw [hmark, hvalue, markAt_write, valueAt_write hsize, if_pos rfl, if_pos rfl]
      exact ⟨rfl, rfl⟩
    · exact ih (size_write hsize _ _ _) hrow
        (fun d hd => hpos d (List.mem_cons_of_mem _ hd)) he

/-- Every slot is one that the row needs, or it stays as it is. -/
theorem writeRow_cases {p : Packing} (hsize : p.values.size = p.check.size) (marking : Marking)
    (number : Nat) (hrow : SortedByKey row) (hpos : ∀ e ∈ row, 0 ≤ base + e.1) (i : Nat) :
    (∃ e ∈ row, (i : Int) = base + e.1 ∧
        (p.writeRow marking number row base).markAt i = marking.mark number e.1) ∨
      ((p.writeRow marking number row base).markAt i = p.markAt i ∧
        (p.writeRow marking number row base).valueAt i = p.valueAt i) := by
  by_cases hslot : ∃ e ∈ row, i = (base + e.1).toNat
  · obtain ⟨e, he, rfl⟩ := hslot
    exact Or.inl ⟨e, he, Int.toNat_of_nonneg (hpos e he), (writeRow_mem hsize hrow hpos he).1⟩
  · exact Or.inr (writeRow_other hsize marking number fun e he heq => hslot ⟨e, he, heq⟩)

/-! ## The search for a base

  The search goes up from the base at which the first entry of the row stands in slot 0.  Past
  the end of the table all slots are free, so it ends not far behind that. -/

/-- Free slots are those with the mark, and those past the end. -/
theorem isFree_iff {p : Packing} {slot : Int} : p.isFree slot = true ↔
    p.markAt slot.toNat = freeMark := by
  rw [isFree, beq_iff_eq, markAt]

/-- What is asked of a base, in words about marks. -/
theorem admits_iff {p : Packing} : p.admits marking row base = true ↔
    base ≠ 0 ∧ (∀ e ∈ row, p.markAt (base + e.1).toNat = freeMark) ∧
      (marking = .byColumn → ∀ e ∈ p.laid, e.2 ≠ base) := by
  unfold admits
  simp only [Bool.and_eq_true, Bool.or_eq_true, List.all_eq_true, bne_iff_ne, isFree_iff,
    beq_iff_eq, and_assoc]
  refine and_congr_right fun _ => and_congr_right fun _ => ?_
  constructor
  · rintro (h | h) hm
    · rw [hm] at h
      exact absurd h (by decide)
    · exact h
  · intro h
    cases marking with
    | byRow => exact Or.inl rfl
    | byColumn => exact Or.inr (h rfl)

/-- Past the end of the table a row fits at one of the first bases. -/
theorem exists_admits (p : Packing) (marking : Marking) (row : SparseRow) :
    ∃ j, j < p.laid.length + 2 ∧ p.admits marking row (p.check.size + j : Nat) = true := by
  by_contra hnone
  -- there are fewer bases to avoid, 0 and those of the rows, than bases to try
  have hmaps : ∀ j ∈ Finset.range (p.laid.length + 2),
      ((p.check.size + j : Nat) : Int) ∈ insert 0 (p.laid.map (·.2)).toFinset := by
    intro j hj
    have hj : ¬ p.admits marking row (p.check.size + j : Nat) = true := fun h =>
      hnone ⟨j, Finset.mem_range.mp hj, h⟩
    by_contra hout
    refine hj (admits_iff.mpr ⟨fun h0 => hout (h0 ▸ Finset.mem_insert_self _ _), ?_, ?_⟩)
    · intro e _
      rw [markAt, Array.getD_eq_getD_getElem?, Array.getElem?_eq_none (by omega)]
      rfl
    · intro _ e he hbase
      exact hout (Finset.mem_insert_of_mem
        (List.mem_toFinset.mpr (List.mem_map.mpr ⟨e, he, hbase⟩)))
  have hcard := Finset.card_le_card_of_injOn (fun j => ((p.check.size + j : Nat) : Int)) hmaps
    (fun i _ j _ h => by
      have h : ((p.check.size + i : Nat) : Int) = ((p.check.size + j : Nat) : Int) := h
      omega)
  have hins := Finset.card_insert_le (0 : Int) (p.laid.map (·.2)).toFinset
  have hlist := List.toFinset_card_le (p.laid.map (·.2))
  rw [Finset.card_range] at hcard
  rw [List.length_map] at hlist
  omega

/-- So one is met wherever the search starts before the end. -/
theorem exists_admits_from (p : Packing) (marking : Marking) (row : SparseRow) (column : Nat) :
    ∃ k, k < column + p.check.size + p.laid.length + 2 ∧
      p.admits marking row (-(column : Int) + k) = true := by
  obtain ⟨j, hj, hadmits⟩ := exists_admits p marking row
  refine ⟨column + p.check.size + j, by omega, ?_⟩
  rw [show -(column : Int) + (column + p.check.size + j : Nat) = (p.check.size + j : Nat) by omega]
  exact hadmits

variable {p : Packing} {low : Int}

/-- The search for a base goes on until one is admitted. -/
inductive Finds (p : Packing) (marking : Marking) (row : SparseRow) : Int → Int → Prop
  | here {base : Int} (h : p.admits marking row base = true) : Finds p marking row base base
  | later {base found : Int} (h : p.admits marking row base = false)
      (rest : Finds p marking row (base + 1) found) : Finds p marking row base found

/-- The base that is found is the least one. -/
theorem Finds.isLeast (h : p.Finds marking row low base) :
    IsLeast {b : Int | low ≤ b ∧ p.admits marking row b = true} base := by
  induction h with
  | here h => exact ⟨⟨Int.le_refl _, h⟩, fun b hb => hb.1⟩
  | @later low base hnot _ ih =>
    obtain ⟨⟨hle, hadmits⟩, hleast⟩ := ih
    refine ⟨⟨by omega, hadmits⟩, fun b hb => hleast ⟨?_, hb.2⟩⟩
    have hne : b ≠ low := by
      rintro rfl
      exact absurd (hnot.symm.trans hb.2) (by decide)
    have hge : low ≤ b := hb.1
    show low + 1 ≤ b
    omega

/-- If an admitted base is near enough, the bounded search is a search that has ended. -/
theorem finds_leastFit {steps : Nat} (h : ∃ k, k < steps ∧ p.admits marking row (low + k) = true) :
    p.Finds marking row low (p.leastFit marking row steps low) := by
  induction steps generalizing low with
  | zero =>
    obtain ⟨k, hk, -⟩ := h
    omega
  | succ steps ih =>
    rw [leastFit]
    split
    · exact .here ‹_›
    · rename_i hnot
      refine .later (by simpa using hnot) (ih ?_)
      obtain ⟨k, hk, hadmits⟩ := h
      -- an admitted base that is not the first one is one step nearer to the next
      cases k with
      | zero =>
        rw [Int.ofNat_zero, Int.add_zero] at hadmits
        exact absurd hadmits hnot
      | succ k =>
        refine ⟨k, by omega, ?_⟩
        rw [show low + 1 + (k : Int) = low + (k + 1 : Nat) by omega]
        exact hadmits

/-- Every row fits past the end, so the base that is found is not far from it. -/
theorem Finds.le {column : Nat} (h : p.Finds marking row (-(column : Int)) base) :
    base ≤ p.check.size + p.laid.length + 1 := by
  obtain ⟨j, hj, hadmits⟩ := exists_admits p marking row
  have hle : base ≤ (p.check.size + j : Nat) := h.isLeast.2 ⟨by omega, hadmits⟩
  omega

/-- The search ends at a base that is admitted, if one is near enough. -/
theorem leastFit_spec {steps : Nat}
    (h : ∃ k, k < steps ∧ p.admits marking row (low + k) = true) :
    p.admits marking row (p.leastFit marking row steps low) = true ∧
      low ≤ p.leastFit marking row steps low := by
  obtain ⟨hle, hadmits⟩ := (finds_leastFit h).isLeast.1
  exact ⟨hadmits, hle⟩

/-! ## Placing rows

  Where marks are columns, a row that is equal to one in the table shares its base, and nothing is
  written.  Any other row gets a base of its own, since marks do not tell the two apart.  Where
  marks are rows they do, and bases do not matter. -/

/-- The rows with the numbers `done` lie in the table, each at its base. -/
structure Laid (marking : Marking) (rows : Array SparseRow) (p : Packing) (base : Nat → Int)
    (done : List Nat) : Prop where
  size_eq : p.values.size = p.check.size
  /-- entries stand where they should -/
  written : ∀ r ∈ done, ∀ e ∈ rows.getD r [], 0 ≤ base r + e.1 ∧
    p.markAt (base r + e.1).toNat = marking.mark r e.1 ∧
    p.valueAt (base r + e.1).toNat = e.2
  /-- every mark is that of an entry -/
  origin : ∀ i, p.markAt i ≠ freeMark → ∃ r ∈ done, ∃ e ∈ rows.getD r [],
    (i : Int) = base r + e.1 ∧ p.markAt i = marking.mark r e.1
  zero_iff : ∀ r ∈ done, base r = 0 ↔ rows.getD r [] = []
  /-- bases tell rows apart where marks do not -/
  row_eq : marking = .byColumn → ∀ r ∈ done, ∀ s ∈ done, base r = base s →
    rows.getD r [] = rows.getD s []
  laid_row : ∀ e ∈ p.laid, ∃ r ∈ done, rows.getD r [] = e.1 ∧ base r = e.2
  laid_base : ∀ r ∈ done, rows.getD r [] ≠ [] → ∃ e ∈ p.laid, e.2 = base r

variable {rows : Array SparseRow} {bases : Nat → Int} {done : List Nat}

/-- The empty table holds no row. -/
theorem Laid.start (marking : Marking) (rows : Array SparseRow) (bases : Nat → Int) :
    Laid marking rows {} bases [] where
  size_eq := rfl
  written := fun _ hr => absurd hr List.not_mem_nil
  origin := fun _ h => absurd rfl h
  zero_iff := fun _ hr => absurd hr List.not_mem_nil
  row_eq := fun _ _ hr => absurd hr List.not_mem_nil
  laid_row := fun _ he => absurd he List.not_mem_nil
  laid_base := fun _ hr => absurd hr List.not_mem_nil

/-- Only the bases of the rows that lie in the table count. -/
theorem Laid.congr (h : Laid marking rows p bases done) {bases' : Nat → Int}
    (heq : ∀ r ∈ done, bases' r = bases r) : Laid marking rows p bases' done where
  size_eq := h.size_eq
  written r hr e he := by
    rw [heq r hr]
    exact h.written r hr e he
  origin i hi := by
    obtain ⟨r, hr, e, he, hslot, hmark⟩ := h.origin i hi
    exact ⟨r, hr, e, he, by rw [heq r hr]; exact hslot, hmark⟩
  zero_iff r hr := by
    rw [heq r hr]
    exact h.zero_iff r hr
  row_eq hm r hr s hs hbase := by
    rw [heq r hr, heq s hs] at hbase
    exact h.row_eq hm r hr s hs hbase
  laid_row e he := by
    obtain ⟨r, hr, hrow, hbase⟩ := h.laid_row e he
    exact ⟨r, hr, hrow, by rw [heq r hr]; exact hbase⟩
  laid_base r hr hne := by
    rw [heq r hr]
    exact h.laid_base r hr hne

/-- A row without entries is placed at base 0, and nothing is written. -/
theorem Laid.empty (h : Laid marking rows p bases done) {r : Nat} (hrow : rows.getD r [] = [])
    (hbase : bases r = 0) : Laid marking rows p bases (r :: done) where
  size_eq := h.size_eq
  written s hs e he := by
    rcases List.mem_cons.mp hs with rfl | hs
    · rw [hrow] at he
      exact absurd he List.not_mem_nil
    · exact h.written s hs e he
  origin i hi := by
    obtain ⟨s, hs, hrest⟩ := h.origin i hi
    exact ⟨s, List.mem_cons_of_mem _ hs, hrest⟩
  zero_iff s hs := by
    rcases List.mem_cons.mp hs with rfl | hs
    · exact ⟨fun _ => hrow, fun _ => hbase⟩
    · exact h.zero_iff s hs
  row_eq hm s hs s' hs' heq := by
    -- where the base is 0 the row is empty
    have hzero : ∀ s ∈ r :: done, bases s = 0 → rows.getD s [] = [] := by
      intro s hs h0
      rcases List.mem_cons.mp hs with rfl | hs
      · exact hrow
      · exact (h.zero_iff s hs).mp h0
    rcases List.mem_cons.mp hs with rfl | hold
    · rw [hrow, hzero s' hs' (heq ▸ hbase)]
    · rcases List.mem_cons.mp hs' with rfl | hold'
      · rw [hrow, hzero s hs (heq.trans hbase)]
      · exact h.row_eq hm s hold s' hold' heq
  laid_row e he := by
    obtain ⟨s, hs, hrest⟩ := h.laid_row e he
    exact ⟨s, List.mem_cons_of_mem _ hs, hrest⟩
  laid_base s hs hne := by
    rcases List.mem_cons.mp hs with rfl | hs
    · exact absurd hrow hne
    · exact h.laid_base s hs hne

/-- A row equal to one that was placed shares its base, and nothing is written. -/
theorem Laid.share (h : Laid .byColumn rows p bases done) {r s : Nat} (hs : s ∈ done)
    (hrow : rows.getD r [] = rows.getD s []) (hbase : bases r = bases s) :
    Laid .byColumn rows p bases (r :: done) where
  size_eq := h.size_eq
  written s' hs' e he := by
    rcases List.mem_cons.mp hs' with rfl | hs'
    · rw [hrow] at he
      rw [hbase]
      exact h.written s hs e he
    · exact h.written s' hs' e he
  origin i hi := by
    obtain ⟨s', hs', hrest⟩ := h.origin i hi
    exact ⟨s', List.mem_cons_of_mem _ hs', hrest⟩
  zero_iff s' hs' := by
    rcases List.mem_cons.mp hs' with rfl | hs'
    · rw [hrow, hbase]
      exact h.zero_iff s hs
    · exact h.zero_iff s' hs'
  row_eq hm t ht u hu heq := by
    -- the new row is one of the old ones, as far as bases and entries go
    have hold : ∀ t ∈ r :: done, ∃ t' ∈ done, bases t = bases t' ∧
        rows.getD t [] = rows.getD t' [] := by
      intro t ht
      rcases List.mem_cons.mp ht with rfl | ht
      · exact ⟨s, hs, hbase, hrow⟩
      · exact ⟨t, ht, rfl, rfl⟩
    obtain ⟨t', ht', hbt, hrt⟩ := hold t ht
    obtain ⟨u', hu', hbu, hru⟩ := hold u hu
    rw [hrt, hru]
    exact h.row_eq hm t' ht' u' hu' (by rw [← hbt, ← hbu, heq])
  laid_row e he := by
    obtain ⟨s', hs', hrest⟩ := h.laid_row e he
    exact ⟨s', List.mem_cons_of_mem _ hs', hrest⟩
  laid_base s' hs' hne := by
    rcases List.mem_cons.mp hs' with rfl | hs'
    · rw [hrow] at hne
      rw [hbase]
      exact h.laid_base s hs hne
    · exact h.laid_base s' hs' hne

/-- The bases in use are those of the rows that have entries. -/
theorem Laid.forall_laid_iff (h : Laid marking rows p bases done) {b : Int} (hb : b ≠ 0) :
    (∀ e ∈ p.laid, e.2 ≠ b) ↔ ∀ s ∈ done, bases s ≠ b := by
  constructor
  · rintro hlaid s hs rfl
    have hrow : rows.getD s [] ≠ [] := fun hrow => hb ((h.zero_iff s hs).mpr hrow)
    obtain ⟨e, he, heq⟩ := h.laid_base s hs hrow
    exact hlaid e he heq
  · rintro hdone e he rfl
    obtain ⟨s, hs, -, heq⟩ := h.laid_row e he
    exact hdone s hs heq

/-- A row is written at a base that is admitted. -/
theorem Laid.write (h : Laid marking rows p bases done) {r : Nat} (hrow : rows.getD r [] = row)
    (hne : row ≠ []) (hsorted : SortedByKey row) (hpos : ∀ e ∈ row, 0 ≤ bases r + e.1)
    (hadmits : p.admits marking row (bases r) = true) {p' : Packing}
    (hp' : p' = { p.writeRow marking r row (bases r) with
      laid := p.laid ++ [(row, bases r)] }) : Laid marking rows p' bases (r :: done) := by
  subst hp' hrow
  obtain ⟨hbase, hfree, hdistinct⟩ := admits_iff.mp hadmits
  -- the new entries stand in free slots, so what is written already is kept
  have hkeep : ∀ {i : Nat}, p.markAt i ≠ freeMark →
      (p.writeRow marking r (rows.getD r []) (bases r)).markAt i = p.markAt i ∧
        (p.writeRow marking r (rows.getD r []) (bases r)).valueAt i = p.valueAt i := fun hset =>
    writeRow_other h.size_eq marking r fun e he heq => hset (heq ▸ hfree e he)
  have hbases : marking = .byColumn → ∀ s ∈ done, bases s ≠ bases r := fun hm =>
    (h.forall_laid_iff hbase).mp (hdistinct hm)
  exact
    { size_eq := size_writeRow h.size_eq
      written := by
        intro s hs e he
        rcases List.mem_cons.mp hs with rfl | hs
        · exact ⟨hpos e he, writeRow_mem h.size_eq hsorted hpos he⟩
        · obtain ⟨hle, hmark, hvalue⟩ := h.written s hs e he
          have hset : p.markAt (bases s + e.1).toNat ≠ freeMark := by
            rw [hmark]
            exact marking.mark_ne_free s e.1
          obtain ⟨hm, hv⟩ := hkeep hset
          exact ⟨hle, hm.trans hmark, hv.trans hvalue⟩
      origin := by
        intro i hi
        rcases writeRow_cases h.size_eq marking r hsorted hpos i with
          ⟨e, he, hslot, hmark⟩ | ⟨hsame, -⟩
        · exact ⟨r, List.mem_cons_self, e, he, hslot, hmark⟩
        · obtain ⟨s, hs, e, he, hslot, hmark⟩ := h.origin i fun h0 => hi (hsame.trans h0)
          exact ⟨s, List.mem_cons_of_mem _ hs, e, he, hslot, hsame.trans hmark⟩
      zero_iff := by
        intro s hs
        rcases List.mem_cons.mp hs with rfl | hs
        · exact ⟨fun h0 => absurd h0 hbase, fun h0 => absurd h0 hne⟩
        · exact h.zero_iff s hs
      row_eq := by
        intro hm s hs t ht heq
        rcases List.mem_cons.mp hs with rfl | hs' <;> rcases List.mem_cons.mp ht with rfl | ht'
        · rfl
        · exact absurd heq.symm (hbases hm t ht')
        · exact absurd heq (hbases hm s hs')
        · exact h.row_eq hm s hs' t ht' heq
      laid_row := by
        intro e he
        rcases List.mem_append.mp he with he | he
        · obtain ⟨s, hs, hrest⟩ := h.laid_row e he
          exact ⟨s, List.mem_cons_of_mem _ hs, hrest⟩
        · rw [List.mem_singleton.mp he]
          exact ⟨r, List.mem_cons_self, rfl, rfl⟩
      laid_base := by
        intro s hs hsome
        rcases List.mem_cons.mp hs with rfl | hs
        · exact ⟨_, List.mem_append_right _ (List.mem_singleton_self _), rfl⟩
        · obtain ⟨e, he, hes⟩ := h.laid_base s hs hsome
          exact ⟨e, List.mem_append_left _ he, hes⟩ }

/-- A row that is equal to an earlier one takes its base. -/
theorem addRow_shared (p : Packing) (r : Nat) (hne : row ≠ []) {base : Int}
    (h : p.shared? marking row = some base) : p.addRow marking r row = (p, base) := by
  cases row with
  | nil => exact absurd rfl hne
  | cons e rest => simp only [addRow, h]

/-- Any other row gets the base that the search finds, and is written there. -/
theorem addRow_new (p : Packing) (r : Nat) {e : Nat × Int} {rest : SparseRow}
    (h : p.shared? marking (e :: rest) = none) {base : Int}
    (hbase : (p.addRow marking r (e :: rest)).2 = base) :
    base = p.leastFit marking (e :: rest) (e.1 + p.check.size + p.laid.length + 2) (-e.1) ∧
      (p.addRow marking r (e :: rest)).1 = { p.writeRow marking r (e :: rest) base with
        laid := p.laid ++ [(e :: rest, base)] } := by
  subst hbase
  simp only [addRow, h, laid_writeRow, and_self]

/-- A shared base is that of an equal row. -/
theorem Laid.of_shared (h : Laid marking rows p bases done) {base : Int}
    (hshared : p.shared? marking row = some base) :
    marking = .byColumn ∧ ∃ s ∈ done, rows.getD s [] = row ∧ bases s = base := by
  unfold shared? at hshared
  split at hshared
  · rename_i hm
    obtain ⟨l, l', hlaid, -⟩ := List.lookup_eq_some_iff.mp hshared
    have hmem : (row, base) ∈ p.laid := by
      rw [hlaid]
      exact List.mem_append_right _ List.mem_cons_self
    exact ⟨hm, h.laid_row _ hmem⟩
  · exact absurd hshared (by simp)

/-- One more row is placed. -/
theorem Laid.addRow (h : Laid marking rows p bases done) {r : Nat}
    (hsorted : SortedByKey (rows.getD r []))
    (hbase : bases r = (p.addRow marking r (rows.getD r [])).2) :
    Laid marking rows (p.addRow marking r (rows.getD r [])).1 bases (r :: done) := by
  cases hrow : rows.getD r [] with
  | nil =>
    rw [hrow] at hbase
    exact h.empty hrow hbase
  | cons e rest =>
    rw [hrow] at hbase hsorted
    cases hshared : p.shared? marking (e :: rest) with
    | some base =>
      rw [addRow_shared p r (List.cons_ne_nil _ _) hshared] at hbase ⊢
      obtain ⟨rfl, s, hs, hrow', hbase'⟩ := h.of_shared hshared
      exact h.share hs (hrow.trans hrow'.symm) (hbase.trans hbase'.symm)
    | none =>
      obtain ⟨hadmits, hle⟩ := leastFit_spec (exists_admits_from p marking (e :: rest) e.1)
      obtain ⟨hfit, hnew⟩ := addRow_new p r hshared hbase.symm
      rw [← hfit] at hadmits hle
      rw [hnew]
      -- the base is no less than minus the first column, and that is the least one
      refine h.write hrow (List.cons_ne_nil _ _) hsorted (fun d hd => ?_) hadmits rfl
      have hcolumn := hsorted.head_le d hd
      omega

/-! ## Reading

  A slot belongs to a row and a column if its mark is theirs.  The mark says the column or the
  row, and the base says the other. -/

/-- Where the mark for row `r` and column `c` stands, row `r` has the value in that column. -/
theorem Laid.mem_of_mark (h : Laid marking rows p bases done) {r : Nat} (hr : r ∈ done) {c : Nat}
    (hpos : 0 ≤ bases r + c) (hmark : p.markAt (bases r + c).toNat = marking.mark r c) :
    (c, p.valueAt (bases r + c).toNat) ∈ rows.getD r [] := by
  obtain ⟨s, hs, e, he, hslot, hmark'⟩ := h.origin _ (hmark ▸ marking.mark_ne_free r c)
  rw [hmark] at hmark'
  -- marked by row, the entry is one of row `r`; marked by column, its row has the base of row `r`
  have hsame : rows.getD s [] = rows.getD r [] ∧ e.1 = c := by
    cases marking with
    | byColumn =>
      have hc : (c : Int) = e.1 := hmark'
      exact ⟨h.row_eq rfl s hs r hr (by omega), by omega⟩
    | byRow =>
      have hrs : (r : Int) = s := hmark'
      obtain rfl : r = s := by omega
      exact ⟨rfl, by omega⟩
  obtain ⟨hrow, rfl⟩ := hsame
  rw [hrow] at he
  rw [(h.written r hr e he).2.2]
  exact he

theorem getElem?_check_eq_some_iff {i : Nat} {m : Int} (hm : m ≠ freeMark) :
    p.check[i]? = some m ↔ p.markAt i = m := by
  rw [markAt, Array.getD_eq_getD_getElem?]
  cases p.check[i]? with
  | none => exact ⟨fun h => absurd h (by simp), fun h => absurd h.symm hm⟩
  | some m' => simp

/-- A row that lies in the table is read as it is. -/
theorem Laid.read (h : Laid marking rows p bases done) {r : Nat} (hr : r ∈ done)
    (hsorted : SortedByKey (rows.getD r [])) {table : SparseTable}
    (hvalues : table.values = p.values)
    (hcheck : table.check = p.check) (hbase : table.base[r]? = some (bases r)) (c : Nat) :
    table.read r c (marking.mark r c) = .ok ((rows.getD r []).lookup c) := by
  rw [SparseTable.read, hbase]
  show table.entryAt (bases r + c) (marking.mark r c) = _
  unfold SparseTable.entryAt
  rw [hvalues, hcheck]
  split
  · rename_i hneg
    rw [lookup_eq_none_of_forall fun e he heq => ?_]
    -- its place would be in front of the table, where no entry lies
    have := (h.written r hr e he).1
    omega
  · rename_i hpos
    split
    · rename_i hmark
      -- the mark is that of row and column, so the slot holds an entry of this very row
      have hlt := (Array.getElem?_eq_some_iff.mp hmark).1
      rw [← h.size_eq] at hlt
      have hmem := h.mem_of_mark hr (Int.not_lt.mp hpos)
        ((getElem?_check_eq_some_iff (marking.mark_ne_free r c)).mp hmark)
      have hvalue : p.values[(bases r + c).toNat]? = some (p.valueAt (bases r + c).toNat) := by
        rw [valueAt, Array.getD_eq_getD_getElem?, Array.getElem?_eq_getElem hlt]
        rfl
      rw [hvalue, hsorted.lookup_eq_some_iff.mpr hmem]
    · rename_i hmark
      rw [lookup_eq_none_of_forall fun e he heq => ?_]
      -- an entry for the column would have left its mark here
      subst heq
      exact hmark ((getElem?_check_eq_some_iff (marking.mark_ne_free r e.1)).mpr
        (h.written r hr e he).2.1)

end Packing

/-! ## All rows

  Packing is a fold over the rows, in the order in which they are placed.  By the end every row
  has been placed, whatever that order is. -/

namespace PackedRows

open Packing

/-- Places row `r`, and notes its base. -/
def place (marking : Marking) (rows : Array SparseRow) (acc : Packing × Array Int) (r : Nat) :
    Packing × Array Int :=
  let (packing, b) := acc.1.addRow marking r (rows.getD r [])
  (packing, acc.2.setIfInBounds r b)

/-- The table after all rows were placed. -/
theorem pack_table (marking : Marking) (rows : Array SparseRow) :
    (pack marking rows).table =
      { values := ((placingOrder rows).foldl (place marking rows)
          ({}, Array.replicate rows.size 0)).1.values
        check := ((placingOrder rows).foldl (place marking rows)
          ({}, Array.replicate rows.size 0)).1.check
        base := ((placingOrder rows).foldl (place marking rows)
          ({}, Array.replicate rows.size 0)).2 } :=
  rfl

/-- There is a base for each row, sorted or not. -/
theorem size_base (marking : Marking) (rows : Array SparseRow) :
    (pack marking rows).table.base.size = rows.size := by
  have hfold : ∀ (order : List Nat) (acc : Packing × Array Int),
      (order.foldl (place marking rows) acc).2.size = acc.2.size := by
    intro order
    induction order with
    | nil => exact fun _ => rfl
    | cons r order ih =>
      intro acc
      rw [List.foldl_cons, ih]
      exact Array.size_setIfInBounds
  rw [pack_table]
  exact (hfold _ _).trans Array.size_replicate

/-- Placing rows keeps what was laid before them. -/
theorem place_fold {marking : Marking} {rows : Array SparseRow}
    (hsorted : ∀ row ∈ rows, SortedByKey row) {order done : List Nat} (acc : Packing × Array Int)
    (hsize : acc.2.size = rows.size) (h : Laid marking rows acc.1 (acc.2.getD · 0) done)
    (hnodup : order.Nodup) (hfresh : ∀ r ∈ order, r < rows.size ∧ r ∉ done) :
    (order.foldl (place marking rows) acc).2.size = rows.size ∧
      Laid marking rows (order.foldl (place marking rows) acc).1
        ((order.foldl (place marking rows) acc).2.getD · 0) (order.reverse ++ done) := by
  induction order generalizing done acc with
  | nil => exact ⟨hsize, h⟩
  | cons r order ih =>
    obtain ⟨hr, hnodup⟩ := List.nodup_cons.mp hnodup
    obtain ⟨hlt, hnot⟩ := hfresh r List.mem_cons_self
    -- placing a row leaves the bases of the others alone
    have hkeep : ∀ s ∈ done, (place marking rows acc r).2.getD s 0 = acc.2.getD s 0 := by
      intro s hs
      have hne : r ≠ s := fun heq => hnot (heq ▸ hs)
      simp [place, Array.getD_eq_getD_getElem?, hne]
    have hbase : (place marking rows acc r).2.getD r 0 =
        (acc.1.addRow marking r (rows.getD r [])).2 := by
      simp [place, Array.getD_eq_getD_getElem?, hsize, hlt]
    rw [List.foldl_cons, List.reverse_cons, List.append_assoc]
    refine ih _ ?_ ((h.congr hkeep).addRow (.getD hsorted r) hbase) hnodup fun s hs => ?_
    · rw [← hsize]
      exact Array.size_setIfInBounds
    · obtain ⟨hlt', hnot'⟩ := hfresh s (List.mem_cons_of_mem _ hs)
      refine ⟨hlt', fun hmem => ?_⟩
      rcases List.mem_cons.mp hmem with rfl | hmem
      · exact hr hs
      · exact hnot' hmem

/-- After packing, every row is laid. -/
theorem pack_laid (marking : Marking) {rows : Array SparseRow}
    (hsorted : ∀ row ∈ rows, SortedByKey row) :
    ∃ packing bases, (pack marking rows).table = ⟨packing.values, packing.check, bases⟩ ∧
      bases.size = rows.size ∧
      Laid marking rows packing (bases.getD · 0) (placingOrder rows).reverse := by
  have hperm : (placingOrder rows).Perm (List.range rows.size) := List.mergeSort_perm _ _
  obtain ⟨hsize, hlaid⟩ := place_fold hsorted ({}, Array.replicate rows.size 0)
    Array.size_replicate (Laid.start marking rows _)
    (hperm.nodup_iff.mpr List.nodup_range)
    fun s hs => ⟨List.mem_range.mp (hperm.mem_iff.mp hs), List.not_mem_nil⟩
  rw [List.append_nil] at hlaid
  exact ⟨_, _, pack_table marking rows, hsize, hlaid⟩

/-- A packed table has a base for each row, and a value for each slot that it marks. -/
theorem size_pack (marking : Marking) {rows : Array SparseRow}
    (hsorted : ∀ row ∈ rows, SortedByKey row) :
    (pack marking rows).table.base.size = rows.size ∧
      (pack marking rows).table.check.size = (pack marking rows).table.values.size := by
  obtain ⟨packing, bases, htable, hsize, hlaid⟩ := pack_laid marking hsorted
  rw [htable]
  exact ⟨hsize, hlaid.size_eq.symm⟩

/-- A packed table holds, for every row and column, the row's entry in that column, and nothing
    where the row has none. -/
theorem read_pack (marking : Marking) {rows : Array SparseRow}
    (hsorted : ∀ row ∈ rows, SortedByKey row) {r : Nat} (hr : r < rows.size) (c : Nat) :
    (pack marking rows).table.read r c (marking.mark r c) = .ok ((rows.getD r []).lookup c) := by
  obtain ⟨packing, bases, htable, hsize, hlaid⟩ := pack_laid marking hsorted
  have hmem : r ∈ (placingOrder rows).reverse := by
    rw [List.mem_reverse, placingOrder, List.mem_mergeSort]
    exact List.mem_range.mpr hr
  rw [htable]
  refine hlaid.read hmem (.getD hsorted r) rfl rfl ?_ c
  show bases[r]? = some (bases.getD r 0)
  rw [Array.getD_eq_getD_getElem?, Array.getElem?_eq_getElem (by rw [hsize]; exact hr)]
  rfl

end PackedRows

end Lalr
