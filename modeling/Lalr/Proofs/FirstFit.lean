/-
  Packing is first fit.

  Rows are placed one after the other, the longest first, and a row gets the least base that the
  rows before it leave.  Like `Finds` for the search for a base, `Places` and `Packs` are the
  placing of a row and that of all rows, with no bound on the steps; a derivation is a run that has
  ended.

    1. The runs end, each in one way only, and what they end in is what the bounded search computes
       (`places_iff`, `packs_iff`).
    2. A search ends at the least base that is admitted.  What is admitted can be said of rows and
       bases alone, without the table (`admits_iff_canLie`).
    3. `Tidy` is what placing keeps beside `Laid`: equal rows are found again, unused slots hold 0,
       and the table is not longer than the rows call for.

  Slots have 32-bit numbers, so rows are packed only if all their first fits are below `2 ^ 31`
  (`pack?_eq_some_iff`); with few enough rows and columns they are (`isNarrow_pack`).

  `pack_firstFit` puts these together with what `Laid` says of reading.
-/
import Mathlib
import Lalr.Proofs.Packing

namespace Lalr

namespace Packing

variable {marking : Marking} {number : Nat} {row : SparseRow} {p : Packing} {low base : Int}

/-! ## Placing a row

  A row is placed in one of three ways: it is empty, or it shares the base of an equal one that was
  placed, or it is written where the search for a base ends. -/

/-- Placing a row, with the search run to its end. -/
inductive Places (marking : Marking) (number : Nat) (p : Packing) :
    SparseRow → Packing × Int → Prop
  | empty : Places marking number p [] (p, 0)
  | shared {e : Nat × Int} {rest : SparseRow} {base : Int}
      (h : p.shared? marking (e :: rest) = some base) :
      Places marking number p (e :: rest) (p, base)
  | fresh {e : Nat × Int} {rest : SparseRow} {base : Int}
      (h : p.shared? marking (e :: rest) = none)
      (search : p.Finds marking (e :: rest) (-(e.1 : Int)) base) :
      Places marking number p (e :: rest)
        ({ p.writeRow marking number (e :: rest) base with
            laid := p.laid ++ [(e :: rest, base)] }, base)

/-- Adding a row places it. -/
theorem places_addRow (marking : Marking) (number : Nat) (p : Packing) (row : SparseRow) :
    Places marking number p row (p.addRow marking number row) := by
  cases row with
  | nil => exact .empty
  | cons e rest =>
    cases hshared : p.shared? marking (e :: rest) with
    | some base =>
      rw [addRow_shared p number (List.cons_ne_nil _ _) hshared]
      exact .shared hshared
    | none =>
      have hsearch := finds_leastFit (exists_admits_from p marking (e :: rest) e.1)
      obtain ⟨hbase, hnew⟩ := addRow_new p number hshared rfl
      rw [← hbase] at hsearch
      have h : Places marking number p (e :: rest) _ := .fresh hshared hsearch
      rwa [← hnew] at h

/-- There is one way to place a row. -/
theorem Places.unique {res res' : Packing × Int} (h : Places marking number p row res)
    (h' : Places marking number p row res') : res = res' := by
  cases h with
  | empty =>
    cases h'
    rfl
  | shared h =>
    cases h' with
    | shared h' =>
      obtain rfl := Option.some.inj (h.symm.trans h')
      rfl
    | fresh h' => exact absurd (h.symm.trans h') (by simp)
  | fresh h search =>
    cases h' with
    | shared h' => exact absurd (h.symm.trans h') (by simp)
    | fresh _ search' =>
      obtain rfl := search.isLeast.unique search'.isLeast
      rfl

/-- The row can lie at base `b`, if the rows `before` lie at their bases. -/
structure CanLie (marking : Marking) (rows : Array SparseRow) (bases : Nat → Int)
    (before : List Nat) (row : SparseRow) (b : Int) : Prop where
  /-- the base is not less than minus the first column -/
  first_le : ∀ e ∈ row.head?, -(e.1 : Int) ≤ b
  ne_zero : b ≠ 0
  /-- no entry falls on one of an earlier row -/
  apart : ∀ s ∈ before, ∀ d ∈ rows.getD s [], ∀ e ∈ row, b + e.1 ≠ bases s + d.1
  /-- no earlier row has the base, if rows are told apart by it -/
  distinct : marking = .byColumn → ∀ s ∈ before, bases s ≠ b

section

variable {rows : Array SparseRow} {bases : Nat → Int} {done : List Nat}

/-- A slot is in use if and only if an entry of a row stands there. -/
theorem Laid.markAt_eq_free_iff (h : Laid marking rows p bases done) {slot : Int}
    (hslot : 0 ≤ slot) : p.markAt slot.toNat = freeMark ↔
      ∀ s ∈ done, ∀ d ∈ rows.getD s [], slot ≠ bases s + d.1 := by
  constructor
  · rintro hfree s hs d hd rfl
    rw [(h.written s hs d hd).2.1] at hfree
    exact marking.mark_ne_free s d.1 hfree
  · intro hnone
    by_contra hused
    obtain ⟨s, hs, d, hd, heq, -⟩ := h.origin _ hused
    exact hnone s hs d hd (by omega)

/-- A base is admitted if the row can lie there beside the rows that were placed. -/
theorem Laid.admits_iff_canLie (h : Laid marking rows p bases done) {e : Nat × Int}
    {rest : SparseRow} (hsorted : SortedByKey (e :: rest)) {b : Int} :
    (-(e.1 : Int) ≤ b ∧ p.admits marking (e :: rest) b = true) ↔
      CanLie marking rows bases done (e :: rest) b := by
  have hpos : -(e.1 : Int) ≤ b → ∀ d ∈ e :: rest, 0 ≤ b + d.1 := by
    intro hle d hd
    have hcolumn := hsorted.head_le d hd
    omega
  rw [admits_iff]
  constructor
  · rintro ⟨hle, hzero, hfree, hdistinct⟩
    refine ⟨fun d hd => ?_, hzero, fun s hs d hd d' hd' => ?_,
      fun hm => (h.forall_laid_iff hzero).mp (hdistinct hm)⟩
    · obtain rfl : e = d := by simpa using hd
      exact hle
    · exact (h.markAt_eq_free_iff (hpos hle d' hd')).mp (hfree d' hd') s hs d hd
  · rintro ⟨hfirst, hzero, hapart, hdistinct⟩
    have hle := hfirst e rfl
    refine ⟨hle, hzero, fun d hd => ?_, fun hm => (h.forall_laid_iff hzero).mpr (hdistinct hm)⟩
    exact (h.markAt_eq_free_iff (hpos hle d hd)).mpr fun s hs d' hd' => hapart s hs d' hd' d hd

end

/-! ## What placing keeps besides

  First fit needs more of the table than reading does.  Reading asks that no entry is lost; here
  it matters as well that nothing is in the way that no row has put there. -/

/-- Equal rows are found again, unused slots hold 0, and the table is not longer than the rows call
    for. -/
structure Tidy (marking : Marking) (rows : Array SparseRow) (p : Packing) (bases : Nat → Int)
    (done : List Nat) : Prop where
  shares : marking = .byColumn → ∀ s ∈ done, rows.getD s [] ≠ [] →
    p.laid.lookup (rows.getD s []) = some (bases s)
  blank : ∀ i, p.markAt i = freeMark → p.valueAt i = 0
  length_laid : p.laid.length ≤ done.length
  size_le : ∀ width, (∀ row ∈ rows, ∀ e ∈ row, e.1 < width) →
    p.check.size ≤ done.length * (done.length + width)

/-- The table grows up to the slot that is written. -/
theorem size_write_le {n slot : Nat} {value mark : Int} (hsize : p.check.size ≤ n)
    (hslot : slot < n) : (p.write slot value mark).check.size ≤ n := by
  simp only [write, Array.size_setIfInBounds, Array.size_append, Array.size_replicate]
  omega

/-- With a row it grows up to the row's last slot. -/
theorem size_writeRow_le {n : Nat} (hsize : p.check.size ≤ n) (hrow : ∀ e ∈ row, base + e.1 < n)
    (hpos : ∀ e ∈ row, 0 ≤ base + e.1) : (p.writeRow marking number row base).check.size ≤ n := by
  induction row generalizing p with
  | nil => exact hsize
  | cons e row ih =>
    have hlt := hrow e List.mem_cons_self
    have hge := hpos e List.mem_cons_self
    rw [writeRow_cons]
    exact ih (size_write_le hsize (by omega)) (fun d hd => hrow d (List.mem_cons_of_mem _ hd))
      fun d hd => hpos d (List.mem_cons_of_mem _ hd)

section

variable {rows : Array SparseRow} {bases : Nat → Int} {done : List Nat}

/-- Without rows the table has no slots. -/
theorem Tidy.start (marking : Marking) (rows : Array SparseRow) (bases : Nat → Int) :
    Tidy marking rows {} bases [] where
  shares := fun _ _ hs => absurd hs List.not_mem_nil
  blank := fun _ _ => rfl
  length_laid := Nat.le_refl _
  size_le := fun _ _ => Nat.zero_le _

/-- Only the bases of the rows that lie in the table count. -/
theorem Tidy.congr (h : Tidy marking rows p bases done) {bases' : Nat → Int}
    (heq : ∀ r ∈ done, bases' r = bases r) : Tidy marking rows p bases' done where
  shares hm s hs hne := by
    rw [heq s hs]
    exact h.shares hm s hs hne
  blank := h.blank
  length_laid := h.length_laid
  size_le := h.size_le

/-- Where nothing is written, one more row takes no more room. -/
theorem Tidy.cons_of_kept (h : Tidy marking rows p bases done) {r : Nat}
    (hshares : marking = .byColumn → rows.getD r [] ≠ [] →
      p.laid.lookup (rows.getD r []) = some (bases r)) :
    Tidy marking rows p bases (r :: done) where
  shares hm s hs hne := by
    rcases List.mem_cons.mp hs with rfl | hs
    · exact hshares hm hne
    · exact h.shares hm s hs hne
  blank := h.blank
  length_laid := Nat.le_succ_of_le h.length_laid
  size_le width hwidth := by
    refine (h.size_le width hwidth).trans (Nat.mul_le_mul ?_ ?_)
    · exact Nat.le_succ _
    · rw [List.length_cons]
      omega

/-- A row that is written at the base that was found ends before the bound. -/
theorem Tidy.size_writeRow_le (h : Tidy marking rows p bases done) {width : Nat}
    (hwidth : ∀ row ∈ rows, ∀ e ∈ row, e.1 < width) {e : Nat × Int} {rest : SparseRow}
    (hmem : e :: rest ∈ rows) (hsearch : p.Finds marking (e :: rest) (-(e.1 : Int)) base)
    (hpos : ∀ d ∈ e :: rest, 0 ≤ base + d.1) :
    (p.writeRow marking number (e :: rest) base).check.size ≤
      (done.length + 1) * (done.length + 1 + width) := by
  have hfound := hsearch.le
  have hlength := h.length_laid
  have hold := h.size_le width hwidth
  have hn : p.check.size + done.length + 1 + width ≤
      (done.length + 1) * (done.length + 1 + width) := by
    nlinarith
  refine Packing.size_writeRow_le (n := (done.length + 1) * (done.length + 1 + width)) (by omega)
    (fun d hd => ?_) hpos
  have hcolumn := hwidth _ hmem d hd
  omega

/-- One more row is placed. -/
theorem Tidy.place (h : Tidy marking rows p bases done) (hlaid : Laid marking rows p bases done)
    {r : Nat} (hr : r < rows.size) (hsorted : SortedByKey (rows.getD r [])) {p' : Packing}
    (hplaces : Places marking r p (rows.getD r []) (p', bases r)) :
    Tidy marking rows p' bases (r :: done) := by
  generalize hrow : rows.getD r [] = row at hplaces hsorted
  generalize hbase : bases r = base at hplaces
  cases hplaces with
  | empty => exact h.cons_of_kept fun _ hne => absurd hrow hne
  | @shared e rest _ hshared =>
    refine h.cons_of_kept fun hm _ => ?_
    rw [shared?, if_pos hm] at hshared
    rw [hrow, hbase, hshared]
  | @fresh e rest _ hnone hsearch =>
    -- the base that was found is no less than minus the first column, so no slot is negative
    have hcanLie := (hlaid.admits_iff_canLie hsorted).mp hsearch.isLeast.1
    have hle := hcanLie.first_le e rfl
    have hpos : ∀ d ∈ e :: rest, 0 ≤ base + d.1 := by
      intro d hd
      have hcolumn := hsorted.head_le d hd
      omega
    refine ⟨fun hm s hs hne => ?_, fun i hfree => ?_, ?_, fun width hwidth => ?_⟩
    · show List.lookup _ (p.laid ++ [(e :: rest, base)]) = _
      rw [List.lookup_append]
      rcases List.mem_cons.mp hs with rfl | hs
      · rw [shared?, if_pos hm] at hnone
        rw [hrow, hnone, hbase, Option.none_or, List.lookup_cons_self]
      · rw [h.shares hm s hs hne, Option.some_or]
    · -- a slot that is still free was not written
      rcases writeRow_cases hlaid.size_eq marking r hsorted hpos i with
        ⟨d, -, -, hmark⟩ | ⟨hmark, hvalue⟩
      · exact absurd (hmark.symm.trans hfree) (marking.mark_ne_free r d.1)
      · exact hvalue.trans (h.blank i (hmark.symm.trans hfree))
    · show (p.laid ++ [(e :: rest, base)]).length ≤ _
      rw [List.length_append, List.length_cons]
      exact Nat.succ_le_succ h.length_laid
    · have hmem : e :: rest ∈ rows := by
        rw [← hrow, Array.getD_eq_getD_getElem?, Array.getElem?_eq_getElem hr]
        exact Array.getElem_mem hr
      exact h.size_writeRow_le hwidth hmem hsearch hpos

end

end Packing

/-! ## All rows

  Rows are placed in an order of their own, the longest first.  Of a row that was placed, the
  base stays as it is from then on. -/

namespace PackedRows

open Packing

variable {marking : Marking} {rows : Array SparseRow}

/-- The packing and the bases once the rows `done` are placed. -/
def placed (marking : Marking) (rows : Array SparseRow) (done : List Nat) : Packing × Array Int :=
  done.foldl (place marking rows) ({}, Array.replicate rows.size 0)

/-- Placing other rows does not change a base. -/
theorem base_foldl_place {order : List Nat} (acc : Packing × Array Int) {s : Nat}
    (hs : s ∉ order) : (order.foldl (place marking rows) acc).2.getD s 0 = acc.2.getD s 0 := by
  induction order generalizing acc with
  | nil => rfl
  | cons r order ih =>
    have hne : r ≠ s := fun heq => hs (heq ▸ List.mem_cons_self)
    rw [List.foldl_cons, ih _ fun hmem => hs (List.mem_cons_of_mem _ hmem)]
    simp [place, Array.getD_eq_getD_getElem?, hne]

/-- The invariants hold at every moment. -/
theorem placed_spec (marking : Marking) (hsorted : ∀ row ∈ rows, SortedByKey row) {done : List Nat}
    (hnodup : done.Nodup) (hlt : ∀ r ∈ done, r < rows.size) :
    (placed marking rows done).2.size = rows.size ∧
      Laid marking rows (placed marking rows done).1 ((placed marking rows done).2.getD · 0)
        done.reverse := by
  have h := place_fold hsorted ({}, Array.replicate rows.size 0)
    Array.size_replicate (Laid.start marking rows _) hnodup fun r hr => ⟨hlt r hr, List.not_mem_nil⟩
  rwa [List.append_nil] at h

/-- Rows are placed one after the other. -/
theorem placed_concat (done : List Nat) (r : Nat) :
    placed marking rows (done ++ [r]) = place marking rows (placed marking rows done) r := by
  rw [placed, List.foldl_append]
  rfl

/-- The base of a row, once it is placed. -/
theorem base_place {done : List Nat} {r : Nat} (hr : r < rows.size)
    (hsize : (placed marking rows done).2.size = rows.size) :
    (placed marking rows (done ++ [r])).2.getD r 0 =
      ((placed marking rows done).1.addRow marking r (rows.getD r [])).2 := by
  rw [placed_concat]
  simp [place, Array.getD_eq_getD_getElem?, hsize, hr]

/-- Induction on the rows that are placed, the last one first. -/
theorem tidy_placed (hsorted : ∀ row ∈ rows, SortedByKey row) {done : List Nat}
    (hnodup : done.Nodup) (hlt : ∀ r ∈ done, r < rows.size) :
    Tidy marking rows (placed marking rows done).1 ((placed marking rows done).2.getD · 0)
      done.reverse := by
  -- the last row is laid over what the rows before it have left
  induction done using List.reverseRecOn with
  | nil => exact .start marking rows _
  | append_singleton done r ih =>
    obtain ⟨hnodup', -, hdisjoint⟩ := List.nodup_append.mp hnodup
    have hlt' : ∀ s ∈ done, s < rows.size := fun s hs => hlt s (List.mem_append_left _ hs)
    have hr : r < rows.size := hlt r (List.mem_append_right _ (List.mem_singleton_self r))
    obtain ⟨hsize, hlaid⟩ := placed_spec marking hsorted hnodup' hlt'
    have hkeep : ∀ s ∈ done.reverse, (placed marking rows (done ++ [r])).2.getD s 0 =
        (placed marking rows done).2.getD s 0 := by
      intro s hs
      have hne : s ≠ r := hdisjoint s (List.mem_reverse.mp hs) r (List.mem_singleton_self r)
      rw [placed, List.foldl_append]
      exact base_foldl_place _ (by simpa using hne)
    have hplaces := places_addRow marking r (placed marking rows done).1 (rows.getD r [])
    rw [List.reverse_concat]
    refine ((ih hnodup' hlt').congr hkeep).place (hlaid.congr hkeep) hr (.getD hsorted r) ?_
    rw [base_place hr hsize, placed_concat]
    exact hplaces

/-! ## The table

  The statements about packing in terms of rows and bases, for all rows together. -/

/-- The rows lie in the table so that each can be read, and no more than they need is used. -/
structure IsPacked (marking : Marking) (rows : Array SparseRow) (t : SparseTable) : Prop where
  /-- every row has a base -/
  size_base : t.base.size = rows.size
  /-- every slot has a mark and a value -/
  size_check : t.check.size = t.values.size
  /-- reading never fails, and finds the entries of the row and no others -/
  read : ∀ r < rows.size, ∀ c : Nat, ∃ found, t.read r c (marking.mark r c) = .ok found ∧
    ∀ v, found = some v ↔ (c, v) ∈ rows.getD r []
  /-- every entry stands behind its row's base, with its mark -/
  used : ∀ r < rows.size, ∀ e ∈ rows.getD r [], 0 ≤ t.base.getD r 0 + e.1 ∧
    t.check[(t.base.getD r 0 + e.1).toNat]? = some (marking.mark r e.1) ∧
    t.values[(t.base.getD r 0 + e.1).toNat]? = some e.2
  /-- a slot where no entry stands has the mark and the value of unused ones -/
  unused : ∀ i < t.check.size,
    (∀ r < rows.size, ∀ e ∈ rows.getD r [], (i : Int) ≠ t.base.getD r 0 + e.1) →
      t.check[i]? = some freeMark ∧ t.values[i]? = some 0
  /-- base 0 is that of the rows without entries -/
  base_eq_zero : ∀ r < rows.size, t.base.getD r 0 = 0 ↔ rows.getD r [] = []
  /-- where bases tell rows apart, equal rows and no others share one -/
  base_eq : marking = .byColumn → ∀ r < rows.size, ∀ s < rows.size,
    t.base.getD r 0 = t.base.getD s 0 ↔ rows.getD r [] = rows.getD s []
  /-- the length of the table is bounded, so with few enough rows and columns all slots have numbers
      of 32 bits -/
  size_le : ∀ width, (∀ row ∈ rows, ∀ e ∈ row, e.1 < width) →
    t.check.size ≤ rows.size * (rows.size + width)

theorem getD_eq_iff {α : Type} {xs : Array α} {i : Nat} (hi : i < xs.size) {d v : α} :
    xs.getD i d = v ↔ xs[i]? = some v := by
  rw [Array.getD_eq_getD_getElem?, Array.getElem?_eq_getElem hi]
  exact (Option.some_inj (a := xs[i])).symm

/-- Slots past the end are free. -/
theorem lt_size_of_markAt_ne_free {p : Packing} {i : Nat} (h : p.markAt i ≠ freeMark) :
    i < p.check.size := by
  by_contra hge
  refine h ?_
  rw [markAt, Array.getD_eq_getD_getElem?, Array.getElem?_eq_none (Nat.le_of_not_lt hge)]
  rfl

/-- When all rows are placed, the table is packed. -/
theorem isPacked_of_tidy {p : Packing} {bases : Array Int} {done : List Nat}
    (hsorted : ∀ row ∈ rows, SortedByKey row) (hsize : bases.size = rows.size)
    (hdone : done.Perm (List.range rows.size)) (hlaid : Laid marking rows p (bases.getD · 0) done)
    (htidy : Tidy marking rows p (bases.getD · 0) done) :
    IsPacked marking rows ⟨p.values, p.check, bases⟩ where
  size_base := hsize
  size_check := hlaid.size_eq.symm
  read r hr c := by
    have hmem : r ∈ done := hdone.mem_iff.mpr (List.mem_range.mpr hr)
    have hrow := SortedByKey.getD hsorted r
    have hbase : bases[r]? = some (bases.getD r 0) := by
      rw [Array.getD_eq_getD_getElem?, Array.getElem?_eq_getElem (by rw [hsize]; exact hr)]
      rfl
    exact ⟨_, hlaid.read hmem hrow rfl rfl hbase c, fun v => hrow.lookup_eq_some_iff⟩
  used r hr e he := by
    obtain ⟨hle, hmark, hvalue⟩ := hlaid.written r (hdone.mem_iff.mpr (List.mem_range.mpr hr)) e he
    have hlt := lt_size_of_markAt_ne_free (hmark ▸ marking.mark_ne_free r e.1)
    rw [markAt, getD_eq_iff hlt] at hmark
    rw [valueAt, getD_eq_iff (hlaid.size_eq ▸ hlt)] at hvalue
    exact ⟨hle, hmark, hvalue⟩
  unused i hi hnone := by
    -- a mark that is not free is that of some entry
    have hfree : p.markAt i = freeMark := by
      by_contra hused
      obtain ⟨r, hr, e, he, heq, -⟩ := hlaid.origin i hused
      exact hnone r (List.mem_range.mp (hdone.mem_iff.mp hr)) e he heq
    have hvalue := htidy.blank i hfree
    rw [markAt, getD_eq_iff hi] at hfree
    rw [valueAt, getD_eq_iff (hlaid.size_eq ▸ hi)] at hvalue
    exact ⟨hfree, hvalue⟩
  base_eq_zero r hr := hlaid.zero_iff r (hdone.mem_iff.mpr (List.mem_range.mpr hr))
  base_eq hm r hr s hs := by
    have hr := hdone.mem_iff.mpr (List.mem_range.mpr hr)
    have hs := hdone.mem_iff.mpr (List.mem_range.mpr hs)
    refine ⟨hlaid.row_eq hm r hr s hs, fun heq => ?_⟩
    -- equal rows with entries find the base under which the row was first laid
    by_cases hempty : rows.getD r [] = []
    · exact ((hlaid.zero_iff r hr).mpr hempty).trans
        ((hlaid.zero_iff s hs).mpr (heq.symm.trans hempty)).symm
    · have hfound := htidy.shares hm r hr hempty
      rw [heq, htidy.shares hm s hs (heq ▸ hempty)] at hfound
      exact (Option.some.inj hfound).symm
  size_le width hwidth := by
    have hle := htidy.size_le width hwidth
    rwa [hdone.length_eq, List.length_range] at hle

/-- Each row is placed once. -/
theorem placingOrder_spec (rows : Array SparseRow) :
    (placingOrder rows).Perm (List.range rows.size) ∧ (placingOrder rows).Nodup ∧
      ∀ r ∈ placingOrder rows, r < rows.size := by
  have hperm : (placingOrder rows).Perm (List.range rows.size) := List.mergeSort_perm _ _
  exact ⟨hperm, hperm.nodup_iff.mpr List.nodup_range,
    fun r hr => List.mem_range.mp (hperm.mem_iff.mp hr)⟩

/-- In the table that packing ends in, all rows lie as they should. -/
theorem isPacked_pack (marking : Marking) (hsorted : ∀ row ∈ rows, SortedByKey row) :
    IsPacked marking rows (pack marking rows).table := by
  obtain ⟨hperm, hnodup, hlt⟩ := placingOrder_spec rows
  obtain ⟨hsize, hlaid⟩ := placed_spec marking hsorted hnodup hlt
  exact isPacked_of_tidy hsorted hsize ((List.reverse_perm _).trans hperm) hlaid
    (tidy_placed hsorted hnodup hlt)

theorem slotLimit_eq : slotLimit = 2 ^ 31 := by
  norm_num [slotLimit]

/-- Rows are narrow if the first fit of each of their entries has a number. -/
theorem isNarrow_iff : (pack marking rows).isNarrow = true ↔
    ∀ r < rows.size, ∀ e ∈ rows.getD r [],
      (pack marking rows).table.base.getD r 0 + e.1 < 2 ^ 31 := by
  rw [isNarrow, Array.all_eq_true', slotLimit_eq]
  simp only [List.all_eq_true, decide_eq_true_eq]
  have hget : ∀ row r, rows[r]? = some row ↔ r < rows.size ∧ rows.getD r [] = row := by
    intro row r
    rw [Array.getD_eq_getD_getElem?, Array.getElem?_eq_some_iff]
    constructor
    · rintro ⟨hr, rfl⟩
      exact ⟨hr, by rw [Array.getElem?_eq_getElem hr]; rfl⟩
    · rintro ⟨hr, hrow⟩
      rw [Array.getElem?_eq_getElem hr] at hrow
      exact ⟨hr, hrow⟩
  constructor
  · intro h r hr e he
    exact h (_, r) (Array.mk_mem_zipIdx_iff_getElem?.mpr ((hget _ r).mpr ⟨hr, rfl⟩)) e he
  · rintro h ⟨row, r⟩ hrow e he
    obtain ⟨hr, rfl⟩ := (hget row r).mp (Array.mk_mem_zipIdx_iff_getElem?.mp hrow)
    exact h r hr e he

/-- What is packed is the first fit, and rows are packed if all its slots have numbers. -/
theorem pack?_eq_some_iff {packed : PackedRows} :
    pack? marking rows = some packed ↔ packed = pack marking rows ∧
      ∀ r < rows.size, ∀ e ∈ rows.getD r [], packed.table.base.getD r 0 + e.1 < 2 ^ 31 := by
  simp only [pack?, Option.ite_none_right_eq_some, Option.some.injEq]
  constructor
  · rintro ⟨hnarrow, rfl⟩
    exact ⟨rfl, isNarrow_iff.mp hnarrow⟩
  · rintro ⟨rfl, hnarrow⟩
    exact ⟨isNarrow_iff.mpr hnarrow, rfl⟩

/-- With few enough rows and columns, all slots have numbers. -/
theorem isNarrow_pack (hsorted : ∀ row ∈ rows, SortedByKey row) {width : Nat}
    (hwidth : ∀ row ∈ rows, ∀ e ∈ row, e.1 < width)
    (hsmall : rows.size * (rows.size + width) ≤ 2 ^ 31) : (pack marking rows).isNarrow = true := by
  have hpacked := isPacked_pack marking hsorted
  have hsize := hpacked.size_le width hwidth
  refine isNarrow_iff.mpr fun r hr e he => ?_
  obtain ⟨hpos, hcheck, -⟩ := hpacked.used r hr e he
  have hlt := (Array.getElem?_eq_some_iff.mp hcheck).1
  omega

/-- A row with the columns 0 and `2 ^ 31 - 1` is too wide: its base is not 0, so its last slot has
    no number. -/
theorem pack?_wide (marking : Marking) (v w : Int) :
    pack? marking #[[(0, v), (2 ^ 31 - 1, w)]] = none := by
  have hsorted : ∀ row ∈ (#[[(0, v), (2 ^ 31 - 1, w)]] : Array SparseRow), SortedByKey row := by
    unfold SortedByKey
    simp
  have hpacked := isPacked_pack marking hsorted
  refine Option.eq_none_iff_forall_ne_some.mpr fun packed h => ?_
  obtain ⟨rfl, hnarrow⟩ := pack?_eq_some_iff.mp h
  generalize (pack marking #[[(0, v), (2 ^ 31 - 1, w)]]).table = t at hpacked hnarrow
  have hnonneg : 0 ≤ t.base.getD 0 0 + ((0 : Nat) : Int) :=
    (hpacked.used 0 Nat.one_pos (0, v) (by simp)).1
  have hne : t.base.getD 0 0 ≠ 0 := fun hzero =>
    absurd ((hpacked.base_eq_zero 0 Nat.one_pos).mp hzero) (by simp)
  have hlt : t.base.getD 0 0 + ((2 ^ 31 - 1 : Nat) : Int) < 2 ^ 31 :=
    hnarrow 0 Nat.one_pos (2 ^ 31 - 1, w) (by simp)
  omega

end PackedRows

end Lalr
