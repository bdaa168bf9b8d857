/-
  Lists of entries with increasing keys.

  The rows of the automaton and of the tables are such lists.  A look-up in one finds the only entry
  with the key (`SortedByKey.lookup_eq_some_iff`), so it does not matter whether entries are
  selected before or after (`SortedByKey.lookup_filter`).
-/
import Mathlib

namespace Lalr

/-- The keys increase. -/
def SortedByKey {α : Type} (l : List (Nat × α)) : Prop :=
  l.Pairwise (·.1 < ·.1)

variable {α β : Type} {l : List (Nat × α)} {k : Nat}

namespace SortedByKey

/-- Looking up a key finds its entry: no other entry has the key. -/
theorem lookup_eq_some_iff (h : SortedByKey l) {v : α} : l.lookup k = some v ↔ (k, v) ∈ l := by
  induction l with
  | nil => simp
  | cons e l ih =>
    obtain ⟨hlt, hl⟩ := List.pairwise_cons.mp h
    rw [List.lookup_cons, List.mem_cons]
    -- behind an entry with the key, all keys are greater
    cases hk : k == e.1 with
    | true =>
      have hk : k = e.1 := by simpa using hk
      subst hk
      constructor
      · intro hv
        injection hv with hv
        exact Or.inl (hv ▸ rfl)
      · rintro (he | he)
        · rw [← he]
        · exact absurd (hlt _ he) (Nat.lt_irrefl _)
    | false =>
      have hk : k ≠ e.1 := by simpa using hk
      rw [show ((k, v) = e ∨ (k, v) ∈ l) ↔ (k, v) ∈ l from
        ⟨fun ho => ho.resolve_left fun he => hk (he ▸ rfl), Or.inr⟩]
      exact ih hl

/-- No key is less than the first one. -/
theorem head_le {e : Nat × α} (h : SortedByKey (e :: l)) : ∀ d ∈ e :: l, e.1 ≤ d.1 := by
  intro d hd
  rcases List.mem_cons.mp hd with rfl | hd
  · exact Nat.le_refl _
  · exact Nat.le_of_lt ((List.pairwise_cons.mp h).1 d hd)

/-- Where all rows have increasing keys, so has what is read for any number. -/
theorem getD {rows : Array (List (Nat × α))} (h : ∀ row ∈ rows, SortedByKey row) (r : Nat) :
    SortedByKey (rows.getD r []) := by
  rw [Array.getD_eq_getD_getElem?]
  cases hrow : rows[r]? with
  | none => exact List.Pairwise.nil
  | some row => exact h row (Array.mem_of_getElem? hrow)

/-- Entries may be left out. -/
theorem filter (h : SortedByKey l) (p : Nat × α → Bool) : SortedByKey (l.filter p) :=
  List.Pairwise.filter p h

/-- Values may be changed. -/
theorem map (h : SortedByKey l) (f : α → β) : SortedByKey (l.map fun e => (e.1, f e.2)) :=
  List.pairwise_map.mpr h

/-- An entry that is left out is no longer found, and no other takes its place. -/
theorem lookup_filter (h : SortedByKey l) (p : α → Bool) :
    (l.filter fun e => p e.2).lookup k = (l.lookup k).filter p := by
  ext v
  rw [Option.filter_eq_some_iff, (h.filter _).lookup_eq_some_iff, h.lookup_eq_some_iff,
    List.mem_filter]

end SortedByKey

/-- A changed value is found under the key of the old one. -/
theorem lookup_map_snd (l : List (Nat × α)) (f : α → β) (k : Nat) :
    (l.map fun e => (e.1, f e.2)).lookup k = (l.lookup k).map f := by
  induction l with
  | nil => rfl
  | cons e l ih =>
    rw [List.map_cons, List.lookup_cons, List.lookup_cons, ih]
    split <;> rfl

/-- A key that no entry has is not found. -/
theorem lookup_eq_none_of_forall (h : ∀ e ∈ l, e.1 ≠ k) : l.lookup k = none := by
  rw [List.lookup_eq_none_iff]
  intro e he
  exact bne_iff_ne.mpr (h e he).symm

/-! ## Entries by place

  A list gives rise to such entries, keyed by the places of its members. -/

/-- The values that `f` finds in a list, keyed by their places. -/
def entriesOf (f : α → Option β) (xs : List α) : List (Nat × β) :=
  xs.zipIdx.filterMap fun e => (f e.1).map (e.2, ·)

/-- The entries are the places that have a value. -/
theorem mem_entriesOf {f : α → Option β} {xs : List α} {i : Nat} {v : β} :
    (i, v) ∈ entriesOf f xs ↔ xs[i]?.bind f = some v := by
  rw [entriesOf, List.mem_filterMap]
  constructor
  · rintro ⟨⟨x, j⟩, hmem, hv⟩
    obtain ⟨w, hw, heq⟩ := Option.map_eq_some_iff.mp hv
    injection heq with hj hw'
    subst hj hw'
    rw [List.mk_mem_zipIdx_iff_getElem?.mp hmem]
    exact hw
  · intro h
    obtain ⟨x, hx, hv⟩ := Option.bind_eq_some_iff.mp h
    exact ⟨(x, i), List.mk_mem_zipIdx_iff_getElem?.mpr hx, by rw [hv]; rfl⟩

/-- The entries are listed by place. -/
theorem sortedByKey_entriesOf (f : α → Option β) (xs : List α) : SortedByKey (entriesOf f xs) := by
  have hplaces : (xs.zipIdx).Pairwise (·.2 < ·.2) := by
    have h : (xs.zipIdx.map Prod.snd).Pairwise (· < ·) := by
      rw [List.zipIdx_map_snd]
      exact List.pairwise_lt_range'
    exact List.pairwise_map.mp h
  refine List.pairwise_filterMap.mpr (hplaces.imp fun {e e'} hlt b hb b' hb' => ?_)
  obtain ⟨v, -, rfl⟩ := Option.map_eq_some_iff.mp hb
  obtain ⟨v', -, rfl⟩ := Option.map_eq_some_iff.mp hb'
  exact hlt

/-- Looking up a place gives its value. -/
theorem lookup_entriesOf (f : α → Option β) (xs : List α) (i : Nat) :
    (entriesOf f xs).lookup i = xs[i]?.bind f := by
  ext v
  rw [(sortedByKey_entriesOf f xs).lookup_eq_some_iff, mem_entriesOf]

end Lalr
