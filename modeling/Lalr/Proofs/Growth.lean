/-
  Tables of symbol sets that only grow.

  Every fixed point of the construction has one shape: a pass adds members to a finite table of
  sets and says whether it added any.  What is needed of that is proved here once:

    1. the report of `insert`, `union`, `insertAt` and `absorbAt` is exact: it is `true` if and only
       if a member is new (`insert_grew`, `union_grew`);
    2. a report of `true` raises the number of members, which is bounded (`tally_lt`, `tally_le`);
    3. so the passes of `untilStable` come to an end (`untilStable_stabilizes`), with one that
       reports no change (`Stabilizes.exists_last`).
-/
import Mathlib
import Lalr.SymbolSet

namespace Lalr

/-! ## Arrays read with a fallback -/

theorem getD_setIfInBounds {α : Type} (xs : Array α) (i : Nat) (v : α) (j : Nat) (d : α) :
    (xs.setIfInBounds i v).getD j d = if i = j ∧ i < xs.size then v else xs.getD j d := by
  rw [Array.getD_eq_getD_getElem?, Array.getD_eq_getD_getElem?, Array.getElem?_setIfInBounds]
  by_cases h : i = j
  · subst h
    by_cases hi : i < xs.size
    · simp [hi]
    · simp [hi]
  · simp [h]

/-- Setting a mark. -/
theorem getD_setIfInBounds_true {marks : Array Bool} {i : Nat} (hi : i < marks.size) (j : Nat) :
    (marks.setIfInBounds i true).getD j false = true ↔ j = i ∨ marks.getD j false = true := by
  rw [getD_setIfInBounds]
  by_cases hj : i = j
  · simp [hj, hj ▸ hi]
  · simp [hj, Ne.symm hj]

/-- Of the entries written into an array one after the other, one for the place is read there, or
    there is none. -/
theorem getD_foldl_setIfInBounds {α β : Type} (key : β → Nat) (value : β → α) (es : List β)
    (xs : Array α) (k : Nat) (d : α) :
    (∃ e ∈ es, key e = k ∧
        (es.foldl (fun xs e => xs.setIfInBounds (key e) (value e)) xs).getD k d = value e) ∨
      ((es.foldl (fun xs e => xs.setIfInBounds (key e) (value e)) xs).getD k d = xs.getD k d ∧
        (k < xs.size → ∀ e ∈ es, key e ≠ k)) := by
  induction es generalizing xs with
  | nil => exact Or.inr ⟨rfl, fun _ e he => absurd he List.not_mem_nil⟩
  | cons e es ih =>
    rw [List.foldl_cons]
    -- the last writer is behind `e`, or it is `e`, or there is none
    rcases ih (xs.setIfInBounds (key e) (value e)) with ⟨e', he', hkey, hvalue⟩ | ⟨hsame, hnone⟩
    · exact Or.inl ⟨e', List.mem_cons_of_mem _ he', hkey, hvalue⟩
    · rw [getD_setIfInBounds] at hsame
      rw [Array.size_setIfInBounds] at hnone
      split at hsame
      · rename_i hhere
        exact Or.inl ⟨e, List.mem_cons_self, hhere.1, hsame⟩
      · rename_i hother
        refine Or.inr ⟨hsame, fun hlt e' he' => ?_⟩
        rcases List.mem_cons.mp he' with rfl | he'
        · intro hkey
          exact hother ⟨hkey, hkey ▸ hlt⟩
        · exact hnone hlt e' he'

/-- However much is written, nothing is added at the end. -/
theorem size_foldl_setIfInBounds {α β : Type} (key : β → Nat) (value : β → α) (es : List β)
    (xs : Array α) :
    (es.foldl (fun xs e => xs.setIfInBounds (key e) (value e)) xs).size = xs.size := by
  induction es generalizing xs with
  | nil => rfl
  | cons e es ih => rw [List.foldl_cons, ih, Array.size_setIfInBounds]

theorem getD_modify {α : Type} (xs : Array α) (i : Nat) (f : α → α) (j : Nat) (d : α) :
    (xs.modify i f).getD j d = if i = j ∧ i < xs.size then f (xs.getD j d) else xs.getD j d := by
  rw [Array.getD_eq_getD_getElem?, Array.getD_eq_getD_getElem?, Array.getElem?_modify]
  by_cases h : i = j
  · subst h
    by_cases hi : i < xs.size
    · simp [hi]
    · simp [hi]
  · simp [h]

theorem getD_push {α : Type} (xs : Array α) (v : α) (j : Nat) (d : α) :
    (xs.push v).getD j d = if j = xs.size then v else xs.getD j d := by
  rw [Array.getD_eq_getD_getElem?, Array.getD_eq_getD_getElem?, Array.getElem?_push]
  split <;> rfl

theorem getD_of_size_le {α : Type} {xs : Array α} {i : Nat} (d : α) (h : xs.size ≤ i) :
    xs.getD i d = d := by
  rw [Array.getD_eq_getD_getElem?, Array.getElem?_eq_none h]
  rfl

/-- Arrays with the same entries are the same. -/
theorem ext_getD {α : Type} {xs ys : Array α} (d : α) (hsize : xs.size = ys.size)
    (h : ∀ i, xs.getD i d = ys.getD i d) : xs = ys := by
  refine Array.ext hsize fun i hi hi' => ?_
  have hget := h i
  rw [Array.getD_eq_getD_getElem?, Array.getD_eq_getD_getElem?, Array.getElem?_eq_getElem hi,
    Array.getElem?_eq_getElem hi'] at hget
  exact hget

theorem getD_replicate {α : Type} (n i : Nat) (v : α) : (Array.replicate n v).getD i v = v := by
  rw [Array.getD_eq_getD_getElem?, Array.getElem?_replicate]
  split <;> rfl

/-! ## Exact reports

  A report is exact if it says `true` just where something is new.  That is more than is needed
  to stop, but what a pass without a report has found rests on it. -/

namespace SymbolSet

/-- Inserting reports growth exactly when the number is new. -/
theorem insert_grew {s : SymbolSet} {t : Nat} : (s.insert t).2 = true ↔ t ∉ s := by
  rw [mem_iff_testBit]
  simp [insert]

/-- A union reports growth exactly when it brings a new member. -/
theorem union_grew {s u : SymbolSet} : (s.union u).2 = true ↔ ∃ t, t ∈ u ∧ t ∉ s := by
  have hne : (s.union u).2 = true ↔ (s.union u).1 ≠ s := by
    cases s
    simp [union, mk.injEq]
  rw [hne]
  constructor
  · intro h
    by_contra hall
    refine h (SymbolSet.ext fun t => ?_)
    rw [mem_union]
    constructor
    · rintro (ht | ht)
      · exact ht
      · by_contra hs
        exact hall ⟨t, ht, hs⟩
    · exact Or.inl
  · rintro ⟨t, hu, hs⟩ heq
    exact hs (heq ▸ mem_union.mpr (Or.inr hu))

/-- If a union reports nothing new, there was nothing new. -/
theorem union_stayed {s u : SymbolSet} (h : (s.union u).2 = false) : ∀ t ∈ u, t ∈ s := by
  intro t ht
  by_contra hs
  have hgrew := union_grew.mpr ⟨t, ht, hs⟩
  rw [h] at hgrew
  exact absurd hgrew (by decide)

/-- A union that reports no growth is the set itself. -/
theorem union_eq_of_stayed {s u : SymbolSet} (h : (s.union u).2 = false) : (s.union u).1 = s := by
  refine SymbolSet.ext fun t => ?_
  rw [mem_union]
  exact ⟨fun ht => ht.elim id (union_stayed h t), Or.inl⟩

/-- An insertion that reports nothing new changes nothing. -/
theorem insert_eq_of_stayed {s : SymbolSet} {t : Nat} (h : (s.insert t).2 = false) :
    t ∈ s ∧ (s.insert t).1 = s := by
  have ht : t ∈ s := by
    by_contra hs
    rw [insert_grew.mpr hs] at h
    exact absurd h (by decide)
  refine ⟨ht, SymbolSet.ext fun u => ?_⟩
  rw [mem_insert]
  exact ⟨fun hu => hu.elim id (fun he => he ▸ ht), Or.inl⟩

/-! ## Sets inside a table

  The same for a table of sets, of which one is changed.  Absorbing a set into itself changes
  nothing. -/

/-- Does the set at place `i` of a table have the member `t`? -/
def InTable (sets : Array SymbolSet) (i t : Nat) : Prop :=
  t ∈ sets.getD i ∅

/-- Inserting adds one member to one set. -/
theorem inTable_insertAt {sets : Array SymbolSet} {i t j u : Nat} (hi : i < sets.size) :
    InTable (insertAt sets i t).1 j u ↔ InTable sets j u ∨ (j = i ∧ u = t) := by
  unfold InTable insertAt
  rw [getD_setIfInBounds]
  by_cases h : i = j
  · subst h
    rw [if_pos ⟨rfl, hi⟩, mem_insert]
    simp
  · rw [if_neg (fun hc => h hc.1)]
    exact ⟨Or.inl, fun hu => hu.elim id (fun he => absurd he.1.symm h)⟩

/-- Absorbing adds the members of one set to another. -/
theorem inTable_absorbAt {sets : Array SymbolSet} {dst src j u : Nat} (hd : dst < sets.size) :
    InTable (absorbAt sets dst src).1 j u ↔ InTable sets j u ∨ (j = dst ∧ InTable sets src u) := by
  unfold InTable absorbAt
  rw [getD_setIfInBounds]
  by_cases h : dst = j
  · subst h
    rw [if_pos ⟨rfl, hd⟩, mem_union]
    simp
  · rw [if_neg (fun hc => h hc.1)]
    exact ⟨Or.inl, fun hu => hu.elim id (fun he => absurd he.1.symm h)⟩

/-- Inserting reports growth exactly when the table has a new member. -/
theorem insertAt_grew {sets : Array SymbolSet} {i t : Nat} (hi : i < sets.size) :
    (insertAt sets i t).2 = true ↔
      ∃ j u, InTable (insertAt sets i t).1 j u ∧ ¬ InTable sets j u := by
  have hreport : (insertAt sets i t).2 = true ↔ ¬ InTable sets i t := insert_grew
  rw [hreport]
  constructor
  · intro hnew
    exact ⟨i, t, (inTable_insertAt hi).mpr (Or.inr ⟨rfl, rfl⟩), hnew⟩
  · rintro ⟨j, u, hin, hnew⟩
    rcases (inTable_insertAt hi).mp hin with hold | ⟨rfl, rfl⟩
    · exact absurd hold hnew
    · exact hnew

/-- So does one set flowing into another. -/
theorem absorbAt_grew {sets : Array SymbolSet} {dst src : Nat} (hdst : dst < sets.size) :
    (absorbAt sets dst src).2 = true ↔
      ∃ j u, InTable (absorbAt sets dst src).1 j u ∧ ¬ InTable sets j u := by
  have hreport : (absorbAt sets dst src).2 = true ↔
      ∃ u, InTable sets src u ∧ ¬ InTable sets dst u :=
    union_grew
  rw [hreport]
  constructor
  · rintro ⟨u, hsrc, hnew⟩
    exact ⟨dst, u, (inTable_absorbAt hdst).mpr (Or.inr ⟨rfl, hsrc⟩), hnew⟩
  · rintro ⟨j, u, hin, hnew⟩
    rcases (inTable_absorbAt hdst).mp hin with hold | ⟨rfl, hsrc⟩
    · exact absurd hold hnew
    · exact ⟨u, hsrc, hnew⟩

@[simp] theorem size_insertAt (sets : Array SymbolSet) (i t : Nat) :
    (insertAt sets i t).1.size = sets.size := by
  simp [insertAt]

@[simp] theorem size_absorbAt (sets : Array SymbolSet) (dst src : Nat) :
    (absorbAt sets dst src).1.size = sets.size := by
  simp [absorbAt]

/-- Writing what stands there changes nothing. -/
theorem setIfInBounds_getD {α : Type} (xs : Array α) (i : Nat) (d : α) :
    xs.setIfInBounds i (xs.getD i d) = xs := by
  apply Array.ext_getElem?
  intro j
  rw [Array.getElem?_setIfInBounds, Array.getD_eq_getD_getElem?]
  by_cases h : i = j
  · subst h
    by_cases hi : i < xs.size
    · simp [hi]
    · simp [hi]
  · simp [h]

/-- If nothing is reported new, the table stays as it is, and had everything. -/
theorem absorbAt_eq_of_stayed {sets : Array SymbolSet} {dst src : Nat}
    (h : (absorbAt sets dst src).2 = false) :
    (absorbAt sets dst src).1 = sets ∧ ∀ t, InTable sets src t → InTable sets dst t := by
  refine ⟨?_, union_stayed h⟩
  show sets.setIfInBounds dst ((sets.getD dst ∅).union (sets.getD src ∅)).1 = sets
  rw [union_eq_of_stayed h, setIfInBounds_getD]

/-- The same for a single member. -/
theorem insertAt_eq_of_stayed {sets : Array SymbolSet} {i t : Nat}
    (h : (insertAt sets i t).2 = false) :
    (insertAt sets i t).1 = sets ∧ InTable sets i t := by
  obtain ⟨ht, heq⟩ := insert_eq_of_stayed h
  refine ⟨?_, ht⟩
  show sets.setIfInBounds i ((sets.getD i ∅).insert t).1 = sets
  rw [heq, setIfInBounds_getD]

/-! ## Counting members

  The members of a table are counted below a number, so that the count is bounded by the size of
  the table, whatever else its sets may have. -/

/-- How many numbers below `n` belong to the set. -/
def countBelow (n : Nat) (s : SymbolSet) : Nat :=
  ((Finset.range n).filter (· ∈ s)).card

/-- There are no more members than numbers. -/
theorem countBelow_le (n : Nat) (s : SymbolSet) : countBelow n s ≤ n := by
  have h := Finset.card_filter_le (Finset.range n) (· ∈ s)
  rwa [Finset.card_range] at h

/-- A set with all members of another counts at least as many. -/
theorem countBelow_mono {n : Nat} {s u : SymbolSet} (h : ∀ t ∈ s, t ∈ u) :
    countBelow n s ≤ countBelow n u :=
  Finset.card_le_card (Finset.monotone_filter_right _ fun a _ => h a)

/-- A set with one member more counts more. -/
theorem countBelow_lt {n t : Nat} {s u : SymbolSet} (h : ∀ t ∈ s, t ∈ u) (hn : t < n)
    (hu : t ∈ u) (hs : t ∉ s) : countBelow n s < countBelow n u := by
  refine Finset.card_lt_card ⟨Finset.monotone_filter_right _ fun a _ => h a, fun hsub => hs ?_⟩
  exact (Finset.mem_filter.mp (hsub (Finset.mem_filter.mpr ⟨Finset.mem_range.mpr hn, hu⟩))).2

/-- How many members below `n` the first `k` sets of a table have together. -/
def tally (n k : Nat) (sets : Array SymbolSet) : Nat :=
  ∑ i ∈ Finset.range k, countBelow n (sets.getD i ∅)

/-- The members of a table are bounded by its size. -/
theorem tally_le (n k : Nat) (sets : Array SymbolSet) : tally n k sets ≤ k * n := by
  have h := Finset.sum_le_card_nsmul (Finset.range k) (fun i => countBelow n (sets.getD i ∅)) n
    (fun i _ => countBelow_le n _)
  rwa [Finset.card_range, smul_eq_mul] at h

/-- A table that grew has more members. -/
theorem tally_lt {n k i t : Nat} {sets sets' : Array SymbolSet}
    (h : ∀ i t, InTable sets i t → InTable sets' i t) (hi : i < k) (ht : t < n)
    (hnew : InTable sets' i t) (hold : ¬ InTable sets i t) : tally n k sets < tally n k sets' :=
  Finset.sum_lt_sum (fun j _ => countBelow_mono (h j))
    ⟨i, Finset.mem_range.mpr hi, countBelow_lt (h i) ht hnew hold⟩

end SymbolSet

/-! ## Passes until nothing changes

  `untilStable` takes a limit.  `Stabilizes` is the same without one, and a measure that rises
  with every report tells that the limit is not reached. -/

/-- Passes are made until one reports no change, however many that takes. -/
inductive Stabilizes {σ : Type} (pass : σ → σ × Bool) : σ → σ → Prop
  | last {s : σ} (h : (pass s).2 = false) : Stabilizes pass s (pass s).1
  | again {s r : σ} (h : (pass s).2 = true) (rest : Stabilizes pass (pass s).1 r) :
      Stabilizes pass s r

/-- The passes end in one result. -/
theorem Stabilizes.unique {σ : Type} {pass : σ → σ × Bool} {s r r' : σ} (h : Stabilizes pass s r)
    (h' : Stabilizes pass s r') : r = r' := by
  induction h with
  | last hlast =>
    cases h' with
    | last => rfl
    | again hagain => exact absurd (hlast.symm.trans hagain) (by decide)
  | again hagain _ ih =>
    cases h' with
    | last hlast => exact absurd (hlast.symm.trans hagain) (by decide)
    | again _ rest => exact ih rest

/-- The result is what a pass makes of a value on which it reports no change. -/
theorem Stabilizes.exists_last {σ : Type} {pass : σ → σ × Bool} {Inv : σ → Prop}
    (keep : ∀ s, Inv s → Inv (pass s).1) {s r : σ} (h : Stabilizes pass s r) (hs : Inv s) :
    ∃ last, Inv last ∧ (pass last).2 = false ∧ r = (pass last).1 := by
  induction h with
  | last h => exact ⟨_, hs, h, rfl⟩
  | again _ _ ih => exact ih (keep _ hs)

section

variable {σ : Type} (pass : σ → σ × Bool) (Inv : σ → Prop) (μ : σ → Nat) (bound : Nat)
  (keep : ∀ s, Inv s → Inv (pass s).1) (grow : ∀ s, Inv s → (pass s).2 = true → μ s < μ (pass s).1)
  (le : ∀ s, Inv s → μ s ≤ bound)
include keep grow le

/-- If a report of change raises a bounded measure, the passes come to an end, and the limit is not
    reached. -/
theorem untilStable_stabilizes (limit : Nat) (s : σ) (h : Inv s) (hl : bound < limit + μ s) :
    Stabilizes pass s (untilStable pass limit s) := by
  -- the limit goes down by one where the measure goes up by one at least
  induction limit generalizing s with
  | zero =>
    have := le s h
    omega
  | succ limit ih =>
    have hnext := keep s h
    have hgrow := grow s h
    have hrest := ih (pass s).1 hnext
    rw [untilStable]
    split
    · rename_i next heq
      rw [heq] at hgrow hrest
      have hlt : μ s < μ next := hgrow rfl
      refine .again (by rw [heq]) ?_
      rw [heq]
      exact hrest (by show bound < limit + μ next; omega)
    · rename_i next heq
      have hlast : Stabilizes pass s (pass s).1 := .last (by rw [heq])
      rwa [heq] at hlast

end

/-- The same if it is known how far the passes have come: `Inv k` holds after `k` of them, and after
    `bound` of them a pass reports no change. -/
theorem untilStable_stabilizes_of_steps {σ : Type} (pass : σ → σ × Bool) (Inv : Nat → σ → Prop)
    (bound : Nat) (keep : ∀ k s, Inv k s → Inv (k + 1) (pass s).1)
    (stop : ∀ s, Inv bound s → (pass s).2 = false) (limit k : Nat) (s : σ) (h : Inv k s)
    (hk : k ≤ bound) (hl : bound < limit + k) : Stabilizes pass s (untilStable pass limit s) := by
  induction limit generalizing k s with
  | zero => omega
  | succ limit ih =>
    have hrest := ih (k + 1) (pass s).1 (keep k s h)
    rw [untilStable]
    split
    · rename_i next heq
      have hagain : (pass s).2 = true := by rw [heq]
      -- a pass that reports a change is not past the bound
      have hlt : k < bound := by
        refine Nat.lt_of_le_of_ne hk fun heq => ?_
        subst heq
        exact absurd (hagain.symm.trans (stop s h)) (by decide)
      rw [heq] at hrest
      refine .again hagain ?_
      rw [heq]
      exact hrest (by omega) (by omega)
    · rename_i next heq
      have hlast : Stabilizes pass s (pass s).1 := .last (by rw [heq])
      rwa [heq] at hlast

end Lalr
