/-
  Passes whose reports are exact.

  The tables that a pass works on hold facts: a nonterminal is marked, a set has a member.  A pass
  takes nothing back, and it reports a change exactly if its tables hold a new fact (`ReportsNew`).
  The steps of a pass are of this kind, so the pass is (`ReportsNew.foldl`).

  If there are finitely many facts, such passes end, since each but the last finds a new one:
  `ReportsNew.exists_stopsAfter`.
-/
import Mathlib
import Lalr.Proofs.Growth

namespace Lalr

variable {σ κ ρ : Type} {holds : σ → κ → Prop} {acc acc' acc'' : σ × Bool}

/-! ## Reports

  The report of a step is handed on to the next one, so that it says whether anything was new so
  far.  A step of this kind may be taken anywhere in a pass. -/

/-- From one moment of a pass to a later one every fact is kept, and the report turns to `true`
    exactly if there is a new one. -/
structure ReportsNew (holds : σ → κ → Prop) (acc acc' : σ × Bool) : Prop where
  keeps : ∀ k, holds acc.1 k → holds acc'.1 k
  report_iff : acc'.2 = true ↔ acc.2 = true ∨ ∃ k, holds acc'.1 k ∧ ¬ holds acc.1 k

namespace ReportsNew

theorem refl (holds : σ → κ → Prop) (acc : σ × Bool) : ReportsNew holds acc acc where
  keeps _ := id
  report_iff := ⟨Or.inl, fun h => h.resolve_right fun ⟨_, hin, hout⟩ => hout hin⟩

theorem trans (h : ReportsNew holds acc acc') (h' : ReportsNew holds acc' acc'') :
    ReportsNew holds acc acc'' where
  keeps k hk := h'.keeps k (h.keeps k hk)
  report_iff := by
    rw [h'.report_iff, h.report_iff, or_assoc]
    refine or_congr_right ⟨?_, ?_⟩
    · rintro (⟨k, hin, hout⟩ | ⟨k, hin, hout⟩)
      · exact ⟨k, h'.keeps k hin, hout⟩
      · exact ⟨k, hin, fun hold => hout (h.keeps k hold)⟩
    · rintro ⟨k, hin, hout⟩
      by_cases hmid : holds acc'.1 k
      · exact Or.inl ⟨k, hmid, hout⟩
      · exact Or.inr ⟨k, hin, hmid⟩

/-- What a pass reports on its own. -/
theorem new_iff {s : σ} (h : ReportsNew holds (s, false) acc) :
    acc.2 = true ↔ ∃ k, holds acc.1 k ∧ ¬ holds s k :=
  h.report_iff.trans ⟨fun hb => hb.resolve_left Bool.false_ne_true, Or.inr⟩

/-- Where nothing is reported, the facts are the same. -/
theorem holds_iff {s : σ} (h : ReportsNew holds (s, false) acc) (hstay : acc.2 = false) (k : κ) :
    holds acc.1 k ↔ holds s k := by
  refine ⟨fun hin => ?_, h.keeps k⟩
  by_contra hout
  exact absurd ((h.new_iff.mpr ⟨k, hin, hout⟩).symm.trans hstay) (by decide)

/-- A pass is made of steps.  Induction on those that are left; `Inv` is what they need of the
    tables. -/
theorem foldl {Inv : σ → Prop} {step : σ × Bool → ρ → σ × Bool} {rs : List ρ}
    (hstep : ∀ r ∈ rs, ∀ acc, Inv acc.1 → Inv (step acc r).1 ∧ ReportsNew holds acc (step acc r))
    {acc : σ × Bool} (h : Inv acc.1) :
    Inv (rs.foldl step acc).1 ∧ ReportsNew holds acc (rs.foldl step acc) := by
  induction rs generalizing acc with
  | nil => exact ⟨h, .refl holds acc⟩
  | cons r rs ih =>
    obtain ⟨hinv, hreport⟩ := hstep r List.mem_cons_self acc h
    obtain ⟨hinv', hreport'⟩ := ih (fun s hs => hstep s (List.mem_cons_of_mem _ hs)) hinv
    exact ⟨hinv', hreport.trans hreport'⟩

end ReportsNew

/-- If every step that reports nothing changes nothing and finds `Q`, so does the pass, for all that
    it went through. -/
theorem foldl_stayed {step : σ × Bool → ρ → σ × Bool} {Q : σ → ρ → Prop}
    (hstep : ∀ {acc r}, (step acc r).2 = false → acc.2 = false ∧ (step acc r).1 = acc.1 ∧ Q acc.1 r)
    {rs : List ρ} {acc : σ × Bool} (h : (rs.foldl step acc).2 = false) :
    acc.2 = false ∧ (rs.foldl step acc).1 = acc.1 ∧ ∀ r ∈ rs, Q acc.1 r := by
  induction rs generalizing acc with
  | nil => exact ⟨h, rfl, fun r hr => absurd hr List.not_mem_nil⟩
  | cons r rs ih =>
    obtain ⟨hrest, hsame, hall⟩ := ih h
    obtain ⟨hstay, hhere, hr⟩ := hstep hrest
    rw [hhere] at hsame hall
    refine ⟨hstay, hsame, fun s hs => ?_⟩
    rcases List.mem_cons.mp hs with rfl | hs
    · exact hr
    · exact hall s hs

/-! ## Counting passes

  Of finitely many facts, how many hold is a measure that every pass raises if it reports a
  change. -/

/-- The value after `k` passes. -/
def rounds (pass : σ → σ × Bool) (k : Nat) (s : σ) : σ :=
  (fun s => (pass s).1)^[k] s

theorem rounds_succ (pass : σ → σ × Bool) (k : Nat) (s : σ) :
    rounds pass (k + 1) s = (pass (rounds pass k s)).1 :=
  Function.iterate_succ_apply' _ k s

theorem rounds_induction {pass : σ → σ × Bool} {Inv : σ → Prop}
    (keep : ∀ s, Inv s → Inv (pass s).1) {s : σ} (h : Inv s) (k : Nat) : Inv (rounds pass k s) := by
  induction k with
  | zero => exact h
  | succ k ih =>
    rw [rounds_succ]
    exact keep _ ih

/-- The first `k` passes report a change, and the one after them does not. -/
structure StopsAfter (pass : σ → σ × Bool) (s : σ) (k : Nat) : Prop where
  again : ∀ j, j < k → (pass (rounds pass j s)).2 = true
  last : (pass (rounds pass k s)).2 = false

theorem StopsAfter.unique {pass : σ → σ × Bool} {s : σ} {j k : Nat} (h : StopsAfter pass s j)
    (h' : StopsAfter pass s k) : j = k := by
  rcases Nat.lt_trichotomy j k with hlt | heq | hgt
  · exact absurd ((h'.again j hlt).symm.trans h.last) (by decide)
  · exact heq
  · exact absurd ((h.again k hgt).symm.trans h'.last) (by decide)

/-- Passes that come to an end do so after some number of them. -/
theorem Stabilizes.exists_stopsAfter {pass : σ → σ × Bool} {s r : σ} (h : Stabilizes pass s r) :
    ∃ k, StopsAfter pass s k ∧ r = rounds pass (k + 1) s := by
  induction h with
  | last h => exact ⟨0, ⟨fun j hj => absurd hj (Nat.not_lt_zero j), h⟩, rfl⟩
  | again h _ ih =>
    obtain ⟨k, hk, hr⟩ := ih
    refine ⟨k + 1, ⟨fun j hj => ?_, hk.last⟩, hr⟩
    cases j with
    | zero => exact h
    | succ j => exact hk.again j (Nat.lt_of_succ_lt_succ hj)

open Classical in
/-- How many of the facts in `K` hold. -/
noncomputable def heldCount (holds : σ → κ → Prop) (K : Finset κ) (s : σ) : Nat :=
  (K.filter (holds s)).card

theorem heldCount_le (holds : σ → κ → Prop) (K : Finset κ) (s : σ) :
    heldCount holds K s ≤ K.card := by
  classical
  exact Finset.card_filter_le _ _

theorem ReportsNew.heldCount_lt {K : Finset κ} {s : σ} (h : ReportsNew holds (s, false) acc)
    (hK : ∀ k, holds acc.1 k → k ∈ K) (hb : acc.2 = true) :
    heldCount holds K s < heldCount holds K acc.1 := by
  classical
  obtain ⟨k, hin, hout⟩ := h.new_iff.mp hb
  refine Finset.card_lt_card
    ⟨Finset.monotone_filter_right _ fun k _ => h.keeps k, fun hsub => hout ?_⟩
  exact (Finset.mem_filter.mp (hsub (Finset.mem_filter.mpr ⟨hK k hin, hin⟩))).2

section

variable {pass : σ → σ × Bool} {Inv : σ → Prop} {K : Finset κ}
  (hpass : ∀ s, Inv s → Inv (pass s).1 ∧ ReportsNew holds (s, false) (pass s))
  (hK : ∀ s, Inv s → ∀ k, holds s k → k ∈ K) {s : σ} (h : Inv s)
include hpass hK h

/-- If no other facts than those in `K` can hold, the passes end. -/
theorem ReportsNew.stabilizes {limit : Nat} (hlimit : K.card < limit) :
    Stabilizes pass s (untilStable pass limit s) :=
  untilStable_stabilizes pass Inv (heldCount holds K) K.card (fun s hs => (hpass s hs).1)
    (fun s hs hb => (hpass s hs).2.heldCount_lt (hK _ (hpass s hs).1) hb)
    (fun s _ => heldCount_le holds K s) limit s h (Nat.lt_add_right _ hlimit)

/-- Each pass but the last holds something new, so there are at most as many as there is to say. -/
theorem ReportsNew.exists_stopsAfter : ∃ k, k ≤ K.card ∧ StopsAfter pass s k ∧
    ∀ limit, K.card < limit → untilStable pass limit s = rounds pass (k + 1) s := by
  obtain ⟨k, hk, -⟩ := (stabilizes hpass hK h (Nat.lt_succ_self _)).exists_stopsAfter
  have hcount : ∀ j ≤ k, j ≤ heldCount holds K (rounds pass j s) := by
    intro j
    induction j with
    | zero => exact fun _ => Nat.zero_le _
    | succ j ih =>
      intro hj
      obtain ⟨hinv, hreport⟩ := hpass _ (rounds_induction (fun s hs => (hpass s hs).1) h j)
      have hlt := hreport.heldCount_lt (hK _ hinv) (hk.again j hj)
      have hle := ih (Nat.le_of_succ_le hj)
      rw [rounds_succ]
      omega
  refine ⟨k, (hcount k (Nat.le_refl k)).trans (heldCount_le holds K _), hk, fun limit hlimit => ?_⟩
  -- the passes are the same under every limit
  obtain ⟨j, hj, hresult⟩ := (stabilizes hpass hK h hlimit).exists_stopsAfter
  rw [hresult, hj.unique hk]

end

end Lalr
