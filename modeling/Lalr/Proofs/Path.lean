/-
  Paths through the automaton.

  A path lists the states passed from state 0 on, the last first, and the symbols crossed on the
  way. If the last state has an item with the dot behind `d` symbols, those were the last `d`
  symbols crossed, and the state before them has the item with the dot in front (`Path.pop`).  This
  is what makes it right to take states off a stack without looking at them.
-/
import Mathlib
import Lalr.Proofs.Collection

namespace Lalr

open State

variable {g : Grammar} {E : Edges}

/-- The states on the way from state 0 to the first of the list, and the symbols crossed. -/
inductive Path (E : Edges) : List Nat → List Symbol → Prop
  | start : Path E [0] []
  | cross {p q : Nat} {ps : List Nat} {α : List Symbol} {x : Symbol} (h : Path E (p :: ps) α)
      (he : E p x q) : Path E (q :: p :: ps) (α ++ [x])

theorem Path.leads {p : Nat} {ps : List Nat} {α : List Symbol} (h : Path E (p :: ps) α) :
    Leads E α p := by
  generalize hqs : p :: ps = qs at h
  induction h generalizing p ps with
  | start =>
    injection hqs with hp
    subst hp
    exact .nil
  | cross _ he ih =>
    injection hqs with hp
    subst hp
    exact .snoc (ih rfl) he

/-- The end of input stands only at the end of rule 0. -/
theorem Core.eq_of_next?_end (wf : g.WellFormed) {b : Core}
    (hnext : b.next? g = some (.terminal 0)) : b = ⟨0, 1⟩ := by
  obtain ⟨r, dot⟩ := b
  have hr : r = 0 := by
    by_contra hr
    exact (wf.rhs_inner (Nat.pos_of_ne_zero hr) (Core.rule_lt_of_next? hnext) _
      (Core.next?_mem hnext)).1 rfl
  subst hr
  obtain ⟨a, ha, -⟩ := wf.start_inner
  rw [Core.next?_eq_getElem?, wf.rhs_zero, ha] at hnext
  rcases dot with _ | _ | dot
  · exact absurd hnext (by simp)
  · rfl
  · exact absurd hnext (by simp)

/-- Rule 0 is short. -/
theorem Core.isShort_of_zero (wf : g.WellFormed) {c : Core} (hrule : c.rule = 0) :
    c.isShort g = true := by
  rw [Core.isShort_iff, hrule, wf.rhs_zero]
  simp

namespace Worklist

variable {w : Worklist} {p q : Nat} {x : Symbol} {c : Core}

/-- An item with symbols before the dot came over the edge that was crossed. -/
theorem Sound.crosses (wf : g.WellFormed) (h : Sound g E w) (he : E p x q)
    (hc : (w.state q).Has c) (hdot : 0 < c.dot) :
    ∃ b, (w.state p).Has b ∧ b.next? g = some x ∧ c = b.succ := by
  obtain ⟨b, hb, hnext, rfl⟩ := (h.edge_signature he).mp ((h.signed (h.edge_lt he)).kernelHas
    ((h.closed (h.edge_lt he)).kernelHas_of_dot wf hc (Or.inl hdot)))
  exact ⟨b, hb, hnext, ((h.closed (h.edge_src he)).fits wf hb).advance_eq_succ hdot⟩

/-- Only the first state begins with rule 0. -/
theorem Sound.eq_zero_of_has (wf : g.WellFormed) (h : Sound g E w) (hp : p < w.states.size)
    (hc : (w.state p).Has ⟨0, 0⟩) : p = 0 := by
  by_contra hpos
  obtain ⟨q, x, he⟩ := h.entered hp (Nat.pos_of_ne_zero hpos)
  obtain ⟨b, -, hnext, heq⟩ := (h.edge_signature he).mp ((h.signed hp).kernelHas
    ((h.closed hp).kernelHas_of_dot wf hc (Or.inr rfl)))
  have hrule : b.rule = 0 := (congrArg Core.rule heq).symm
  rw [Core.advance_eq (Core.isShort_of_zero wf hrule) hnext] at heq
  exact absurd (congrArg Core.dot heq) (Nat.succ_ne_zero b.dot).symm

/-- In the first state all dots stand in front. -/
theorem Sound.pos_of_dot (wf : g.WellFormed) (h : Sound g E w) (hc : (w.state p).Has c)
    (hdot : 0 < c.dot) : 0 < p := by
  refine Nat.pos_of_ne_zero fun h0 => ?_
  subst h0
  have hmem := (h.signed h.pos).kernelHas ((h.closed h.pos).kernelHas_of_dot wf hc (Or.inl hdot))
  rw [h.start.2, List.mem_singleton] at hmem
  rw [hmem] at hdot
  exact absurd hdot (Nat.lt_irrefl 0)

/-- A short rule with the dot in front stands in a state because its left side is expected there. -/
theorem Sound.expected (wf : g.WellFormed) (h : Sound g E w) (hp : p < w.states.size) {r : Nat}
    (hr : r ≠ 0) (hshort : (⟨r, 0⟩ : Core).isShort g = true) (hc : (w.state p).Has ⟨r, 0⟩) :
    ∃ c, (w.state p).Has c ∧ c.next? g = some (.nonterminal (g.rule r).lhs) := by
  have hclosed := h.closed hp
  generalize hd : (⟨r, 0⟩ : Core) = d at hc
  cases (hclosed.has_iff wf).mp hc with
  | kernel hk =>
    obtain ⟨item, hmem, hcore⟩ := hk
    rw [← hd] at hcore
    rcases hclosed.proper.kernel.moved item hmem (hcore ▸ hshort) with hdot | hzero
    · rw [hcore] at hdot
      exact absurd hdot (Nat.lt_irrefl 0)
    · rw [hcore] at hzero
      exact absurd (congrArg Core.rule hzero) hr
  | rule hin hnext _ hlhs =>
    injection hd with hr'
    subst hr' hlhs
    exact ⟨_, (hclosed.has_iff wf).mpr hin, hnext⟩

/-- The state that completes rule 0 is entered by the end of input and has no other item. -/
theorem Sound.final (wf : g.WellFormed) (h : Sound g E w) (hp : p < w.states.size)
    (hcompletes : ∃ c, (w.state p).Has c ∧ c.rule = 0 ∧ c.isComplete g = true) :
    (w.state p).Has ⟨0, 2⟩ ∧ (w.state p).entry = some (.terminal 0) ∧
      ∀ c, (w.state p).Has c → c = ⟨0, 2⟩ := by
  obtain ⟨⟨r, dot⟩, hc, rfl, hcomplete⟩ := hcompletes
  have hdot : dot = 2 := by
    have heq := ((h.closed hp).fits wf hc).dot_of_complete hcomplete
    rwa [wf.rhs_zero] at heq
  subst hdot
  obtain ⟨q, x, he⟩ := h.entered hp (h.pos_of_dot wf hc (by decide))
  have hx : x = .terminal 0 := by
    obtain ⟨⟨r, dot⟩, -, hnext, heq⟩ := h.crosses wf he hc (by decide)
    injection heq with hr hdot
    subst hr
    obtain rfl : dot = 1 := (Nat.succ.inj hdot).symm
    rw [Core.next?, Core.afterDot_eq, wf.rhs_zero] at hnext
    injection hnext with hnext
    exact hnext.symm
  subst hx
  refine ⟨hc, h.edge_entry he, fun c hc => ?_⟩
  have hclosed := h.closed hp
  -- nothing stands after the one dot, so the closure adds nothing to the kernel
  induction (hclosed.has_iff wf).mp hc with
  | kernel hk =>
    obtain ⟨b, -, hnext, rfl⟩ := (h.edge_signature he).mp ((h.signed hp).kernelHas hk)
    rw [Core.eq_of_next?_end wf hnext]
    rfl
  | rule hin hnext _ _ ih =>
    rw [ih ((hclosed.has_iff wf).mpr hin), Core.next?, Core.afterDot_eq, wf.rhs_zero] at hnext
    exact absurd hnext (by simp)

/-- The end of input leads to the state that completes rule 0. -/
theorem Sound.final_of_edge (wf : g.WellFormed) (h : Sound g E w) (he : E p (.terminal 0) q) :
    (w.state q).Has ⟨0, 2⟩ ∧ (⟨0, 2⟩ : Core).isComplete g = true := by
  have hsig : ∀ c ∈ (w.state q).signature, c = ⟨0, 2⟩ := by
    intro c hc
    obtain ⟨b, -, hnext, rfl⟩ := (h.edge_signature he).mp hc
    rw [Core.eq_of_next?_end wf hnext]
    rfl
  obtain ⟨c, hc⟩ := List.exists_mem_of_ne_nil _ (h.edge_nonempty he)
  have hshort : (⟨0, 2⟩ : Core).isShort g = true := Core.isShort_of_zero wf rfl
  -- one core fits into any kernel
  have hlength : (w.state q).signature.length < 65536 := by
    have hsub : (w.state q).signature ⊆ [⟨0, 2⟩] := fun c hc =>
      List.mem_singleton.mpr (hsig c hc)
    have hnodup := (h.signed (h.edge_lt he)).nodup fun c hc => hsig c hc ▸ hshort
    have hle := (hnodup.subperm hsub).length_le
    rw [List.length_singleton] at hle
    omega
  have hhas := ((h.kernelHas_iff_of_length (h.edge_lt he) hlength).mpr hc).has
  rw [hsig c hc] at hhas
  refine ⟨hhas, Core.isComplete_iff.mpr ?_⟩
  rw [wf.rhs_zero]
  exact Nat.le_refl 2

end Worklist

/-- The symbols before the dot of an item in the last state are the last that were crossed. -/
theorem Path.pop (wf : g.WellFormed) {w : Worklist} (hw : Worklist.Sound g E w) {r d q : Nat}
    {ps : List Nat} {α : List Symbol} (h : Path E (q :: ps) α) (hc : (w.state q).Has ⟨r, d⟩) :
    ∃ β p ps', (q :: ps).drop d = p :: ps' ∧ α = β ++ (g.rule r).rhs.take d ∧
      Path E (p :: ps') β ∧ (w.state p).Has ⟨r, 0⟩ := by
  induction d generalizing q ps α with
  | zero => exact ⟨α, q, ps, rfl, by rw [List.take_zero, List.append_nil], h, hc⟩
  | succ d ih =>
    have hpos := hw.pos_of_dot wf hc (Nat.succ_pos d)
    cases h with
    | start => exact absurd hpos (Nat.lt_irrefl 0)
    | @cross p _ ps α x h he =>
      obtain ⟨⟨r', d'⟩, hb, hnext, heq⟩ := hw.crosses wf he hc (Nat.succ_pos d)
      injection heq with hr hd
      injection hd with hd
      subst hr hd
      obtain ⟨β, p', ps', hdrop, hα, hpath, hfront⟩ := ih h hb
      refine ⟨β, p', ps', hdrop, ?_, hpath, hfront⟩
      have hget : (g.rule r).rhs[d]? = some x := (Core.next?_eq_getElem? g _).symm.trans hnext
      rw [List.take_add_one, hget, Option.toList_some, ← List.append_assoc, ← hα]

end Lalr
