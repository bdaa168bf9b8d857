/-
  Exploring states and handing lookaheads on.

  `Worklist.Inv` is what holds between two pieces of work: the states are sound; an explored state
  has a move on every symbol after a dot; and unless an explored state is on the stack of those that
  grew, its lookaheads have arrived where its moves lead (`HandedOn`).  The last takes that all
  rules are short: a kernel that has a core twice may lose one of its two lookaheads.

  Both kinds of work follow the crossings of one state `p`, as `p` was when the work began.  What
  one crossing does is a `Follow`; it is proved once for `enter` and once for `handOn`.  That all
  crossings together establish the invariant for `p` again is proved once for both
  (`Following.finish`): either `p` grew on the way, and is on the stack, or it is still as it was.

  Every piece of work also gains: `total` counts the members of all kernel lookaheads, and nothing
  is put on the stack without one more (`Progress.gain`).
-/
import Mathlib
import Lalr.Proofs.Worklist

namespace Lalr

open SymbolSet State

variable {g : Grammar}

/-! ## The crossings of a closed state

  A crossing is known from the items of its state, and its lookaheads from those of the items.
  When a state gains lookaheads, its crossings stay and gain as well. -/

/-- The kernels that a state leads to are its crossings, and have all of its lookaheads. -/
theorem mem_crossings {s : State} {x : Symbol} {k : Kernel}
    (hmem : (x, k) ∈ s.crossings g) : IsCrossing g s x k ∧
      ∀ {c : Core} {t : Nat}, s.Look c t → c.next? g = some x →
        ∃ e ∈ k, e.1 = c.advance ∧ t ∈ e.2 := by
  have hgroup := crossings_spec g s
  have hk := hgroup.kernel_eq hmem
  have hentry : ∀ e, e ∈ k ↔ ∃ item ∈ s.items, item.core.next? g = some x ∧
      e = (item.core.advance, s.lookahead item) := by
    intro e
    rw [← Array.mem_toList_iff, hk, crossed, List.mem_map]
    simp only [List.mem_filter, Array.mem_toList_iff, beq_iff_eq, and_assoc]
    exact exists_congr fun i => and_congr_right fun _ => and_congr_right fun _ => eq_comm
  refine ⟨⟨?_, ?_, fun {e} he {t} ht => ?_⟩, fun {c t} hlook hnext => ?_⟩
  · rw [hk, crossed, List.map_map, crossedCores]
    rfl
  · obtain ⟨item, hitem, hnext⟩ := hgroup.mem_iff.mp ⟨k, hmem⟩
    exact ⟨_, (hentry _).mpr ⟨item, Array.mem_toList_iff.mp hitem, hnext, rfl⟩⟩
  · obtain ⟨item, hitem, hnext, rfl⟩ := (hentry e).mp he
    exact ⟨item.core, ⟨item, hitem, rfl, ht⟩, hnext, rfl⟩
  · obtain ⟨item, hitem, rfl, ht⟩ := hlook
    exact ⟨_, (hentry _).mpr ⟨item, hitem, hnext, rfl⟩, rfl, ht⟩

/-- Every symbol after a dot is crossed. -/
theorem exists_crossing {s : State} {c : Core} {x : Symbol} (hc : s.Has c)
    (hnext : c.next? g = some x) : ∃ k, (x, k) ∈ s.crossings g := by
  obtain ⟨item, hmem, rfl⟩ := hc
  exact (crossings_spec g s).mem_iff.mpr ⟨item, Array.mem_toList_iff.mpr hmem, hnext⟩

/-- A state that only gained lookaheads is crossed in the same way. -/
theorem IsCrossing.mono {s s' : State} (halike : Worklist.Alike s s')
    (hlook : ∀ {c t}, s.Look c t → s'.Look c t) {x : Symbol} {k : Kernel}
    (h : IsCrossing g s x k) : IsCrossing g s' x k where
  cores_eq := h.cores_eq.trans (halike.crossedCores x).symm
  nonempty := h.nonempty
  look he _ ht := by
    obtain ⟨b, hb, hrest⟩ := h.look he ht
    exact ⟨b, hlook hb, hrest⟩

/-- What is gained from less is gained from more. -/
theorem Gains.mono {K : Core → Prop} {L L' : Core → Nat → Prop} (hL : ∀ {c t}, L c t → L' c t)
    {c : Core} {t : Nat} (h : Gains g K L c t) : Gains g K L' c t := by
  induction h with
  | kernel h => exact .kernel (hL h)
  | first hc hafter hr hlhs h => exact .first hc hafter hr hlhs h
  | inherit _ hafter hr hlhs hv ih => exact .inherit ih hafter hr hlhs hv

namespace Worklist

/-- More kernel lookaheads mean more lookaheads. -/
theorem look_mono (wf : g.WellFormed) {s s' : State} (h : Closed g s) (h' : Closed g s')
    (halike : Alike s s') (hkl : ∀ {c t}, s.KernelLook c t → s'.KernelLook c t) {c : Core} {t : Nat}
    (hlook : s.Look c t) : s'.Look c t := by
  have hK : s'.KernelHas = s.KernelHas := by
    funext d
    exact propext halike.kernelHas
  rw [h'.look_iff wf, hK]
  exact ((h.look_iff wf).mp hlook).mono hkl

/-! ## Progress

  Pieces of work are compared by what they leave: nothing is taken back, and what is new on the
  stack is paid for by members of kernel lookaheads. -/

/-- How many members the lookaheads of all kernel items have together. -/
def total (g : Grammar) (w : Worklist) : Nat :=
  ∑ q ∈ Finset.range w.states.size, weight g (w.state q)

/-- Nothing is lost from one worklist to the other: states keep their items, lookaheads grow, and
    an explored state that is not noted as grown has not changed. -/
structure Progress (g : Grammar) (w w' : Worklist) : Prop where
  size_le : w.states.size ≤ w'.states.size
  explored : w'.explored = w.explored
  alike : ∀ {q : Nat}, q < w.states.size → Alike (w.state q) (w'.state q)
  kernelLook : ∀ {q t : Nat} {c : Core}, q < w.states.size → (w.state q).KernelLook c t →
    (w'.state q).KernelLook c t
  edges : ∀ {q t : Nat} {x : Symbol}, w.edges q x t → w'.edges q x t
  grown : ∀ {q : Nat}, q ∈ w.grown → q ∈ w'.grown
  grown_lt : ∀ {q : Nat}, q ∈ w'.grown → q ∈ w.grown ∨ q < w.explored
  unchanged : ∀ {q : Nat}, q < w.states.size → q < w.explored → q ∉ w'.grown →
    (w'.state q).lookaheads = (w.state q).lookaheads
  gain : total g w + w'.grown.length ≤ total g w' + w.grown.length

theorem Progress.trans {w w' w'' : Worklist} (h : Progress g w w') (h' : Progress g w' w'') :
    Progress g w w'' where
  size_le := h.size_le.trans h'.size_le
  explored := h'.explored.trans h.explored
  alike hq := (h.alike hq).trans (h'.alike (Nat.lt_of_lt_of_le hq h.size_le))
  kernelLook hq hk := h'.kernelLook (Nat.lt_of_lt_of_le hq h.size_le) (h.kernelLook hq hk)
  edges he := h'.edges (h.edges he)
  grown hq := h'.grown (h.grown hq)
  grown_lt hq := (h'.grown_lt hq).elim h.grown_lt fun hlt => Or.inr (h.explored ▸ hlt)
  unchanged {q} hq hex hnot := by
    rw [h'.unchanged (Nat.lt_of_lt_of_le hq h.size_le) (h.explored.symm ▸ hex) hnot]
    exact h.unchanged hq hex fun hin => hnot (h'.grown hin)
  gain := by
    have := h.gain
    have := h'.gain
    omega

theorem Progress.refl (g : Grammar) (w : Worklist) : Progress g w w :=
  ⟨Nat.le_refl _, rfl, fun _ => .refl _, fun _ => id, id, id, Or.inl, fun _ _ _ => rfl,
    Nat.le_refl _⟩

theorem weight_congr' {s s' : State} (hsize : s'.kernelSize = s.kernelSize)
    (hlooks : s'.lookaheads = s.lookaheads) : weight g s' = weight g s := by
  rw [weight, weight, hsize, hlooks]

/-- Adding lookaheads is progress. -/
theorem Enriched.progress {w w' : Worklist} {t : Nat} {k : Kernel} (h : Enriched g w t k w')
    (ht : t < w.states.size) : Progress g w w' := by
  refine ⟨h.size.ge, h.explored, fun _ => h.alike _, fun {q u c} _ hk => ?_, h.edges_iff.mpr,
    h.grown, h.grown_lt, fun {q} hq hex hnot => ?_, ?_⟩
  · by_cases hqt : q = t
    · subst hqt
      exact h.kernelLook.mpr (Or.inl hk)
    · rw [h.other hqt]
      exact hk
  · rcases h.change with ⟨hsame, -⟩ | ⟨-, hin, -⟩
    · rw [state, state, hsame]
    · by_cases hqt : q = t
      · exact absurd (hqt ▸ hin (hqt ▸ hex)) hnot
      · rw [h.other hqt]
  · rcases h.change with ⟨hsame, hgrown⟩ | ⟨hlt, -, hlen⟩
    · rw [total, total, hgrown]
      simp only [state, hsame]
      exact Nat.le_refl _
    -- one state got heavier and no other changed
    · have hsum : total g w < total g w' := by
        rw [total, total, h.size]
        refine Finset.sum_lt_sum (fun q _ => ?_) ⟨t, Finset.mem_range.mpr ht, hlt⟩
        by_cases hqt : q = t
        · exact hqt ▸ Nat.le_of_lt hlt
        · rw [h.other hqt]
      omega

/-- Noting a move is progress. -/
theorem addMove_progress (w : Worklist) {p : Nat} (hp : p < w.states.size) (x : Symbol) (t : Nat) :
    Progress g w (w.addMove p x t) := by
  obtain ⟨hsize, halike, hlooks, hmoves⟩ := addMove_spec w hp x t
  refine ⟨hsize.ge, rfl, fun _ => halike _, fun {q u c} _ hk => ?_, fun {q u y} he => ?_, id,
    Or.inl, fun _ _ _ => hlooks _, ?_⟩
  · obtain ⟨item, hmem, hcore, hu⟩ := hk
    refine ⟨item, (halike q).kernel ▸ hmem, hcore, ?_⟩
    rw [State.lookahead, hlooks]
    exact hu
  · exact (hmoves q (y, u)).mpr (Or.inl he)
  · rw [total, total, hsize]
    refine Nat.add_le_add_right (Finset.sum_le_sum fun q _ => ?_) _
    rw [weight_congr' (halike q).kernelSize (hlooks q)]

/-- Adding a state is progress. -/
theorem addState_progress (a : Analysis) (w : Worklist) (x : Symbol) (k : Kernel) :
    Progress g w (w.addState a x k) := by
  obtain ⟨hsize, hother, -⟩ := addState_spec a w x k
  have hold : ∀ {q}, q < w.states.size → (w.addState a x k).state q = w.state q :=
    fun hq => hother _ (Nat.ne_of_lt hq)
  refine ⟨by omega, rfl, fun {q} hq => ?_, fun {q u c} hq hk => ?_, fun {q u y} he => ?_, id,
    Or.inl, fun {q} hq _ _ => by rw [hold hq], ?_⟩
  · rw [hold hq]
    exact .refl _
  · rw [hold hq]
    exact hk
  · have hq : q < w.states.size := lt_of_edge he
    show (y, u) ∈ ((w.addState a x k).state q).moves
    rw [hold hq]
    exact he
  · rw [total, total, hsize, Finset.sum_range_succ]
    have : ∑ q ∈ Finset.range w.states.size, weight g ((w.addState a x k).state q) =
        ∑ q ∈ Finset.range w.states.size, weight g (w.state q) :=
      Finset.sum_congr rfl fun q hq => by rw [hold (Finset.mem_range.mp hq)]
    rw [this]
    exact Nat.add_le_add_right (Nat.le_add_right _ _) _

/-! ## One crossing

  A crossing that is followed for the first time gets a move, and one that is followed again has
  it.  Either way its lookaheads have arrived where it leads, once it is followed. -/

/-- The lookaheads of the kernel are in state `t`, as far as it has the cores. -/
def Arrived (w : Worklist) (k : Kernel) (t : Nat) : Prop :=
  ∀ e ∈ k, (w.state t).KernelHas e.1 → ∀ u ∈ e.2, (w.state t).KernelLook e.1 u

/-- What has arrived stays. -/
theorem Arrived.mono {w w' : Worklist} {k : Kernel} {t : Nat} (h : Arrived w k t)
    (hp : Progress g w w') (ht : t < w.states.size) : Arrived w' k t := by
  intro e he hhas u hu
  exact hp.kernelLook ht (h e he ((hp.alike ht).kernelHas.mp hhas) u hu)

/-- What following one crossing of state `p` does. -/
structure Follow (g : Grammar) (p : Nat) (x : Symbol) (k : Kernel) (w w' : Worklist) : Prop where
  progress : Progress g w w'
  sound : Sound g w'.edges w'
  other : ∀ {q u : Nat} {y : Symbol}, w'.edges q y u → w.edges q y u ∨ (q = p ∧ y = x)
  target : ∃ t, w'.edges p x t ∧ (g.IsShort → Arrived w' k t)

/-- The invariant says the same of the same moves. -/
theorem Sound.congr {E : Edges} {w : Worklist} (h : Sound g E w) {E' : Edges}
    (hE : ∀ q y u, E q y u ↔ E' q y u) :
    Sound g E' w := by
  have heq : E = E' := by
    funext q y u
    exact propext (hE q y u)
  exact heq ▸ h

/-- Noting a promised move completes a follow. -/
theorem Follow.of_addMove {w w₁ : Worklist} {p t : Nat} {x : Symbol} {k : Kernel}
    (hprogress : Progress g w w₁) (hedges : ∀ {q u y}, w₁.edges q y u → w.edges q y u)
    (hsound : Sound g (w.edges.with p x t) w₁) (harrived : g.IsShort → Arrived w₁ k t) :
    Follow g p x k w (w₁.addMove p x t) := by
  have hnew : w.edges.with p x t p x t := Or.inr ⟨rfl, rfl, rfl⟩
  have hp : p < w₁.states.size := hsound.edge_src hnew
  have hmoves := (addMove_spec w₁ hp x t).2.2.2
  have hiff : ∀ q y u, (w₁.addMove p x t).edges q y u ↔ w.edges.with p x t q y u := by
    intro q y u
    refine (hmoves q (y, u)).trans ⟨fun h => h.imp (fun h => hedges h) fun ⟨hq, heq⟩ => ?_,
      fun h => h.imp hprogress.edges fun ⟨hq, hy, hu⟩ => ⟨hq, by rw [hy, hu]⟩⟩
    injection heq with h1 h2
    exact ⟨hq, h1, h2⟩
  have hadd := addMove_progress (g := g) w₁ hp x t
  refine ⟨hprogress.trans hadd, (hsound.addMove hnew).congr fun q y u => (hiff q y u).symm,
    fun {q u y} he => ?_, t, (hiff p x t).mpr hnew, fun hg =>
      (harrived hg).mono hadd (hsound.edge_lt hnew)⟩
  exact ((hiff q y u).mp he).imp id fun h => ⟨h.1, h.2.1⟩

/-- What is added has arrived. -/
theorem Enriched.arrived {w w' : Worklist} {t : Nat} {k : Kernel} (h : Enriched g w t k w') :
    Arrived w' k t := by
  intro e he hhas u hu
  exact h.kernelLook.mpr (Or.inr ⟨h.shape.kernelHas.mp hhas, e, he, rfl, hu⟩)

/-- A crossing that is followed for the first time. -/
theorem enter_follow (wf : g.WellFormed) {w : Worklist} (h : Sound g w.edges w) {p : Nat}
    (hp : p < w.explored) {x : Symbol} {k : Kernel} (hcross : IsCrossing g (w.state p) x k) :
    Follow g p x k w (enter (Analysis.ofGrammar g) p w (x, k)) := by
  have hlt : p < w.states.size := Nat.lt_of_lt_of_le hp h.explored_le
  have hk := (crossing_sound wf (h.closed hlt) hcross)
  simp only [enter]
  split
  · rename_i t hfound
    obtain ⟨ht, hentry, hsig⟩ := lookup?_eq_some hfound
    -- the move is promised first: the lookaheads are justified by the path over it
    have hprom : Sound g (w.edges.with p x t) w := by
      refine h.promise hp ht hentry ?_ ?_
      · rw [hsig]
        exact crossing_signature hcross
      · rw [hsig]
        exact crossing_nonempty hcross
    have hen := enrich_spec wf w ht (h.closed ht) hk.look_lt
    exact .of_addMove (hen.progress ht) (fun he => hen.edges_iff.mp he)
      (hprom.enrich wf ht hk.look_lt fun hg =>
        hprom.crossing_justified hg (Or.inr ⟨rfl, rfl, rfl⟩) hcross)
      fun _ => hen.arrived
  · rename_i hnone
    -- the state that is made has no moves yet, so it adds no edges
    obtain ⟨-, hother, hself⟩ := addState_spec (Analysis.ofGrammar g) w x k
    obtain ⟨-, -, -, hmoves, -, hkernel, hlook⟩ := ofKernel_spec wf hk (some x) hself.symm
    refine .of_addMove (addState_progress _ w x k) (fun {q u y} he => ?_)
      (h.addState wf hp hcross hnone) fun hg e he hhas u hu => ?_
    · have he : (y, u) ∈ ((w.addState (Analysis.ofGrammar g) x k).state q).moves := he
      by_cases hq : q = w.states.size
      · rw [hq, hmoves] at he
        exact absurd he (by simp)
      · rw [hother q hq] at he
        exact he
    · -- the core is one of those that the kernel keeps, and it is there only once
      obtain ⟨item, hmem, hcore⟩ := hhas
      have hin : e.1 ∈ (k.toList.map (·.1)).take (kernelLimit k.size) := by
        rw [← hkernel, ← hcore]
        exact List.mem_map.mpr ⟨item, Array.mem_toList_iff.mpr hmem, rfl⟩
      obtain ⟨i, hi, hget⟩ := List.mem_take_iff_getElem.mp hin
      obtain ⟨j, hj⟩ := Array.mem_iff_getElem?.mp he
      have hij : i = j := by
        refine (List.getElem?_inj (by omega) (hk.distinct.nodup hg)).mp ?_
        rw [List.getElem?_eq_getElem (by omega), hget, List.getElem?_map, Array.getElem?_toList, hj]
        rfl
      exact (hlook e.1 u).mpr ⟨i, by omega, e, hij ▸ hj, rfl, hu⟩

/-- A crossing that is followed again. -/
theorem handOn_follow (wf : g.WellFormed) {w : Worklist} (h : Sound g w.edges w) {p : Nat}
    (hp : p < w.explored) {x : Symbol} {k : Kernel} (hcross : IsCrossing g (w.state p) x k)
    (hmoved : ∃ t, w.edges p x t) :
    Follow g p x k w (handOn (Analysis.ofGrammar g) p w (x, k)) := by
  have hlt : p < w.states.size := Nat.lt_of_lt_of_le hp h.explored_le
  have hk := (crossing_sound wf (h.closed hlt) hcross)
  simp only [handOn]
  split
  -- the move there is was made for `x`, and its target takes what the crossing brings
  · rename_i y t hfound
    have hmem : (y, t) ∈ (w.state p).moves := Array.mem_of_find?_eq_some hfound
    have hy : y = x := by simpa using Array.find?_some hfound
    subst hy
    have hedge : w.edges p y t := hmem
    have ht := h.edge_lt hedge
    have hen := enrich_spec wf w ht (h.closed ht) hk.look_lt
    have hiff : ∀ q z u, w.edges q z u ↔ (w.enrich (Analysis.ofGrammar g) t k).edges q z u :=
      fun q z u => hen.edges_iff.symm
    have hsound := h.enrich wf ht hk.look_lt fun hg => h.crossing_justified hg hedge hcross
    exact ⟨hen.progress ht, hsound.congr hiff, fun he => Or.inl ((hiff _ _ _).mpr he), t,
      (hiff _ _ _).mp hedge, fun _ => hen.arrived⟩
  · rename_i hnone
    obtain ⟨t, ht⟩ := hmoved
    have := Array.find?_eq_none.mp hnone (x, t) ht
    simp at this

/-! ## All crossings of a state

  The state that is followed may lead to itself, and grow on the way.  The kernels that are left
  are those it had at the beginning; so at the end its lookaheads have arrived as they were then,
  and if there are more by now, it is on the stack. -/

/-- An explored state has a move on every symbol after a dot. -/
def Moved (g : Grammar) (w : Worklist) (q : Nat) : Prop :=
  ∀ {c : Core} {x : Symbol}, (w.state q).Has c → c.next? g = some x → ∃ t, w.edges q x t

/-- The lookaheads of state `q` are in state `t`, moved over `x`, as far as `t` has the cores. -/
def HandedOn (g : Grammar) (w : Worklist) (q : Nat) (x : Symbol) (t : Nat) : Prop :=
  ∀ {c : Core} {u : Nat}, (w.state q).Look c u → c.next? g = some x →
    (w.state t).KernelHas c.advance → (w.state t).KernelLook c.advance u

/-- What holds between two pieces of work. -/
structure Inv (g : Grammar) (w : Worklist) : Prop where
  sound : Sound g w.edges w
  grown_lt : ∀ {q : Nat}, q ∈ w.grown → q < w.explored
  moved : ∀ {q : Nat}, q < w.explored → Moved g w q
  handedOn : g.IsShort → ∀ {q t : Nat} {x : Symbol}, q < w.explored → q ∉ w.grown →
    w.edges q x t → HandedOn g w q x t

/-- Some crossings of state `p` were followed since the worklist was `w₀`. -/
structure Following (g : Grammar) (p : Nat) (w₀ w : Worklist) (done : List (Symbol × Kernel)) :
    Prop where
  progress : Progress g w₀ w
  sound : Sound g w.edges w
  other : ∀ {q u : Nat} {y : Symbol}, w.edges q y u → w₀.edges q y u ∨ q = p
  arrived : ∀ {x : Symbol} {k : Kernel}, (x, k) ∈ done →
    ∃ t, w.edges p x t ∧ (g.IsShort → Arrived w k t)

/-- Following one more crossing. -/
theorem Following.step {p : Nat} {w₀ w w' : Worklist} {done : List (Symbol × Kernel)}
    (h : Following g p w₀ w done) {x : Symbol} {k : Kernel} (hf : Follow g p x k w w') :
    Following g p w₀ w' (done ++ [(x, k)]) := by
  refine ⟨h.progress.trans hf.progress, hf.sound, fun he => ?_, fun {y l} hmem => ?_⟩
  · exact (hf.other he).elim h.other fun he => Or.inr he.1
  · rcases List.mem_append.mp hmem with hmem | hmem
    · obtain ⟨t, ht, harr⟩ := h.arrived hmem
      exact ⟨t, hf.progress.edges ht, fun hg => (harr hg).mono hf.progress (h.sound.edge_lt ht)⟩
    · injection List.mem_singleton.mp hmem with h1 h2
      exact h1 ▸ h2 ▸ hf.target

/-- While state `p` is followed, its crossings at the beginning are crossings of it. -/
theorem Following.isCrossing (wf : g.WellFormed) {p : Nat} {w₀ w : Worklist}
    {done : List (Symbol × Kernel)} (h : Following g p w₀ w done) (h₀ : Sound g w₀.edges w₀)
    (hp : p < w₀.states.size) {x : Symbol} {k : Kernel}
    (hmem : (x, k) ∈ (w₀.state p).crossings g) : IsCrossing g (w.state p) x k := by
  have hlt : p < w.states.size := Nat.lt_of_lt_of_le hp h.progress.size_le
  exact (mem_crossings hmem).1.mono (h.progress.alike hp) fun hlook =>
    look_mono wf (h₀.closed hp) (h.sound.closed hlt) (h.progress.alike hp)
      (fun hk => h.progress.kernelLook hp hk) hlook

/-- When all crossings of `p` were followed, the invariant holds again. -/
theorem Following.finish {p : Nat} {w₀ w : Worklist}
    {done : List (Symbol × Kernel)} (h : Following g p w₀ w done) (h₀ : Sound g w₀.edges w₀)
    (hp : p < w₀.explored) (hgrown : ∀ {q}, q ∈ w₀.grown → q < w₀.explored)
    (hmoved : ∀ {q}, q < w₀.explored → q ≠ p → Moved g w₀ q)
    (hhanded : g.IsShort → ∀ {q t x}, q < w₀.explored → q ≠ p → q ∉ w₀.grown →
      w₀.edges q x t → HandedOn g w₀ q x t)
    (hdone : ∀ e, e ∈ (w₀.state p).crossings g → e ∈ done) : Inv g w := by
  have hlt : ∀ {q}, q < w₀.explored → q < w₀.states.size :=
    fun hq => Nat.lt_of_lt_of_le hq h₀.explored_le
  have hex : ∀ {q}, q < w.explored → q < w₀.explored := fun hq => h.progress.explored ▸ hq
  -- an explored state that did not grow has the lookaheads that it had
  have hsame : ∀ {q c u}, q < w₀.explored → q ∉ w.grown → (w.state q).Look c u →
      (w₀.state q).Look c u := fun hq hnot hlook =>
    (look_congr (h.progress.alike (hlt hq)).items
      (h.progress.unchanged (hlt hq) hq hnot)).mp hlook
  refine ⟨h.sound, fun {q} hq => ?_, fun {q} hq c x hc hnext => ?_,
    fun hg {q t x} hq hnot he c u hlook hnext hhas => ?_⟩
  · rw [h.progress.explored]
    exact (h.progress.grown_lt hq).elim hgrown id
  · have hc' := (h.progress.alike (hlt (hex hq))).has.mp hc
    by_cases hqp : q = p
    · subst hqp
      obtain ⟨k, hk⟩ := exists_crossing hc' hnext
      obtain ⟨t, ht, -⟩ := h.arrived (hdone _ hk)
      exact ⟨t, ht⟩
    · obtain ⟨t, ht⟩ := hmoved (hex hq) hqp hc' hnext
      exact ⟨t, h.progress.edges ht⟩
  · have hlook' := hsame (hex hq) hnot hlook
    by_cases hqp : q = p
    · subst hqp
      obtain ⟨k, hk⟩ := exists_crossing hlook'.has hnext
      obtain ⟨e, hmem, hcore, hu⟩ := (mem_crossings hk).2 hlook' hnext
      obtain ⟨t', ht', harr⟩ := h.arrived (hdone _ hk)
      rw [h.sound.edge_unique he ht', ← hcore] at hhas ⊢
      exact harr hg e hmem hhas u hu
    · have he₀ : w₀.edges q x t := (h.other he).resolve_right hqp
      have ht := h₀.edge_lt he₀
      exact h.progress.kernelLook ht (hhanded hg (hex hq) hqp
        (fun hin => hnot (h.progress.grown hin)) he₀ hlook' hnext
        ((h.progress.alike ht).kernelHas.mp hhas))

/-! ## Pieces of work

  Exploring a state and handing its lookaheads on differ in what is known of its moves at the
  beginning.  From there on they are the same work. -/

/-- Follows a crossing of state `p`, for the first time or again. -/
def follow (a : Analysis) (again : Bool) (p : Nat) (w : Worklist) (crossing : Symbol × Kernel) :
    Worklist :=
  if again then handOn a p w crossing else enter a p w crossing

/-- A piece of work in progress: of the crossings that state `p` had in `w₀`, some are done and some
    are left. -/
structure Underway (g : Grammar) (again : Bool) (p : Nat) (w₀ w : Worklist)
    (done left : List (Symbol × Kernel)) : Prop where
  base : Sound g w₀.edges w₀
  origin_lt : p < w₀.explored
  grown_lt : ∀ {q : Nat}, q ∈ w₀.grown → q < w₀.explored
  moved : ∀ {q : Nat}, q < w₀.explored → (q ≠ p ∨ again = true) → Moved g w₀ q
  handedOn : g.IsShort → ∀ {q t : Nat} {x : Symbol}, q < w₀.explored → q ≠ p → q ∉ w₀.grown →
    w₀.edges q x t → HandedOn g w₀ q x t
  crossings_eq : ((w₀.state p).crossings g).toList = done ++ left
  following : Following g p w₀ w done

namespace Underway

variable {again : Bool} {p : Nat} {w₀ w : Worklist} {done left : List (Symbol × Kernel)}

/-- A crossing that is left is one of those that the state had. -/
theorem mem_crossings (h : Underway g again p w₀ w done left) {crossing : Symbol × Kernel}
    (hmem : crossing ∈ left) : crossing ∈ (w₀.state p).crossings g := by
  rw [← Array.mem_toList_iff, h.crossings_eq]
  exact List.mem_append_right _ hmem

/-- When lookaheads are handed on, every crossing that is left has its move. -/
theorem exists_move (h : Underway g again p w₀ w done left) (hagain : again = true) {x : Symbol}
    {k : Kernel} (hmem : (x, k) ∈ left) : ∃ t, w.edges p x t := by
  obtain ⟨item, hitem, hnext⟩ :=
    (crossings_spec g (w₀.state p)).mem_iff.mp ⟨k, h.mem_crossings hmem⟩
  obtain ⟨t, ht⟩ := h.moved h.origin_lt (Or.inr hagain)
    ⟨item, Array.mem_toList_iff.mp hitem, rfl⟩ hnext
  exact ⟨t, h.following.progress.edges ht⟩

/-- The next crossing is followed as it should be. -/
theorem follow_next (wf : g.WellFormed) {x : Symbol} {k : Kernel}
    (h : Underway g again p w₀ w done ((x, k) :: left)) :
    Follow g p x k w (follow (Analysis.ofGrammar g) again p w (x, k)) := by
  have hcross := h.following.isCrossing wf h.base
    (Nat.lt_of_lt_of_le h.origin_lt h.base.explored_le) (h.mem_crossings List.mem_cons_self)
  have hlt : p < w.explored := by
    rw [h.following.progress.explored]
    exact h.origin_lt
  unfold Worklist.follow
  split
  · rename_i hagain
    exact handOn_follow wf h.following.sound hlt hcross (h.exists_move hagain List.mem_cons_self)
  · exact enter_follow wf h.following.sound hlt hcross

/-- One crossing is followed, the rest is left. -/
theorem tail (wf : g.WellFormed) {crossing : Symbol × Kernel}
    (h : Underway g again p w₀ w done (crossing :: left)) :
    Underway g again p w₀ (follow (Analysis.ofGrammar g) again p w crossing) (done ++ [crossing])
      left := by
  refine ⟨h.base, h.origin_lt, h.grown_lt, h.moved, h.handedOn, ?_,
    h.following.step (h.follow_next wf)⟩
  rw [h.crossings_eq, List.append_assoc]
  rfl

/-- When no crossing is left, the worklist is in order again. -/
theorem finish (h : Underway g again p w₀ w done []) : Inv g w :=
  h.following.finish h.base h.origin_lt h.grown_lt (fun hq hne => h.moved hq (Or.inl hne))
    h.handedOn fun e he => by
      rw [← Array.mem_toList_iff, h.crossings_eq, List.append_nil] at he
      exact he

/-- Induction on the crossings that are left. -/
theorem finish_all (wf : g.WellFormed) (h : Underway g again p w₀ w done left) :
    Inv g (left.foldl (Worklist.follow (Analysis.ofGrammar g) again p) w) ∧
      Progress g w₀ (left.foldl (Worklist.follow (Analysis.ofGrammar g) again p) w) := by
  induction left generalizing w done with
  | nil => exact ⟨h.finish, h.following.progress⟩
  | cons crossing left ih => exact ih (h.tail wf)

end Underway

/-- The next state is ready to be explored. -/
theorem Inv.underway_explore {w : Worklist} (h : Inv g w)
    (hlt : w.explored < w.states.size) :
    Underway g false w.explored { w with explored := w.explored + 1 }
      { w with explored := w.explored + 1 } [] ((w.state w.explored).crossings g).toList := by
  have h₀ : Sound g w.edges { w with explored := w.explored + 1 } :=
    h.sound.of_alike rfl rfl (Nat.le_succ _) hlt (fun _ => .refl _) h.sound.closed
      h.sound.moves_edge h.sound.justified
  have hold : ∀ {q}, q < w.explored + 1 → q ≠ w.explored → q < w.explored := by
    intro q hq hne
    omega
  exact ⟨h₀, Nat.lt_succ_self _, fun hq => Nat.lt_succ_of_lt (h.grown_lt hq),
    fun hq hne => h.moved (hold hq (hne.resolve_right (by decide))),
    fun hg _ _ _ hq hne => h.handedOn hg (hold hq hne), rfl,
    .refl _ _, h₀, Or.inl, fun hmem => absurd hmem List.not_mem_nil⟩

/-- The state on top of the stack is ready to hand its lookaheads on. -/
theorem Inv.underway_handOn {w : Worklist} (h : Inv g w) {p : Nat}
    {others : List Nat} (hstack : w.grown = p :: others) :
    Underway g true p { w with grown := others } { w with grown := others } []
      ((w.state p).crossings g).toList := by
  have h₀ : Sound g w.edges { w with grown := others } :=
    h.sound.of_alike rfl rfl (Nat.le_refl _) h.sound.explored_le (fun _ => .refl _) h.sound.closed
      h.sound.moves_edge h.sound.justified
  refine ⟨h₀, h.grown_lt (hstack ▸ List.mem_cons_self),
    fun hq => h.grown_lt (hstack ▸ List.mem_cons_of_mem _ hq), fun hq _ => h.moved hq,
    fun hg _ _ _ hq hne hnot he => h.handedOn hg hq (fun hin => ?_) he, rfl,
    .refl _ _, h₀, Or.inl, fun hmem => absurd hmem List.not_mem_nil⟩
  rw [hstack] at hin
  exact (List.mem_cons.mp hin).elim hne hnot

/-- The work is done when every state is explored and none has grown since. -/
theorem isDone_iff {w : Worklist} :
    w.isDone = true ↔ w.states.size ≤ w.explored ∧ w.grown = [] := by
  rw [isDone, Bool.and_eq_true, decide_eq_true_iff, List.isEmpty_iff]

/-- A piece of work keeps the invariant, and it gains more than it puts on the stack. -/
theorem Inv.work (wf : g.WellFormed) {w w' : Worklist} (h : Inv g w) (hleft : ¬ w.isDone = true)
    (hw' : w.work (Analysis.ofGrammar g) = w') : Inv g w' ∧
      w.explored + total g w + w'.grown.length + 1 ≤ w'.explored + total g w' + w.grown.length := by
  unfold Worklist.work at hw'
  split at hw'
  · -- the next state is explored
    rename_i hlt
    obtain ⟨hinv, hprogress⟩ := (h.underway_explore hlt).finish_all wf
    have hfold : ((w.state w.explored).crossings g).toList.foldl
        (follow (Analysis.ofGrammar g) false w.explored)
          { w with explored := w.explored + 1 } = w' := by
      rw [Array.foldl_toList]
      exact hw'
    rw [hfold] at hinv hprogress
    have hgain : total g w + w'.grown.length ≤ total g w' + w.grown.length := hprogress.gain
    have hexplored : w'.explored = w.explored + 1 := hprogress.explored
    exact ⟨hinv, by omega⟩
  · rename_i hexplored
    split at hw'
    · -- the state on top of the stack hands its lookaheads on
      rename_i p others hstack
      obtain ⟨hinv, hprogress⟩ := (h.underway_handOn hstack).finish_all wf
      have hfold : ((w.state p).crossings g).toList.foldl
          (follow (Analysis.ofGrammar g) true p) { w with grown := others } = w' := by
        rw [Array.foldl_toList]
        exact hw'
      rw [hfold] at hinv hprogress
      have hgain : total g w + w'.grown.length ≤ total g w' + others.length := hprogress.gain
      have hexplored : w'.explored = w.explored := hprogress.explored
      refine ⟨hinv, ?_⟩
      rw [hstack, List.length_cons]
      omega
    · rename_i hempty
      exact absurd (isDone_iff.mpr ⟨Nat.le_of_not_lt hexplored, hempty⟩) hleft

/-- The kernel of the first state. -/
theorem sound_first (wf : g.WellFormed) : Kernel.Sound g #[(⟨0, 0⟩, ∅)] := by
  refine ⟨List.Nodup.sublist List.filter_sublist (by simp), fun e he => ?_, fun e he _ => ?_,
    fun e he t ht => ?_⟩
  · rw [Array.mem_singleton.mp he]
    exact .front wf.rules_pos
  · rw [Array.mem_singleton.mp he]
    exact Or.inr rfl
  · rw [Array.mem_singleton.mp he] at ht
    exact absurd ht (not_mem_empty t)

/-- The invariant holds at the beginning. -/
theorem Inv.start (wf : g.WellFormed) : Inv g (Worklist.start (Analysis.ofGrammar g)) := by
  have hk := sound_first wf
  obtain ⟨hclosed, hentry, hsig, hmoves, -, -, hlook⟩ := ofKernel_spec wf hk none rfl
  have hsig : (State.ofKernel (Analysis.ofGrammar g) none #[(⟨0, 0⟩, ∅)]).1.signature = [⟨0, 0⟩] :=
    hsig.trans (by simp [Kernel.signature])
  have hone : ∀ {p}, p < (Worklist.start (Analysis.ofGrammar g)).states.size → p = 0 :=
    fun hp => Nat.lt_one_iff.mp hp
  have hedge : ∀ {p t x}, ¬ (Worklist.start (Analysis.ofGrammar g)).edges p x t := by
    intro p t x he
    obtain rfl := hone (lt_of_edge he)
    have hmem : (x, t) ∈ (State.ofKernel (Analysis.ofGrammar g) none #[(⟨0, 0⟩, ∅)]).1.moves := he
    rw [hmoves] at hmem
    exact Array.not_mem_empty _ hmem
  have hitem : ∀ {γ c}, γ = [] → ((Worklist.start (Analysis.ofGrammar g)).state 0).Has c →
      ItemAt g γ c := by
    rintro γ c rfl hc
    refine itemAt_ofKernel wf hk rfl (fun e he => ?_) hc
    rw [Array.mem_singleton.mp he]
    exact .start
  -- no kernel lookahead is there yet, so what the closure adds is all that needs a reason
  have hjust : ∀ {c t}, ((Worklist.start (Analysis.ofGrammar g)).state 0).Look c t →
      LookaheadAt g [] c t := by
    intro c t hl
    obtain ⟨_, rfl, hat⟩ := justified_of_closed wf hclosed (T := (· = [])) ⟨[], rfl⟩ hitem
      (fun {c t} hkl => by
        obtain ⟨i, -, e, he, -, ht⟩ := (hlook c t).mp hkl
        rw [Array.mem_singleton.mp (Array.mem_of_getElem? he)] at ht
        exact absurd ht (not_mem_empty t)) hl
    exact hat
  exact {
    sound := {
      pos := Nat.one_pos
      explored_le := Nat.zero_le _
      closed := fun hp => hone hp ▸ hclosed
      signed := fun hp => hone hp ▸ signed_ofKernel wf hk none rfl
      start := ⟨hentry, hsig⟩
      distinct := fun hp hq _ _ => (hone hp).trans (hone hq).symm
      moves_edge := id
      edge_explored := fun he => absurd he hedge
      edge_lt := fun he => absurd he hedge
      edge_entry := fun he => absurd he hedge
      edge_nonempty := fun he => absurd he hedge
      edge_cores := fun he => absurd he hedge
      reached := fun hp => hone hp ▸ ⟨[], .nil⟩
      index_size := Array.size_replicate
      index_mem := fun {p x} hp hx => by
        obtain rfl := hone hp
        exact absurd (hentry.symm.trans hx) (by simp)
      justified := fun _ {p t c} hp hl => by
        obtain rfl := hone hp
        exact ⟨[], .nil, hjust hl⟩ }
    grown_lt := fun hq => absurd hq List.not_mem_nil
    moved := fun hq => absurd hq (Nat.not_lt_zero _)
    handedOn := fun _ _ _ _ hq => absurd hq (Nat.not_lt_zero _) }

end Worklist

end Lalr
