/-
  Merging kernels into states that are there.

  When a crossing leads to a known state, its lookaheads are added, and the closure of the state is
  made anew.  Meanwhile the loops that follow crossings go on with kernels that were computed from
  the state as it was, and pass over what they do not find.  Nothing is passed over, and what was
  computed stays right:

    1. A closed state is what closing makes of it (`State.Closed.rebuild_eq`), and with more kernel
       lookaheads every slot has more (`State.Closed.inTable_mono`).
    2. A kernel is merged into a state with its signature, and with all cores of the signature among
       the state's kernel items.  So each entry finds its item, and all but the lookaheads stays as
       it was (`Stage.Inv.merged`).
    3. Which symbols the crossings of a state are over, in which order and to which cores, depends
       on its items alone (`State.map_crossings`).  So the moves of a state and the symbols that are
       still to be followed are the symbols after its dots, in order; this is an invariant of the
       stages (`Stage.InOrder`).  What one stage can do is said once, in `Stage.Changes`.
-/
import Mathlib
import Lalr.Proofs.Collection
import Lalr.Proofs.Stages
import Lalr.Proofs.Terminals

namespace Lalr

open SymbolSet State Worklist

variable {g : Grammar}

/-! ## Closing again

  A state that is closed has the least lookaheads, and so it is what closing makes of its kernel. -/

/-- Tables with the same members are the same. -/
theorem SymbolSet.ext_inTable {sets sets' : Array SymbolSet} (hsize : sets.size = sets'.size)
    (h : ∀ i t, InTable sets i t ↔ InTable sets' i t) : sets = sets' :=
  ext_getD ∅ hsize fun i => SymbolSet.ext (h i)

namespace State

variable {s s' : State}

/-- Closing a closed state again changes nothing. -/
theorem Closed.rebuild_eq (wf : g.WellFormed) (h : Closed g s) :
    (s.rebuild (Analysis.ofGrammar g)).1 = s := by
  obtain ⟨hclosed, hkernel, hsize, hentry, hsig, hmoves, htake⟩ := rebuild_spec wf h.proper rfl
  generalize (s.rebuild (Analysis.ofGrammar g)).1 = s' at *
  have hclosure : s'.closure g = s.closure g := closure_congr hkernel
  have hitems : s'.items = s.items := by rw [hclosed.items_eq, h.items_eq, hclosure]
  have hlooks : s'.lookaheads = s.lookaheads := by
    refine ext_inTable (by rw [hclosed.size_eq, h.size_eq, hclosure]) fun i t => ?_
    rw [hclosed.flow_iff, h.flow_iff, hclosure, hsize, htake]
  cases s
  cases s'
  cases hitems
  cases hsize
  cases hlooks
  cases hentry
  cases hsig
  cases hmoves
  rfl

/-! ## Merging

  More in the kernel means more in every slot, since lookaheads flow from the kernel. -/

/-- More lookaheads of the kernel flow further. -/
theorem Flow.mono {c : Closure} {kernel kernel' : Array SymbolSet}
    (h : ∀ i t, InTable kernel i t → InTable kernel' i t) {i t : Nat}
    (hflow : Flow g c kernel i t) :
    Flow g c kernel' i t := by
  induction hflow with
  | given hin => exact .given (h _ _ hin)
  | first hmem hsend hb => exact .first hmem hsend hb
  | inherit hmem hsend hv _ ih => exact .inherit hmem hsend hv ih

/-- More lookaheads of the kernel mean more in every slot. -/
theorem Closed.inTable_mono (hg : g.IsShort) (h : Closed g s) (h' : Closed g s')
    (hshape : SameShape s s')
    (hkernel : ∀ {c t}, s.KernelLook c t → s'.KernelLook c t) {i t : Nat}
    (hin : InTable s.lookaheads i t) : InTable s'.lookaheads i t := by
  have hkernel_eq := hshape.kernel
  rw [h'.flow_iff, closure_congr hkernel_eq]
  refine Flow.mono (fun j u hj => ?_) ((h.flow_iff i t).mp hin)
  obtain ⟨hlt, hu⟩ := inTable_take.mp hj
  rw [hshape.kernelSize, inTable_take]
  refine ⟨hlt, ?_⟩
  -- the kernel item with this slot has the terminal before, and so it does behind
  obtain ⟨item, hitem⟩ : ∃ item, s.kernel[j]? = some item :=
    ⟨_, Array.getElem?_eq_getElem (by rw [h.proper.kernel_size]; exact hlt)⟩
  have hslot := (h.proper.kernel.slot hitem).1
  obtain ⟨item', hmem', hcore', hu'⟩ := hkernel
    ⟨item, Array.mem_of_getElem? hitem, rfl, show u ∈ s.lookaheads.getD item.slot ∅ from hslot ▸ hu⟩
  rw [hkernel_eq] at hmem'
  have hsame : item' = item :=
    h.proper.kernel.item_eq (hg.core _) hmem' (Array.mem_of_getElem? hitem) hcore'
  rw [hsame] at hu'
  exact hslot ▸ hu'

theorem SameShape.trans {s'' : State} (h : SameShape s s') (h' : SameShape s' s'') :
    SameShape s s'' :=
  ⟨h'.items.trans h.items, h'.kernelSize.trans h.kernelSize, h'.entry.trans h.entry,
    h'.signature.trans h.signature, h'.moves.trans h.moves⟩

/-- What merging a kernel into a state comes to: the kernel has the state's kernel cores, and the
    state is as before but for its lookaheads, which have grown. -/
structure Merged (g : Grammar) (k : Kernel) (s s' : State) : Prop where
  /-- the kernel lists the cores of the state's kernel, maybe in another order -/
  cores : (k.toList.map (·.1)).Perm (s.kernel.toList.map (·.core))
  /-- items, entry, signature and moves are the same -/
  shape : SameShape s s'
  slots : s'.lookaheads.size = s.lookaheads.size
  look_mono : ∀ i, ∀ t ∈ s.lookaheads.getD i ∅, t ∈ s'.lookaheads.getD i ∅
  /-- every entry finds its item, and its lookahead goes there -/
  found : ∀ i e, k[i]? = some e → ∃ item, itemOf? g s.kernel i e.1 = some item ∧
    item ∈ s.kernel ∧ item.core = e.1 ∧ ∀ t ∈ e.2, t ∈ s'.lookahead item

/-! ## What the crossings have in common

  A state gains lookaheads while its crossings are followed.  Their symbols and cores do not
  change by that, as they can be read off the items. -/

/-- The symbols after the dots, in the order in which they first stand there. -/
def nextSymbols (g : Grammar) (s : State) : List Symbol :=
  (s.items.toList.filterMap (·.core.next? g)).eraseDups

/-- The symbols after the dots depend on the items alone. -/
theorem nextSymbols_congr (h : s'.items = s.items) : s'.nextSymbols g = s.nextSymbols g := by
  rw [nextSymbols, nextSymbols, h]

/-- A symbol that has a kernel keeps its place, and a new one comes last. -/
theorem map_fst_addCrossing (out : Array (Symbol × Kernel)) (x : Symbol) (core : Core)
    (look : SymbolSet) : (addCrossing out x core look).toList.map (·.1) =
      if x ∈ out.toList.map (·.1) then out.toList.map (·.1) else out.toList.map (·.1) ++ [x] := by
  unfold addCrossing
  split
  · rename_i i hfound
    obtain ⟨hi, hx, -⟩ := Array.findIdx?_eq_some_iff_getElem.mp hfound
    have hmem : x ∈ out.toList.map (·.1) :=
      List.mem_map.mpr ⟨out[i], Array.mem_toList_iff.mpr (Array.getElem_mem hi), by simpa using hx⟩
    rw [if_pos hmem]
    exact map_fst_modify out i fun _ => rfl
  · rename_i hnone
    have hnot : x ∉ out.toList.map (·.1) := by
      intro hmem
      obtain ⟨e, he, hx⟩ := List.mem_map.mp hmem
      have hne := Array.findIdx?_eq_none_iff.mp hnone e (Array.mem_toList_iff.mp he)
      simp [hx] at hne
    rw [if_neg hnot, Array.toList_push, List.map_append]
    rfl

/-- The crossings of a state are over the symbols after its dots, in their order. -/
theorem map_fst_crossings (g : Grammar) (s : State) :
    (s.crossings g).toList.map (·.1) = s.nextSymbols g := by
  refine s.crossings_induction (P := fun done out =>
    out.toList.map (·.1) = (done.filterMap (·.core.next? g)).eraseDups) g rfl ?skip ?add
  case skip =>
    intro done out item h hnext
    have hone : [item].filterMap (·.core.next? g) = [] := List.filterMap_cons_none hnext
    rw [List.filterMap_append, hone, List.append_nil, h]
  case add =>
    intro done out item x h hnext
    have hone : [item].filterMap (·.core.next? g) = [x] := List.filterMap_cons_some hnext
    rw [List.filterMap_append, hone, eraseDups_concat, map_fst_addCrossing, h]
    simp only [List.mem_eraseDups]

/-- The kernel of a crossing has the cores that are moved over its symbol, in their order. -/
theorem map_fst_kernel {x : Symbol} {k : Kernel} (hmem : (x, k) ∈ s.crossings g) :
    k.toList.map (·.1) = s.crossedCores g x := by
  rw [(crossings_spec g s).kernel_eq hmem, crossed, List.map_map]
  rfl

/-- The symbols and cores of the crossings depend on the items alone. -/
theorem map_crossings (g : Grammar) (s : State) :
    (s.crossings g).toList.map (fun e => (e.1, e.2.toList.map (·.1))) =
      (s.nextSymbols g).map fun x => (x, s.crossedCores g x) := by
  rw [← map_fst_crossings, List.map_map]
  refine List.map_congr_left fun e he => Prod.ext rfl ?_
  exact map_fst_kernel (Array.mem_toList_iff.mp he)

end State

/-! ## Merges

  In a merge the kernel is compared with the state's kernel, core by core.  Both are what the
  signature lists, in orders that may differ. -/

/-- A kernel with the cores of the state's signature has those of its kernel. -/
theorem Worklist.Sound.perm_cores {E : Edges} {w : Worklist} (h : Sound g E w) (hg : g.IsShort)
    (hocc : ∀ x, g.occurrences x ≤ 65535) {t : Nat} (ht : t < w.states.size) {k : Kernel}
    (hnodup : (k.toList.map (·.1)).Nodup)
    (hsig : ∀ c, c ∈ (w.state t).signature ↔ ∃ e ∈ k, e.1 = c) :
    (k.toList.map (·.1)).Perm ((w.state t).kernel.toList.map (·.core)) := by
  refine (List.perm_ext_iff_of_nodup hnodup
    ((h.closed ht).proper.kernel.distinct.nodup hg)).mpr fun c => ?_
  have hkernel : c ∈ (w.state t).kernel.toList.map (·.core) ↔ (w.state t).KernelHas c := by
    simp [State.KernelHas, HasCore]
  rw [hkernel, h.kernelHas_iff hg hocc ht, hsig]
  simp

namespace Stage

variable {s s' : Stage}

/-- The crossing that is followed next leads to state `t`, which is there already: the kernel is to
    be merged into it. -/
inductive Merges (a : Analysis) (s : Stage) (x : Symbol) (k : Kernel) (t : Nat) : Prop
  | enter {left : List (Symbol × Kernel)} (hleft : s.left = (x, k) :: left)
      (hagain : s.again = false) (hfound : s.work.lookup? a x k = some t)
  | handOn {left : List (Symbol × Kernel)} {y : Symbol} (hleft : s.left = (x, k) :: left)
      (hagain : s.again = true)
      (hfound : (s.work.state s.origin).moves.find? (·.1 == x) = some (y, t))

/-- What a merge does to the work. -/
theorem Merges.next {a : Analysis} {x : Symbol} {k : Kernel} {t : Nat} (h : s.Merges a x k t) :
    ∃ s', s.next a = some s' ∧ s'.work = if s.again then s.work.enrich a t k
      else (s.work.enrich a t k).addMove s.origin x t := by
  cases h with
  | enter hleft hagain hfound => exact ⟨_, next_enter hleft hagain hfound, by rw [hagain]; rfl⟩
  | handOn hleft hagain hfound => exact ⟨_, next_handOn hleft hagain hfound, by rw [hagain]; rfl⟩

/-- What is merged is the crossing that is next. -/
theorem Merges.exists_left {a : Analysis} {x : Symbol} {k : Kernel} {t : Nat}
    (h : s.Merges a x k t) :
    ∃ left, s.left = (x, k) :: left := by
  cases h with
  | enter hleft => exact ⟨_, hleft⟩
  | handOn hleft => exact ⟨_, hleft⟩

/-- When lookaheads are handed on, every crossing has its move. -/
theorem Inv.exists_merges (h : s.Inv g) {x : Symbol} {k : Kernel} {left : List (Symbol × Kernel)}
    (hleft : s.left = (x, k) :: left) (hagain : s.again = true) :
    ∃ t, s.Merges (Analysis.ofGrammar g) x k t := by
  rcases h with ⟨hnil, -⟩ | ⟨w₀, done, h⟩
  · rw [hleft] at hnil
    exact absurd hnil (by simp)
  · obtain ⟨u, hu⟩ := h.exists_move hagain (hleft ▸ List.mem_cons_self)
    have hmove : (x, u) ∈ (s.work.state s.origin).moves := hu
    cases hfind : (s.work.state s.origin).moves.find? (·.1 == x) with
    | none =>
      have hne := Array.find?_eq_none.mp hfind (x, u) hmove
      simp at hne
    | some m => exact ⟨m.2, .handOn hleft hagain hfind⟩

section

variable (wf : g.WellFormed) (h : s.Inv g)
include wf h

/-- The state that a kernel is merged into has the kernel's signature. -/
theorem Inv.mem_signature {x : Symbol} {k : Kernel} {t : Nat}
    (hm : s.Merges (Analysis.ofGrammar g) x k t) :
    t < s.work.states.size ∧ ∀ c, c ∈ (s.work.state t).signature ↔ ∃ e ∈ k, e.1 = c := by
  cases hm with
  | enter hleft hagain hfound =>
    obtain ⟨hlt, -, hsig⟩ := lookup?_eq_some hfound
    refine ⟨hlt, fun c => ?_⟩
    rw [hsig]
    exact Worklist.mem_signature
  | @handOn left y hleft hagain hfound =>
    have hy : y = x := by simpa using Array.find?_some hfound
    have hedge : s.work.edges s.origin x t := hy ▸ Array.mem_of_find?_eq_some hfound
    refine ⟨h.sound.edge_lt hedge, fun c => ?_⟩
    exact (h.sound.edge_signature hedge).trans (h.isCrossing wf hleft).2.mem_iff.symm

/-- The kernel that is merged has the cores of the state's kernel. -/
theorem Inv.perm_cores (hg : g.IsShort) (hocc : ∀ x, g.occurrences x ≤ 65535) {x : Symbol}
    {k : Kernel} {t : Nat} (hm : s.Merges (Analysis.ofGrammar g) x k t) :
    (k.toList.map (·.1)).Perm ((s.work.state t).kernel.toList.map (·.core)) := by
  obtain ⟨left, hleft⟩ := hm.exists_left
  obtain ⟨ht, hsig⟩ := h.mem_signature wf hm
  exact h.sound.perm_cores hg hocc ht ((h.kernel_sound wf hleft).distinct.nodup hg) hsig

/-- A merge changes nothing of the state but its lookaheads, and these grow. -/
theorem Inv.merged (hg : g.IsShort) (hocc : ∀ x, g.occurrences x ≤ 65535) {x : Symbol}
    {k : Kernel} {t : Nat} (hm : s.Merges (Analysis.ofGrammar g) x k t) :
    Merged g k (s.work.state t) ((s.work.enrich (Analysis.ofGrammar g) t k).state t) := by
  obtain ⟨left, hleft⟩ := hm.exists_left
  obtain ⟨ht, -⟩ := h.mem_signature wf hm
  have hclosed := h.sound.closed ht
  have hen := enrich_spec wf s.work ht hclosed (h.kernel_sound wf hleft).look_lt
  have hperm := h.perm_cores wf hg hocc hm
  refine ⟨hperm, hen.shape, ?_, fun i u hu => ?_, fun i e he => ?_⟩
  · rw [hen.closed.size_eq, hclosed.size_eq, closure_congr hen.shape.kernel]
  · exact hclosed.inTable_mono hg hen.closed hen.shape (fun hk => hen.kernelLook.mpr (Or.inl hk)) hu
  · have hcore : e.1 ∈ (s.work.state t).kernel.toList.map (·.core) :=
      hperm.mem_iff.mp (List.mem_map_of_mem (Array.mem_toList_iff.mpr (Array.mem_of_getElem? he)))
    obtain ⟨item, hitem, hsame⟩ := List.mem_map.mp hcore
    have hhas : (s.work.state t).KernelHas e.1 := ⟨item, Array.mem_toList_iff.mp hitem, hsame⟩
    cases hfound : itemOf? g (s.work.state t).kernel i e.1 with
    | none => exact absurd hhas (itemOf?_eq_none hfound)
    | some item' =>
      obtain ⟨hmem', hcore'⟩ := itemOf?_eq_some hfound
      refine ⟨item', rfl, hmem', hcore', fun u hu => ?_⟩
      -- in a kernel the core tells which item it is
      obtain ⟨item'', hmem'', hcore'', hlook⟩ := hen.kernelLook.mpr
        (Or.inr ⟨hhas, e, Array.mem_of_getElem? he, rfl, hu⟩)
      rw [hen.shape.kernel] at hmem''
      have heq : item'' = item' :=
        hclosed.proper.kernel.item_eq (hg.core _) hmem'' hmem' (hcore''.trans hcore'.symm)
      exact heq ▸ hlook

end

/-! ## From one stage to the next

  The same four kinds of change come up in all proofs about stages, so they are told apart once. -/

/-- The states that are there are the same but for their lookaheads, and new ones have no moves. -/
structure Extends (w w' : Worklist) : Prop where
  explored : w'.explored = w.explored
  size_le : w.states.size ≤ w'.states.size
  shape : ∀ p < w.states.size, SameShape (w.state p) (w'.state p)
  fresh : ∀ p, w.states.size ≤ p → (w'.state p).moves = #[]

/-- Adding lookaheads leaves the states in their places. -/
theorem extends_of_enriched {w w' : Worklist} {t : Nat} {k : Kernel} (h : Enriched g w t k w') :
    Extends w w' where
  explored := h.explored
  size_le := h.size.ge
  shape p _ := by
    by_cases hp : p = t
    · exact hp ▸ h.shape
    · rw [h.other hp]
      exact .refl _
  fresh p hp := moves_of_size_le (h.size.symm ▸ hp)

/-- A new state comes behind the others. -/
theorem extends_addState (a : Analysis) (w : Worklist) (x : Symbol) (k : Kernel) :
    Extends w (w.addState a x k) := by
  obtain ⟨hsize, hother, hself⟩ := addState_spec a w x k
  refine ⟨rfl, by omega, fun p hp => ?_, fun p hp => ?_⟩
  · rw [hother p (Nat.ne_of_lt hp)]
    exact .refl _
  · rcases Nat.eq_or_lt_of_le hp with rfl | hp
    · rw [hself]
      rfl
    · exact moves_of_size_le (by omega)

/-- How a stage becomes the next one: a piece of work begins, or a crossing is followed, the first
    time with a move that is noted in the end. -/
inductive Changes (g : Grammar) (s : Stage) : Stage → Prop
  | explore (hleft : s.left = []) :
      Changes g s {
        work := { s.work with explored := s.work.explored + 1 }
        again := false
        origin := s.work.explored
        left := ((s.work.state s.work.explored).crossings g).toList }
  | handOn (hleft : s.left = []) (p : Nat) (others : List Nat) :
      Changes g s {
        work := { s.work with grown := others }
        again := true
        origin := p
        left := ((s.work.state p).crossings g).toList }
  | first {x : Symbol} {k : Kernel} {left : List (Symbol × Kernel)} (w : Worklist) (t : Nat)
      (hleft : s.left = (x, k) :: left) (hagain : s.again = false)
      (horigin : s.origin < s.work.explored) (hw : Extends s.work w) :
      Changes g s { s with work := w.addMove s.origin x t, left }
  | again {x : Symbol} {k : Kernel} {left : List (Symbol × Kernel)} (w : Worklist)
      (hleft : s.left = (x, k) :: left) (hagain : s.again = true) (hw : Extends s.work w)
      (hsize : w.states.size = s.work.states.size) :
      Changes g s { s with work := w, left }

/-- What one stage changes, in all cases. -/
theorem Inv.changes (wf : g.WellFormed) (h : s.Inv g)
    (hnext : s.next (Analysis.ofGrammar g) = some s') : s.Changes g s' := by
  cases hleft : s.left with
  | nil =>
    rw [Stage.next, hleft] at hnext
    dsimp only at hnext
    unfold begin? at hnext
    split at hnext
    · injection hnext with hnext
      exact hnext ▸ .explore hleft
    · split at hnext
      · injection hnext with hnext
        exact hnext ▸ .handOn hleft _ _
      · exact absurd hnext (by simp)
  | cons crossing left =>
    obtain ⟨x, k⟩ := crossing
    -- wherever the kernel is merged, it is absorbed by a state that is there
    have hen : ∀ t < s.work.states.size, Enriched g s.work t k
        (s.work.enrich (Analysis.ofGrammar g) t k) := fun t ht =>
      enrich_spec wf s.work ht (h.sound.closed ht) (h.kernel_sound wf hleft).look_lt
    cases hagain : s.again with
    | true =>
      obtain ⟨t, hm⟩ := h.exists_merges hleft hagain
      have hen := hen t (h.mem_signature wf hm).1
      cases hm with
      | enter _ hfirst => exact absurd (hfirst.symm.trans hagain) (by decide)
      | handOn _ _ hfound =>
        obtain rfl := Option.some.inj ((next_handOn hleft hagain hfound).symm.trans hnext)
        exact .again _ hleft hagain (extends_of_enriched hen) hen.size
    | false =>
      have horigin := (h.isCrossing wf hleft).1
      cases hfound : s.work.lookup? (Analysis.ofGrammar g) x k with
      | some t =>
        obtain rfl := Option.some.inj ((next_enter hleft hagain hfound).symm.trans hnext)
        exact .first _ t hleft hagain horigin
          (extends_of_enriched (hen t (lookup?_eq_some hfound).1))
      | none =>
        obtain rfl := Option.some.inj ((next_make hleft hagain hfound).symm.trans hnext)
        exact .first _ _ hleft hagain horigin (extends_addState _ _ _ _)

/-- The stage so many steps later, if the work goes on for so long. -/
def after (a : Analysis) : Nat → Stage → Option Stage
  | 0, s => some s
  | n + 1, s => (s.next a).bind (after a n)

/-- Stages are counted from the first. -/
theorem reaches_of_after {a : Analysis} {n : Nat} (h : after a n s = some s') : Reaches a s s' := by
  induction n generalizing s with
  | zero =>
    obtain rfl : s = s' := Option.some.inj h
    exact .refl
  | succ n ih =>
    obtain ⟨middle, hnext, hrest⟩ := Option.bind_eq_some_iff.mp h
    exact .head hnext (ih hrest)

/-! ## Moves and crossings

  Moves are noted in the order in which crossings are followed.  The moves of a state and the
  crossings that are pending make one list, of which each crossing that is followed moves the
  border. -/

/-- The symbols that are still to be followed for the first time from state `p`. -/
def pending (g : Grammar) (s : Stage) (p : Nat) : List Symbol :=
  if s.work.explored ≤ p then (s.work.state p).nextSymbols g
  else if s.again = false ∧ s.origin = p then s.left.map (·.1) else []

/-- The moves of every state are over the symbols after its dots, in their order, as far as they are
    followed. -/
def InOrder (g : Grammar) (s : Stage) : Prop :=
  ∀ p < s.work.states.size,
    (s.work.state p).moves.toList.map (·.1) ++ s.pending g p = (s.work.state p).nextSymbols g

/-- All crossings of the state were followed. -/
def Expanded (s : Stage) (p : Nat) : Prop :=
  p < s.work.explored ∧ (s.again = false → s.origin = p → s.left = [])

section

variable {p : Nat}

/-- Of the state that is being expanded, the crossings that are left are still to be followed. -/
theorem pending_origin (hagain : s.again = false) (horigin : s.origin < s.work.explored) :
    s.pending g s.origin = s.left.map (·.1) := by
  rw [pending, if_neg (Nat.not_le.mpr horigin), if_pos ⟨hagain, rfl⟩]

/-- Of another state all are, or none. -/
theorem pending_of_other (hother : s.again = false → s.origin = p → s.left = []) :
    s.pending g p = if s.work.explored ≤ p then (s.work.state p).nextSymbols g else [] := by
  rw [pending]
  split
  · rfl
  · split
    · rename_i hunder
      rw [hother hunder.1 hunder.2]
      rfl
    · rfl

/-- Of an expanded state none are. -/
theorem Expanded.pending (h : s.Expanded p) : s.pending g p = [] := by
  rw [pending_of_other h.2, if_neg (Nat.not_le.mpr h.1)]

end

/-- In the first stage nothing has been followed yet. -/
theorem InOrder.start (g : Grammar) : (Stage.start (Analysis.ofGrammar g)).InOrder g := by
  intro p hp
  obtain rfl : p = 0 := Nat.lt_one_iff.mp hp
  rfl

/-- The states that nothing is followed from for the first time stay in order. -/
theorem InOrder.of_shape {p : Nat} (h : s.InOrder g) (hp : p < s.work.states.size)
    (hshape : SameShape (s.work.state p) (s'.work.state p))
    (hexplored : s.work.explored ≤ p ↔ s'.work.explored ≤ p)
    (hother : s.again = false → s.origin = p → s.left = [])
    (hother' : s'.again = false → s'.origin = p → s'.left = []) :
    (s'.work.state p).moves.toList.map (·.1) ++ s'.pending g p =
      (s'.work.state p).nextSymbols g := by
  have horder := h p hp
  rw [pending_of_other hother] at horder
  rw [pending_of_other hother', hshape.moves, nextSymbols_congr hshape.items]
  exact (congrArg _ (if_congr hexplored.symm rfl rfl)).trans horder

/-- Starting with a state follows nothing. -/
theorem InOrder.explore (h : s.InOrder g) (hleft : s.left = []) : InOrder g {
    work := { s.work with explored := s.work.explored + 1 }
    again := false
    origin := s.work.explored
    left := ((s.work.state s.work.explored).crossings g).toList } := by
  intro p hp
  by_cases horigin : s.work.explored = p
  · subst horigin
    have horder := h s.work.explored hp
    rw [pending_of_other fun _ _ => hleft, if_pos (Nat.le_refl _)] at horder
    rw [pending_origin rfl (Nat.lt_succ_self _), map_fst_crossings]
    exact horder
  · refine h.of_shape hp (.refl _) (Nat.lt_iff_le_and_ne.trans ?_).symm (fun _ _ => hleft)
      fun _ heq => absurd heq horigin
    exact and_iff_left horigin

/-- A move is noted for the first crossing that was left. -/
theorem InOrder.first (h : s.InOrder g) {x : Symbol} {k : Kernel} {left : List (Symbol × Kernel)}
    {w : Worklist} (t : Nat) (hleft : s.left = (x, k) :: left) (hagain : s.again = false)
    (horigin : s.origin < s.work.explored) (hle : s.work.explored ≤ s.work.states.size)
    (hw : Extends s.work w) : InOrder g { s with work := w.addMove s.origin x t, left } := by
  let later : Stage := { s with work := w.addMove s.origin x t, left }
  have hin : s.origin < s.work.states.size := Nat.lt_of_lt_of_le horigin hle
  have hstate : ∀ p, later.work.state p = _ :=
    state_addMove w (Nat.lt_of_lt_of_le hin hw.size_le) x t
  intro p hp
  show (later.work.state p).moves.toList.map (·.1) ++ later.pending g p =
    (later.work.state p).nextSymbols g
  by_cases heq : s.origin = p
  · subst heq
    have hshape := hw.shape _ hin
    have horder := h _ hin
    rw [pending_origin hagain horigin, hleft] at horder
    -- one crossing less is left at the state that is followed, and one move more is there
    have hpending : later.pending g s.origin = left.map (·.1) :=
      pending_origin (s := later) hagain (lt_of_lt_of_eq horigin hw.explored.symm)
    have hitems : (later.work.state s.origin).items = (s.work.state s.origin).items := by
      rw [hstate, if_pos rfl]
      exact hshape.items
    have hmoves : (later.work.state s.origin).moves =
      (s.work.state s.origin).moves.push (x, t) := by
      rw [hstate, if_pos rfl, ← hshape.moves]
    rw [hpending, hmoves, nextSymbols_congr hitems, Array.toList_push, List.map_append,
      List.append_assoc]
    exact horder
  · have hsame : later.work.state p = w.state p := by rw [hstate, if_neg heq]
    rcases Nat.lt_or_ge p s.work.states.size with hold | hnew
    · refine h.of_shape hold (hsame ▸ hw.shape p hold) ?_ (fun _ he => absurd he heq)
        fun _ he => absurd he heq
      exact (iff_of_eq (congrArg (· ≤ p) hw.explored)).symm
    · -- a state that was made just now is not explored and has no moves
      have hunexplored : later.work.explored ≤ p := hw.explored ▸ hle.trans hnew
      rw [pending, if_pos hunexplored, hsame, hw.fresh p hnew]
      rfl

/-- One stage after the other keeps moves and crossings in order. -/
theorem InOrder.next (h : s.InOrder g) (hle : s.work.explored ≤ s.work.states.size)
    (hf : s.Changes g s') : s'.InOrder g := by
  cases hf with
  | explore hleft => exact h.explore hleft
  | handOn hleft q others =>
    exact fun p hp => h.of_shape hp (.refl _) Iff.rfl (fun _ _ => hleft) fun hagain =>
      by simp at hagain
  | first w t hleft hagain horigin hw => exact h.first t hleft hagain horigin hle hw
  | again w hleft hagain hw hsize =>
    intro p hp
    have hfirst : ∀ {P : Prop}, s.again = false → P := fun hfirst =>
      absurd (hagain.symm.trans hfirst) (by decide)
    exact h.of_shape (hsize ▸ hp) (hw.shape p (hsize ▸ hp))
      (iff_of_eq (congrArg (· ≤ p) hw.explored)).symm (fun he => hfirst he) fun he => hfirst he

/-- So in every stage the moves and the pending symbols are the crossings of the items, in their
    order. -/
theorem InOrder.reaches (wf : g.WellFormed)
    (hreach : Reaches (Analysis.ofGrammar g) (Stage.start (Analysis.ofGrammar g)) s) :
    s.InOrder g := by
  induction hreach with
  | refl => exact .start g
  | tail hreach hnext ih =>
    have hinv := (Inv.start wf).reaches wf hreach
    exact ih.next hinv.sound.explored_le (hinv.changes wf hnext)

/-- A state stays expanded, and is the same from then on but for its lookaheads. -/
theorem Expanded.next {p : Nat} (h : s.Expanded p) (hle : s.work.explored ≤ s.work.states.size)
    (hf : s.Changes g s') : s'.Expanded p ∧ SameShape (s.work.state p) (s'.work.state p) := by
  have hp := Nat.lt_of_lt_of_le h.1 hle
  cases hf with
  | explore hleft =>
    exact ⟨⟨Nat.lt_succ_of_lt h.1, fun _ heq => absurd h.1 (Nat.not_lt.mpr (Nat.le_of_eq heq))⟩,
      .refl _⟩
  | handOn hleft q others => exact ⟨⟨h.1, fun hagain => by simp at hagain⟩, .refl _⟩
  | @first x k left w t hleft hagain horigin hw =>
    -- the state that is followed still has a crossing left, and `p` has none
    have hne : s.origin ≠ p := by
      intro heq
      have hnil := h.2 hagain heq
      rw [hleft] at hnil
      exact absurd hnil (by simp)
    have hlt := Nat.lt_of_lt_of_le (Nat.lt_of_lt_of_le horigin hle) hw.size_le
    refine ⟨⟨lt_of_lt_of_eq h.1 hw.explored.symm, fun _ heq => absurd heq hne⟩, ?_⟩
    have hsame : (w.addMove s.origin x t).state p = w.state p := by
      rw [state_addMove w hlt, if_neg hne]
    exact hsame ▸ hw.shape p hp
  | again w hleft hagain hw hsize =>
    refine ⟨⟨lt_of_lt_of_eq h.1 hw.explored.symm, fun hfirst => ?_⟩, hw.shape p hp⟩
    exact absurd (hagain.symm.trans hfirst) (by decide)

/-- A state that was expanded stays so, and keeps its shape. -/
theorem Expanded.reaches (wf : g.WellFormed) (hs : s.Inv g) {p : Nat} (h : s.Expanded p)
    (hreach : Reaches (Analysis.ofGrammar g) s s') :
    s'.Expanded p ∧ SameShape (s.work.state p) (s'.work.state p) := by
  induction hreach with
  | refl => exact ⟨h, .refl _⟩
  | tail hreach hnext ih =>
    have hinv := hs.reaches wf hreach
    obtain ⟨hlater, hshape⟩ := ih.1.next hinv.sound.explored_le (hinv.changes wf hnext)
    exact ⟨hlater, ih.2.trans hshape⟩

/-- From an expanded state the crossings and the moves lead, one by one, over the same symbol, and
    to the same cores. -/
theorem Inv.crossings_moves (wf : g.WellFormed) (hg : g.IsShort) (h : s.Inv g)
    (horder : s.InOrder g) (hocc : ∀ x, g.occurrences x ≤ 65535) {p : Nat} (hp : s.Expanded p) :
    List.Forall₂ (fun (e : Symbol × Kernel) (m : Symbol × Nat) => e.1 = m.1 ∧
        (e.2.toList.map (·.1)).Perm ((s.work.state m.2).kernel.toList.map (·.core)))
      ((s.work.state p).crossings g).toList (s.work.state p).moves.toList := by
  have hlt := Nat.lt_of_lt_of_le hp.1 h.sound.explored_le
  -- all crossings have been followed, in their order: the symbols agree one by one
  have hsymbols : ((s.work.state p).crossings g).toList.map (·.1) =
      (s.work.state p).moves.toList.map (·.1) := by
    have hall := horder p hlt
    rw [hp.pending, List.append_nil] at hall
    rw [map_fst_crossings, hall]
  refine List.forall₂_iff_get.mpr ⟨by simpa using congrArg List.length hsymbols, fun i hi hi' => ?_⟩
  -- so what stands at one place of the two lists has one symbol
  have hsame : (((s.work.state p).crossings g).toList.get ⟨i, hi⟩).1 =
      ((s.work.state p).moves.toList.get ⟨i, hi'⟩).1 := by
    have hget := congrArg (·[i]?) hsymbols
    rw [List.getElem?_map, List.getElem?_map, List.getElem?_eq_getElem hi,
      List.getElem?_eq_getElem hi'] at hget
    exact Option.some.inj hget
  refine ⟨hsame, ?_⟩
  have hcrossing := Array.mem_toList_iff.mp (List.get_mem _ ⟨i, hi⟩)
  have hmove := Array.mem_toList_iff.mp (List.get_mem _ ⟨i, hi'⟩)
  generalize ((s.work.state p).crossings g).toList.get ⟨i, hi⟩ = e at hsame hcrossing
  generalize (s.work.state p).moves.toList.get ⟨i, hi'⟩ = m at hsame hmove
  obtain ⟨x, k⟩ := e
  obtain ⟨y, t⟩ := m
  obtain rfl : x = y := hsame
  have hedge : s.work.edges p x t := hmove
  have hcross := (mem_crossings hcrossing).1
  -- no core comes twice, and the cores are those that the target is known by
  have hsound := crossing_sound wf (h.sound.closed hlt) hcross
  exact h.sound.perm_cores hg hocc (h.sound.edge_lt hedge) (hsound.distinct.nodup hg) fun c =>
    (h.sound.edge_signature hedge).trans hcross.mem_iff.symm

end Stage

/-! ## The work on a construction -/

namespace Construction

variable {d : Declarations} {settings : Settings} {c : Construction}

/-- In every stage of the work, if all rules are short and no symbol occurs more than 65535 times on
    right sides:

      1. a kernel that is merged into a state has its kernel cores, each entry finds its item, and
         the state stays the same but for its lookaheads, which grow;
      2. what is handed on over a crossing finds its move, and is merged;
      3. the crossings of a state that was expanded are those of its moves one by one, and in all
         later stages they have the same symbols and cores;
      4. closing a state again changes nothing. -/
theorem merges_stable (h : d.build settings = .ok c) (hshort : c.grammar.IsShort)
    (hocc : ∀ x, c.grammar.occurrences x ≤ 65535) {s : Stage}
    (hs : Stage.Reaches c.analysis (Stage.start c.analysis) s) :
    (∀ x k t, s.Merges c.analysis x k t → t < s.work.states.size ∧
      Merged c.grammar k (s.work.state t) ((s.work.enrich c.analysis t k).state t) ∧
      ∃ s', s.next c.analysis = some s' ∧
        s'.work = if s.again then s.work.enrich c.analysis t k
          else (s.work.enrich c.analysis t k).addMove s.origin x t) ∧
    (∀ x k left, s.left = (x, k) :: left → s.again = true →
      ∃ t, s.Merges c.analysis x k t) ∧
    (∀ p, s.Expanded p →
      List.Forall₂ (fun (e : Symbol × Kernel) (m : Symbol × Nat) => e.1 = m.1 ∧
          (e.2.toList.map (·.1)).Perm ((s.work.state m.2).kernel.toList.map (·.core)))
        ((s.work.state p).crossings c.grammar).toList (s.work.state p).moves.toList ∧
      ∀ s', Stage.Reaches c.analysis s s' → s'.Expanded p ∧
        SameShape (s.work.state p) (s'.work.state p) ∧
        ((s'.work.state p).crossings c.grammar).toList.map (fun e => (e.1, e.2.toList.map (·.1))) =
          ((s.work.state p).crossings c.grammar).toList.map
            (fun e => (e.1, e.2.toList.map (·.1)))) ∧
    ∀ p < s.work.states.size, ((s.work.state p).rebuild c.analysis).1 = s.work.state p := by
  have wf := wellFormed h
  rw [analysis_eq h] at hs ⊢
  have hinv := (Stage.Inv.start wf).reaches wf hs
  refine ⟨fun x k t hm => ⟨(hinv.mem_signature wf hm).1, hinv.merged wf hshort hocc hm, hm.next⟩,
    fun x k left hleft hagain => hinv.exists_merges hleft hagain,
    fun p hp => ⟨hinv.crossings_moves wf hshort (.reaches wf hs) hocc hp, fun s' hreach => ?_⟩,
    fun p hp => (hinv.sound.closed hp).rebuild_eq wf⟩
  obtain ⟨hlater, hshape⟩ := hp.reaches wf hinv hreach
  refine ⟨hlater, hshape, ?_⟩
  rw [map_crossings, map_crossings, nextSymbols_congr hshape.items]
  simp only [crossedCores, hshape.items]

/-- `S : 'a' A 'b'`, `S : 'c' A 'd'` and `A : 'x'`. -/
def wrapped : Declarations where
  rules := #[⟨"S", ["'a'", "A", "'b'"], none, none⟩, ⟨"S", ["'c'", "A", "'d'"], none, none⟩,
    ⟨"A", ["'x'"], none, none⟩]

/-- The grammar that they declare. -/
def wrappedGrammar : Grammar where
  alphabet :=
    { terminals := #[⟨"$end", 0, none⟩, ⟨"'a'", 97, none⟩, ⟨"'b'", 98, none⟩, ⟨"'c'", 99, none⟩,
        ⟨"'d'", 100, none⟩, ⟨"'x'", 120, none⟩]
      nonterminals := #["$start", "S", "A"] }
  rules := #[⟨0, [.nonterminal 1, .terminal 0], none, none⟩,
    ⟨1, [.terminal 1, .nonterminal 2, .terminal 2], none, none⟩,
    ⟨1, [.terminal 3, .nonterminal 2, .terminal 4], none, none⟩, ⟨2, [.terminal 5], none, none⟩]

/-- The rules of the wrapped `A` are short. -/
theorem wrapped_isShort : wrappedGrammar.IsShort :=
  Grammar.isShort_iff.mpr (by decide)

/-- Its right sides are, too, so no symbol occurs too often. -/
theorem wrapped_occurrences_le (x : Symbol) : wrappedGrammar.occurrences x ≤ 65535 :=
  (wrappedGrammar.occurrences_le x).trans (by decide)

set_option maxRecDepth 100000 in
/-- What comes of them.  After 11 stages the crossing of `'x'` from state 3 is left.  It leads to
    state 6, which knows only the `'b'` of the other rule. -/
theorem wrapped_run : (ofGrammar {} wrappedGrammar).succeeds = true ∧
    (Stage.after (Analysis.ofGrammar wrappedGrammar) 11
      (Stage.start (Analysis.ofGrammar wrappedGrammar))).map (fun s =>
        (s.left, s.again, s.origin, s.work.explored,
          s.work.lookup? (Analysis.ofGrammar wrappedGrammar) (.terminal 5) #[(⟨3, 1⟩, ⟨16⟩)],
          (s.work.state 6).lookaheads)) =
      some ([(.terminal 5, #[(⟨3, 1⟩, ⟨16⟩)])], false, 3, 4, some 6, #[⟨4⟩]) := by cbv

/-- A table for the wrapped `A` is built. -/
theorem wrapped_build : wrapped.build = .ok (ofGrammar {} wrappedGrammar) :=
  Declarations.build_of_succeeds (by cbv) wrapped_run.1

/-- The theorem for the wrapped `A`: the kernel behind `'c' 'x'` is merged into the state behind
    `'a' 'x'`, and adds `'d'`; state 2, behind `'a'`, is expanded by then. -/
theorem merges_stable_wrapped : ∃ c s k, wrapped.build = .ok c ∧ c.grammar.IsShort ∧
    (∀ x, c.grammar.occurrences x ≤ 65535) ∧
    Stage.Reaches c.analysis (Stage.start c.analysis) s ∧
    s.Merges c.analysis (.terminal 5) k 6 ∧
    Merged c.grammar k (s.work.state 6) ((s.work.enrich c.analysis 6 k).state 6) ∧
    4 ∉ (s.work.state 6).lookaheads.getD 0 ∅ ∧
    (∃ item ∈ (s.work.state 6).kernel, item.core = ⟨3, 1⟩ ∧
      4 ∈ ((s.work.enrich c.analysis 6 k).state 6).lookahead item) ∧
    s.Expanded 2 ∧ ((s.work.state 2).crossings c.grammar).toList.map (·.1) =
      (s.work.state 2).moves.toList.map (·.1) := by
  have hafter := wrapped_run.2
  obtain ⟨s, hs, hstage⟩ := Option.map_eq_some_iff.mp hafter
  simp only [Prod.mk.injEq] at hstage
  obtain ⟨hleft, hagain, horigin, hexplored, hfound, hlooks⟩ := hstage
  have hreach := Stage.reaches_of_after hs
  have hm : s.Merges (Analysis.ofGrammar wrappedGrammar) (.terminal 5) #[(⟨3, 1⟩, ⟨16⟩)] 6 :=
    .enter hleft hagain hfound
  have hexpanded : s.Expanded 2 :=
    ⟨by rw [hexplored]; decide, fun _ heq => absurd (horigin.symm.trans heq) (by decide)⟩
  obtain ⟨hmerge, -, hmoves, -⟩ :=
    merges_stable wrapped_build wrapped_isShort wrapped_occurrences_le hreach
  have hmerged := (hmerge _ _ _ hm).2.1
  obtain ⟨item, -, hmem, hcore, hlook⟩ := hmerged.found 0 _ rfl
  refine ⟨_, s, _, wrapped_build, wrapped_isShort, wrapped_occurrences_le, hreach, hm, hmerged, ?_,
    ⟨item, hmem, hcore, hlook 4 (by decide)⟩, hexpanded, ?_⟩
  · rw [hlooks]
    decide
  · have hpairs := (hmoves 2 hexpanded).1
    rw [← List.forall₂_eq_eq_eq, List.forall₂_map_left_iff, List.forall₂_map_right_iff]
    exact hpairs.imp fun _ _ h => h.1

end Construction

end Lalr
