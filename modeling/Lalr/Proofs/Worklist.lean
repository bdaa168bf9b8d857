/-
  What the work on the automaton keeps.

  `Worklist.Sound` is the invariant: every state is closed and made from its signature, no two
  states have the same signature and entry, every edge leads where it should and every state is
  reached. Where all rules are short, every lookahead is justified by a string that leads to its
  state; in a longer rule the dot is not always where such a string would put it.

  A new state exists, and a known state is enriched, before the move that leads there is noted.  So
  the invariant speaks of a set of edges `E` of which the noted moves are a part; an edge is
  promised first (`addState`, `promise`), then its target is enriched (`enrich`), then it is noted
  (`addMove`).
-/
import Mathlib
import Lalr.Automaton
import Lalr.Proofs.Canonical
import Lalr.Proofs.Crossing

namespace Lalr

open SymbolSet State

variable {g : Grammar}

/-! ## Signatures

  Sorting makes a list out of a set of cores, in one way only. -/

/-- Cores are ordered by rule, then by dot. -/
theorem Core.le_iff {c d : Core} :
    c.le d = true ↔ c.rule < d.rule ∨ (c.rule = d.rule ∧ c.dot ≤ d.dot) := by
  simp [Core.le]

/-- Lists of different cores with the same members are sorted into one list. -/
theorem Core.mergeSort_eq {l m : List Core} (hl : l.Nodup) (hm : m.Nodup)
    (h : ∀ c, c ∈ l ↔ c ∈ m) : l.mergeSort Core.le = m.mergeSort Core.le := by
  have htrans : ∀ a b c : Core, a.le b = true → b.le c = true → a.le c = true := by
    intro a b c
    rw [Core.le_iff, Core.le_iff, Core.le_iff]
    omega
  have htotal : ∀ a b : Core, (a.le b || b.le a) = true := by
    intro a b
    rw [Bool.or_eq_true_iff, Core.le_iff, Core.le_iff]
    omega
  refine List.Perm.eq_of_pairwise (fun a b _ _ hab hba => ?_)
    (List.pairwise_mergeSort htrans htotal l) (List.pairwise_mergeSort htrans htotal m) ?_
  · obtain ⟨ra, da⟩ := a
    obtain ⟨rb, db⟩ := b
    rw [Core.le_iff] at hab hba
    simp only [Core.mk.injEq] at hab hba ⊢
    omega
  · exact (List.mergeSort_perm l _).trans
      (((List.perm_ext_iff_of_nodup hl hm).mpr h).trans (List.mergeSort_perm m _).symm)

/-! ## Edges and crossings

  An edge is a claim about two states, and noted moves are some of the edges.  A crossing is
  known from the items of its state, also after the state has gained lookaheads. -/

/-- Edges between states. -/
abbrev Edges := Nat → Symbol → Nat → Prop

/-- One more edge. -/
def Edges.with (E : Edges) (p : Nat) (x : Symbol) (t : Nat) : Edges :=
  fun q y u => E q y u ∨ (q = p ∧ y = x ∧ u = t)

/-- The cores that a kernel has when its symbol is crossed from the state. -/
def State.Crosses (g : Grammar) (s : State) (x : Symbol) (c : Core) : Prop :=
  ∃ b, s.Has b ∧ b.next? g = some x ∧ c = b.advance

/-- The cores of that kernel as they are listed, in the order of the state's items. -/
def State.crossedCores (g : Grammar) (s : State) (x : Symbol) : List Core :=
  (s.items.toList.filter (·.core.next? g == some x)).map (·.core.advance)

/-- The cores that a symbol leads to are those of the items with the symbol after their dot. -/
theorem State.mem_crossedCores {s : State} {x : Symbol} {c : Core} :
    c ∈ s.crossedCores g x ↔ s.Crosses g x c := by
  simp only [crossedCores, List.mem_map, List.mem_filter, Array.mem_toList_iff, beq_iff_eq]
  constructor
  · rintro ⟨item, ⟨hmem, hnext⟩, rfl⟩
    exact ⟨item.core, ⟨item, hmem, rfl⟩, hnext, rfl⟩
  · rintro ⟨_, ⟨item, hmem, rfl⟩, hnext, rfl⟩
    exact ⟨item, ⟨hmem, hnext⟩, rfl⟩

/-- The kernel is what the crossing of `x` from the state makes, with lookaheads that the state
    has. -/
structure IsCrossing (g : Grammar) (s : State) (x : Symbol) (k : Kernel) : Prop where
  cores_eq : k.toList.map (·.1) = s.crossedCores g x
  nonempty : ∃ e, e ∈ k
  look : ∀ {e : Core × SymbolSet}, e ∈ k → ∀ {t : Nat}, t ∈ e.2 →
    ∃ b, s.Look b t ∧ b.next? g = some x ∧ e.1 = b.advance

/-- So are the cores of a crossing. -/
theorem IsCrossing.mem_iff {s : State} {x : Symbol} {k : Kernel} (h : IsCrossing g s x k)
    {c : Core} : (∃ e ∈ k, e.1 = c) ↔ s.Crosses g x c := by
  rw [← State.mem_crossedCores, ← h.cores_eq]
  simp

/-- A symbol that is crossed is one of the grammar's. -/
theorem IsCrossing.has (wf : g.WellFormed) {s : State} {x : Symbol} {k : Kernel}
    (h : IsCrossing g s x k) : g.alphabet.Has x := by
  obtain ⟨e, he⟩ := h.nonempty
  obtain ⟨b, -, hnext, -⟩ := h.mem_iff.mp ⟨e, he, rfl⟩
  exact wf.rhs_has (Core.rule_lt_of_next? hnext) _ (Core.next?_mem hnext)

/-- The signature is that of a list of cores, and the kernel is the part of the list that its size
    counts. -/
def State.Signed (g : Grammar) (s : State) : Prop :=
  ∃ l : List Core, Core.Distinct g l ∧ s.signature = l.mergeSort Core.le ∧
    s.kernel.toList.map (·.core) = l.take (kernelLimit l.length)

/-- The kernel cores of a state are in its signature. -/
theorem State.Signed.kernelHas {s : State} (h : s.Signed g) {c : Core} (hc : s.KernelHas c) :
    c ∈ s.signature := by
  obtain ⟨l, -, hsig, hkernel⟩ := h
  obtain ⟨item, hmem, rfl⟩ := hc
  rw [hsig, List.mem_mergeSort]
  have hmem' : item.core ∈ s.kernel.toList.map (·.core) :=
    List.mem_map.mpr ⟨item, Array.mem_toList_iff.mpr hmem, rfl⟩
  rw [hkernel] at hmem'
  exact List.mem_of_mem_take hmem'

/-- A signature lists each core of a short rule once. -/
theorem State.Signed.nodup {s : State} (h : s.Signed g)
    (hshort : ∀ c ∈ s.signature, c.isShort g = true) : s.signature.Nodup := by
  obtain ⟨l, hl, hsig, -⟩ := h
  rw [hsig] at hshort ⊢
  exact (List.mergeSort_perm l Core.le).nodup_iff.mpr
    (hl.nodup_of_forall fun c hc => hshort c (List.mem_mergeSort.mpr hc))

/-- Signatures with the same cores are the same. -/
theorem State.Signed.ext (hg : g.IsShort) {s s' : State} (h : s.Signed g) (h' : s'.Signed g)
    (hsame : ∀ c, c ∈ s.signature ↔ c ∈ s'.signature) : s.signature = s'.signature := by
  obtain ⟨l, hl, hsig, -⟩ := h
  obtain ⟨m, hm, hsig', -⟩ := h'
  rw [hsig, hsig'] at hsame ⊢
  exact Core.mergeSort_eq (hl.nodup hg) (hm.nodup hg) fun c => by
    rw [← List.mem_mergeSort, hsame, List.mem_mergeSort]

namespace Worklist

/-- Every state is as it should be, with edges `E`. -/
structure Sound (g : Grammar) (E : Edges) (w : Worklist) : Prop where
  pos : 0 < w.states.size
  explored_le : w.explored ≤ w.states.size
  closed : ∀ {p : Nat}, p < w.states.size → Closed g (w.state p)
  signed : ∀ {p : Nat}, p < w.states.size → (w.state p).Signed g
  start : (w.state 0).entry = none ∧ (w.state 0).signature = [⟨0, 0⟩]
  distinct : ∀ {p q : Nat}, p < w.states.size → q < w.states.size →
    (w.state p).entry = (w.state q).entry → (w.state p).signature = (w.state q).signature → p = q
  moves_edge : ∀ {p t : Nat} {x : Symbol}, (x, t) ∈ (w.state p).moves → E p x t
  edge_explored : ∀ {p t : Nat} {x : Symbol}, E p x t → p < w.explored
  edge_lt : ∀ {p t : Nat} {x : Symbol}, E p x t → t < w.states.size
  edge_entry : ∀ {p t : Nat} {x : Symbol}, E p x t → (w.state t).entry = some x
  edge_nonempty : ∀ {p t : Nat} {x : Symbol}, E p x t → (w.state t).signature ≠ []
  edge_cores : ∀ {p t : Nat} {x : Symbol}, E p x t →
    (w.state t).signature = ((w.state p).crossedCores g x).mergeSort Core.le
  reached : ∀ {p : Nat}, p < w.states.size → ∃ γ, Leads E γ p
  index_size : w.entered.size = g.alphabet.size
  index_mem : ∀ {p : Nat} {x : Symbol}, p < w.states.size → (w.state p).entry = some x →
    p ∈ w.entered.getD (g.alphabet.code x) #[]
  justified : g.IsShort → ∀ {p t : Nat} {c : Core}, p < w.states.size → (w.state p).Look c t →
    ∃ γ, Leads E γ p ∧ LookaheadAt g γ c t

/-- The edges that are noted. -/
def edges (w : Worklist) : Edges :=
  fun p x t => (x, t) ∈ (w.state p).moves

/-- There are no moves where there is no state. -/
theorem moves_of_size_le {w : Worklist} {p : Nat} (h : w.states.size ≤ p) :
    (w.state p).moves = #[] := by
  rw [state, getD_of_size_le _ h]
  rfl

/-- A move starts in a state that is there. -/
theorem lt_of_edge {w : Worklist} {p t : Nat} {x : Symbol} (h : w.edges p x t) :
    p < w.states.size := by
  by_contra hp
  have hmem : (x, t) ∈ (w.state p).moves := h
  rw [moves_of_size_le (Nat.le_of_not_lt hp)] at hmem
  exact Array.not_mem_empty _ hmem

/-! ## Consequences

  What is used of the invariant later on, besides its parts. -/

variable {E : Edges} {w : Worklist}

theorem Sound.edge_src (h : Sound g E w) {p t : Nat} {x : Symbol} (he : E p x t) :
    p < w.states.size :=
  Nat.lt_of_lt_of_le (h.edge_explored he) h.explored_le

/-- A state other than the first is entered by some edge. -/
theorem Sound.entered (h : Sound g E w) {p : Nat} (hp : p < w.states.size) (hpos : 0 < p) :
    ∃ q x, E q x p := by
  obtain ⟨γ, hγ⟩ := h.reached hp
  cases hγ with
  | nil => exact absurd hpos (Nat.lt_irrefl 0)
  | snoc _ hedge => exact ⟨_, _, hedge⟩

/-- An edge leads to the state whose cores are those of the items with its symbol after the dot,
    moved over it. -/
theorem Sound.edge_signature (h : Sound g E w) {p t : Nat} {x : Symbol} (he : E p x t) {c : Core} :
    c ∈ (w.state t).signature ↔ (w.state p).Crosses g x c := by
  rw [h.edge_cores he, List.mem_mergeSort, State.mem_crossedCores]

/-- An edge is there for an item with its symbol after the dot. -/
theorem Sound.exists_next (h : Sound g E w) {p t : Nat} {x : Symbol} (he : E p x t) :
    ∃ b, (w.state p).Has b ∧ b.next? g = some x := by
  obtain ⟨c, hc⟩ := List.exists_mem_of_ne_nil _ (h.edge_nonempty he)
  obtain ⟨b, hb, hnext, -⟩ := (h.edge_signature he).mp hc
  exact ⟨b, hb, hnext⟩

/-- A terminal that is crossed is one of the grammar's. -/
theorem Sound.terminal_lt (wf : g.WellFormed) (h : Sound g E w) {p q t : Nat}
    (he : E p (.terminal t) q) : t < g.terminalCount := by
  obtain ⟨b, -, hnext⟩ := h.exists_next he
  exact wf.rhs_has (Core.rule_lt_of_next? hnext) _ (Core.next?_mem hnext)

/-- No edge leads to the first state. -/
theorem Sound.edge_pos (h : Sound g E w) {p t : Nat} {x : Symbol} (he : E p x t) : 0 < t := by
  refine Nat.pos_of_ne_zero fun h0 => ?_
  have hentry := h.edge_entry he
  rw [h0, h.start.1] at hentry
  exact absurd hentry (by simp)

/-- The items of a state are items at every string that leads there. -/
theorem Sound.itemAt (wf : g.WellFormed) (hg : g.IsShort) (h : Sound g E w) {γ : List Symbol}
    {p : Nat}
    (hγ : Leads E γ p) : ∀ {c : Core}, (w.state p).Has c → ItemAt g γ c := by
  induction hγ with
  | nil =>
    intro c hc
    refine InClosure.itemAt (fun d hd => ?_) (((h.closed h.pos).has_iff wf).mp hc)
    have hmem := (h.signed h.pos).kernelHas hd
    rw [h.start.2, List.mem_singleton] at hmem
    exact hmem ▸ .start
  | @snoc γ q x p _ hedge ih =>
    intro c hc
    refine InClosure.itemAt (fun d hd => ?_) (((h.closed (h.edge_lt hedge)).has_iff wf).mp hc)
    have hmem := (h.signed (h.edge_lt hedge)).kernelHas hd
    obtain ⟨b, hb, hnext, rfl⟩ := (h.edge_signature hedge).mp hmem
    exact Core.advance_eq (hg.core b) hnext ▸ .advance (ih hb) hnext

/-- From a state a symbol leads to one state at most. -/
theorem Sound.edge_unique (h : Sound g E w) {p t u : Nat} {x : Symbol} (ht : E p x t)
    (hu : E p x u) : t = u :=
  h.distinct (h.edge_lt ht) (h.edge_lt hu) ((h.edge_entry ht).trans (h.edge_entry hu).symm)
    ((h.edge_cores ht).trans (h.edge_cores hu).symm)

/-! ## The single operations

  What each operation does to the states, without regard to the invariant.  Adding lookaheads
  leaves the states `Alike`, and noting a move does as well. -/

/-- States that differ in their lookaheads and moves at most. -/
structure Alike (s s' : State) : Prop where
  items : s'.items = s.items
  kernelSize : s'.kernelSize = s.kernelSize
  entry : s'.entry = s.entry
  signature : s'.signature = s.signature

theorem Alike.refl (s : State) : Alike s s :=
  ⟨rfl, rfl, rfl, rfl⟩

theorem Alike.trans {s s' s'' : State} (h : Alike s s') (h' : Alike s' s'') : Alike s s'' :=
  ⟨h'.items.trans h.items, h'.kernelSize.trans h.kernelSize, h'.entry.trans h.entry,
    h'.signature.trans h.signature⟩

theorem Alike.of_sameShape {s s' : State} (h : SameShape s s') : Alike s s' :=
  ⟨h.items, h.kernelSize, h.entry, h.signature⟩

theorem Alike.kernel {s s' : State} (h : Alike s s') : s'.kernel = s.kernel := by
  rw [State.kernel, State.kernel, h.items, h.kernelSize]

theorem Alike.has {s s' : State} (h : Alike s s') {c : Core} : s'.Has c ↔ s.Has c := by
  rw [State.Has, State.Has, h.items]

theorem Alike.kernelHas {s s' : State} (h : Alike s s') {c : Core} :
    s'.KernelHas c ↔ s.KernelHas c := by
  rw [State.KernelHas, State.KernelHas, h.kernel]

theorem Alike.crossedCores {s s' : State} (h : Alike s s') (x : Symbol) :
    s'.crossedCores g x = s.crossedCores g x := by
  rw [State.crossedCores, State.crossedCores, h.items]

theorem Alike.signed {s s' : State} (h : Alike s s') (hs : s.Signed g) : s'.Signed g := by
  rw [State.Signed, h.signature, h.kernel]
  exact hs

/-- What enriching state `t` with a kernel does. -/
structure Enriched (g : Grammar) (w : Worklist) (t : Nat) (k : Kernel) (w' : Worklist) : Prop where
  size : w'.states.size = w.states.size
  explored : w'.explored = w.explored
  index : w'.entered = w.entered
  other : ∀ {q : Nat}, q ≠ t → w'.state q = w.state q
  shape : SameShape (w.state t) (w'.state t)
  closed : Closed g (w'.state t)
  kernelLook : ∀ {c : Core} {u : Nat}, (w'.state t).KernelLook c u ↔
    (w.state t).KernelLook c u ∨ ((w.state t).KernelHas c ∧ ∃ e ∈ k, e.1 = c ∧ u ∈ e.2)
  grown : ∀ {q : Nat}, q ∈ w.grown → q ∈ w'.grown
  grown_lt : ∀ {q : Nat}, q ∈ w'.grown → q ∈ w.grown ∨ q < w.explored
  change : (w'.states = w.states ∧ w'.grown = w.grown) ∨
    (weight g (w.state t) < weight g (w'.state t) ∧ (t < w.explored → t ∈ w'.grown) ∧
      w'.grown.length ≤ w.grown.length + 1)

/-- Every state keeps its items, entry and signature. -/
theorem Enriched.alike {w w' : Worklist} {t : Nat} {k : Kernel} (h : Enriched g w t k w')
    (q : Nat) :
    Alike (w.state q) (w'.state q) := by
  by_cases hq : q = t
  · exact hq ▸ .of_sameShape h.shape
  · rw [h.other hq]
    exact .refl _

/-- Adding lookaheads adds no moves. -/
theorem Enriched.edges_iff {w w' : Worklist} {t : Nat} {k : Kernel} (h : Enriched g w t k w')
    {q u : Nat} {y : Symbol} : w'.edges q y u ↔ w.edges q y u := by
  show (y, u) ∈ (w'.state q).moves ↔ (y, u) ∈ (w.state q).moves
  by_cases hq : q = t
  · rw [hq, h.shape.moves]
  · rw [h.other hq]

/-- Noting that a state grew changes only the stack of those that did. -/
theorem noteGrown_spec (w : Worklist) (t : Nat) :
    (w.noteGrown t).states = w.states ∧ (w.noteGrown t).explored = w.explored ∧
      (w.noteGrown t).entered = w.entered ∧
      (∀ q, q ∈ (w.noteGrown t).grown ↔ q = t ∨ q ∈ w.grown) ∧
      (w.noteGrown t).grown.length ≤ w.grown.length + 1 := by
  unfold noteGrown
  split
  · rename_i h
    have ht : t ∈ w.grown := by simpa using h
    exact ⟨rfl, rfl, rfl, fun q => ⟨Or.inr, fun hq => hq.elim (fun heq => heq ▸ ht) id⟩,
      Nat.le_succ _⟩
  · exact ⟨rfl, rfl, rfl, fun q => List.mem_cons, Nat.le_refl _⟩

/-- The states after one was replaced. -/
theorem state_setIfInBounds {states : Array State} {t q : Nat} {s : State} (ht : t < states.size) :
    (states.setIfInBounds t s).getD q default = if t = q then s else states.getD q default := by
  rw [getD_setIfInBounds]
  simp [ht]

/-- Puts a state that was closed again in the place of state `t`. -/
def putBack (w : Worklist) (t : Nat) (r : State × Nat) : Worklist :=
  let w := { w with states := w.states.setIfInBounds t r.1, emptyItems := w.emptyItems + r.2 }
  if t < w.explored then w.noteGrown t else w

/-- Enriching a state puts it back closed again if anything grew, and else does nothing. -/
theorem enrich_eq (g : Grammar) (w : Worklist) (t : Nat) (k : Kernel) :
    w.enrich (Analysis.ofGrammar g) t k =
      if ((w.state t).absorb g k).2 then
        w.putBack t (((w.state t).absorb g k).1.rebuild (Analysis.ofGrammar g))
      else w := by
  have hgrammar : (Analysis.ofGrammar g).grammar = g := rfl
  rw [enrich, hgrammar]
  split <;> rename_i heq <;> rw [heq] <;> rfl

/-- What putting a state back does: it takes the place of the old one, and is noted if it was
    explored. -/
theorem putBack_spec (w : Worklist) {t : Nat} (ht : t < w.states.size) (r : State × Nat) :
    (w.putBack t r).states.size = w.states.size ∧ (w.putBack t r).explored = w.explored ∧
      (w.putBack t r).entered = w.entered ∧
      (w.putBack t r).state t = r.1 ∧ (∀ q, q ≠ t → (w.putBack t r).state q = w.state q) ∧
      (∀ q, q ∈ (w.putBack t r).grown ↔ (q = t ∧ t < w.explored) ∨ q ∈ w.grown) ∧
      (w.putBack t r).grown.length ≤ w.grown.length + 1 := by
  have hset : ∀ q, (w.states.setIfInBounds t r.1).getD q default =
      if t = q then r.1 else w.state q := fun q => state_setIfInBounds ht
  -- whether the state is noted as grown shows only on the stack
  have hrest : ∀ w' : Worklist, w'.states = w.states.setIfInBounds t r.1 →
      w'.states.size = w.states.size ∧ w'.state t = r.1 ∧ ∀ q, q ≠ t → w'.state q = w.state q := by
    intro w' hstates
    refine ⟨by rw [hstates, Array.size_setIfInBounds], ?_, fun q hq => ?_⟩
    · rw [state, hstates, hset, if_pos rfl]
    · rw [state, hstates, hset, if_neg (Ne.symm hq)]
  unfold putBack
  dsimp only
  split
  · rename_i hlt
    obtain ⟨hstates, hexplored, hentered, hgrown, hlen⟩ := noteGrown_spec { w with
      states := w.states.setIfInBounds t r.1, emptyItems := w.emptyItems + r.2 } t
    obtain ⟨hsize, hself, hother⟩ := hrest _ hstates
    exact ⟨hsize, hexplored, hentered, hself, hother, fun q => (hgrown q).trans (by simp [hlt]),
      hlen⟩
  · rename_i hnot
    obtain ⟨hsize, hself, hother⟩ := hrest { w with
      states := w.states.setIfInBounds t r.1, emptyItems := w.emptyItems + r.2 } rfl
    exact ⟨hsize, rfl, rfl, hself, hother, fun q => by simp [hnot], Nat.le_succ _⟩

/-- Adding a kernel's lookaheads does what `Enriched` says, whether anything grew or not. -/
theorem enrich_spec (wf : g.WellFormed) (w : Worklist) {t : Nat} (ht : t < w.states.size)
    (hc : Closed g (w.state t)) {k : Kernel}
    (hk : ∀ e ∈ k, ∀ u ∈ e.2, u < g.terminalCount) :
    Enriched g w t k (w.enrich (Analysis.ofGrammar g) t k) := by
  rw [enrich_eq]
  -- what brings nothing new leaves the worklist as it is; else the state is closed again
  cases hgrew : ((w.state t).absorb g k).2 with
  | false =>
    rw [if_neg Bool.false_ne_true]
    refine ⟨rfl, rfl, rfl, fun _ => rfl, .refl _, hc, fun {c u} => ⟨Or.inl, ?_⟩, id, Or.inl,
      Or.inl ⟨rfl, rfl⟩⟩
    rintro (h | ⟨hhas, e, he, rfl, hu⟩)
    · exact h
    · exact absorb_stayed hc hgrew he hhas hu
  | true =>
    rw [if_pos rfl]
    obtain ⟨hclosed, hshape, hlook, hweight⟩ := absorb_grew wf hc hk hgrew rfl
    obtain ⟨hsize, hexplored, hentered, hself, hother, hgrown, hlen⟩ :=
      putBack_spec w ht (((w.state t).absorb g k).1.rebuild (Analysis.ofGrammar g))
    rw [← hself] at hclosed hshape hlook hweight
    exact {
      size := hsize
      explored := hexplored
      index := hentered
      other := hother _
      shape := hshape
      closed := hclosed
      kernelLook := hlook _ _
      grown := fun hq => (hgrown _).mpr (Or.inr hq)
      grown_lt := fun hq => ((hgrown _).mp hq).elim (fun hq => Or.inr (hq.1 ▸ hq.2)) Or.inl
      change := Or.inr ⟨hweight, fun hlt => (hgrown t).mpr (Or.inl ⟨rfl, hlt⟩), hlen⟩ }

/-- The states after a move was noted. -/
theorem state_addMove (w : Worklist) {p : Nat} (hp : p < w.states.size) (x : Symbol) (t q : Nat) :
    (w.addMove p x t).state q =
      if p = q then { w.state q with moves := (w.state q).moves.push (x, t) } else w.state q := by
  show (w.states.modify p _).getD q default = _
  rw [getD_modify]
  simp [hp, state]

/-- What is added to a state when a move is noted. -/
theorem addMove_spec (w : Worklist) {p : Nat} (hp : p < w.states.size) (x : Symbol) (t : Nat) :
    (w.addMove p x t).states.size = w.states.size ∧
      (∀ q, Alike (w.state q) ((w.addMove p x t).state q)) ∧
      (∀ q, ((w.addMove p x t).state q).lookaheads = (w.state q).lookaheads) ∧
      ∀ q e, e ∈ ((w.addMove p x t).state q).moves ↔
        e ∈ (w.state q).moves ∨ (q = p ∧ e = (x, t)) := by
  refine ⟨Array.size_modify, fun q => ?_, fun q => ?_, fun q e => ?_⟩
  · rw [state_addMove w hp]
    split
    · exact ⟨rfl, rfl, rfl, rfl⟩
    · exact .refl _
  · rw [state_addMove w hp]
    split <;> rfl
  · rw [state_addMove w hp]
    by_cases hq : p = q
    · rw [if_pos hq, Array.mem_push]
      simp [hq]
    · rw [if_neg hq]
      simp [Ne.symm hq]

/-- The states after one was added. -/
theorem addState_spec (a : Analysis) (w : Worklist) (x : Symbol) (k : Kernel) :
    (w.addState a x k).states.size = w.states.size + 1 ∧
      (∀ q, q ≠ w.states.size → (w.addState a x k).state q = w.state q) ∧
      (w.addState a x k).state w.states.size = (State.ofKernel a (some x) k).1 := by
  have hstate : ∀ q, (w.addState a x k).state q =
      if q = w.states.size then (State.ofKernel a (some x) k).1 else w.state q :=
    fun q => getD_push ..
  refine ⟨Array.size_push _, fun q hq => ?_, ?_⟩
  · rw [hstate, if_neg hq]
  · rw [hstate, if_pos rfl]

/-- What holds of the old states and of the new one holds of every state. -/
theorem addState_forall {a : Analysis} {w : Worklist} {x : Symbol} {k : Kernel}
    {P : Nat → State → Prop} (hold : ∀ {q : Nat}, q < w.states.size → P q (w.state q))
    (hnew : P w.states.size (State.ofKernel a (some x) k).1) {q : Nat}
    (hq : q < (w.addState a x k).states.size) : P q ((w.addState a x k).state q) := by
  obtain ⟨hsize, hother, hself⟩ := addState_spec a w x k
  rcases Nat.lt_or_ge q w.states.size with hlt | hge
  · rw [hother q (Nat.ne_of_lt hlt)]
    exact hold hlt
  · obtain rfl : q = w.states.size := by omega
    rw [hself]
    exact hnew

/-- Only a state that is there is entered by a symbol. -/
theorem lt_of_entry {w : Worklist} {t : Nat} {x : Symbol} (h : (w.state t).entry = some x) :
    t < w.states.size := by
  by_contra hle
  rw [state, getD_of_size_le _ (Nat.le_of_not_lt hle)] at h
  exact absurd h (by simp [default, instInhabitedState.default])

/-- The state that is found is entered by the symbol and has the kernel's signature. -/
theorem lookup?_eq_some {a : Analysis} {w : Worklist} {x : Symbol} {k : Kernel} {t : Nat}
    (h : w.lookup? a x k = some t) : t < w.states.size ∧ (w.state t).entry = some x ∧
      (w.state t).signature = k.signature := by
  have hfound := Array.find?_some h
  rw [Bool.and_eq_true, beq_iff_eq, beq_iff_eq] at hfound
  exact ⟨lt_of_entry hfound.1, hfound⟩

/-- Every state that is entered by a symbol is looked at when one is looked up. -/
theorem Sound.lookup?_eq_none (h : Sound g E w) {x : Symbol} {k : Kernel}
    (hnone : w.lookup? (Analysis.ofGrammar g) x k = none) {t : Nat} (ht : t < w.states.size) :
    ¬ ((w.state t).entry = some x ∧ (w.state t).signature = k.signature) := by
  rintro ⟨hentry, hsig⟩
  have hnot := Array.find?_eq_none.mp hnone t (h.index_mem ht hentry)
  simp [hentry, hsig] at hnot

/-! ## The operations keep the invariant

  Changes of lookaheads and moves need little: the edges must allow the moves, and the new
  lookaheads must be justified. -/

/-- That a state is closed depends on its items and lookaheads alone. -/
theorem closed_congr {s s' : State} (h : Closed g s) (hitems : s'.items = s.items)
    (hsize : s'.kernelSize = s.kernelSize) (hlooks : s'.lookaheads = s.lookaheads) :
    Closed g s' := by
  cases s
  cases s'
  cases hitems
  cases hsize
  cases hlooks
  exact ⟨⟨h.proper.kernel, h.proper.items_le, h.proper.looks_le, h.proper.looks_lt⟩, h.items_eq,
    h.size_eq, h.flow_iff⟩

theorem look_congr {s s' : State} (hitems : s'.items = s.items)
    (hlooks : s'.lookaheads = s.lookaheads) {c : Core} {t : Nat} : s'.Look c t ↔ s.Look c t := by
  rw [State.Look, State.Look, hitems]
  simp only [State.lookahead, hlooks]

/-- What the closure of a state gains is justified if the kernel's lookaheads are. -/
theorem justified_of_closed (wf : g.WellFormed) {s : State} (h : Closed g s)
    {T : List Symbol → Prop} (hT : ∃ γ, T γ) (hitem : ∀ {γ c}, T γ → s.Has c → ItemAt g γ c)
    (hlook : ∀ {c t}, s.KernelLook c t → ∃ γ, T γ ∧ LookaheadAt g γ c t) {c : Core} {t : Nat}
    (ht : s.Look c t) : ∃ γ, T γ ∧ LookaheadAt g γ c t := by
  induction (h.look_iff wf).mp ht with
  | kernel hk => exact hlook hk
  | first hc hafter hr hlhs hb =>
    obtain ⟨γ, hγ⟩ := hT
    exact ⟨γ, hγ, .first (hitem hγ ((h.has_iff wf).mpr hc)) hafter hr hlhs
      (Grammar.begins_iff_derives.mp hb)⟩
  | inherit hg hafter hr hlhs hv ih =>
    obtain ⟨γ, hγ, hat⟩ := ih ((h.look_iff wf).mpr hg)
    exact ⟨γ, hγ, .inherit hat hafter hr hlhs (Grammar.vanishes_iff_derives.mp hv)⟩

/-- Changes of lookaheads and moves keep the invariant if they are justified. -/
theorem Sound.of_alike (h : Sound g E w) {w' : Worklist}
    (hsize : w'.states.size = w.states.size) (hindex : w'.entered = w.entered)
    (hexplored : w.explored ≤ w'.explored) (hle : w'.explored ≤ w'.states.size)
    (halike : ∀ p, Alike (w.state p) (w'.state p))
    (hclosed : ∀ {p}, p < w.states.size → Closed g (w'.state p))
    (hmoves : ∀ {p t x}, (x, t) ∈ (w'.state p).moves → E p x t)
    (hjust : g.IsShort → ∀ {p t c}, p < w.states.size → (w'.state p).Look c t →
      ∃ γ, Leads E γ p ∧ LookaheadAt g γ c t) : Sound g E w' where
  pos := hsize ▸ h.pos
  explored_le := hle
  closed hp := hclosed (hsize ▸ hp)
  signed hp := (halike _).signed (h.signed (hsize ▸ hp))
  start := ⟨(halike 0).entry.trans h.start.1, (halike 0).signature.trans h.start.2⟩
  -- entry and signature are what states are told apart by, and neither changes
  distinct {p q} hp hq hentry hsig := by
    rw [(halike p).entry, (halike q).entry] at hentry
    rw [(halike p).signature, (halike q).signature] at hsig
    exact h.distinct (hsize ▸ hp) (hsize ▸ hq) hentry hsig
  moves_edge := hmoves
  edge_explored he := Nat.lt_of_lt_of_le (h.edge_explored he) hexplored
  edge_lt he := hsize ▸ h.edge_lt he
  edge_entry he := (halike _).entry.trans (h.edge_entry he)
  edge_nonempty he := (halike _).signature ▸ h.edge_nonempty he
  edge_cores {p t x} he := by
    rw [(halike t).signature, (halike p).crossedCores]
    exact h.edge_cores he
  reached hp := h.reached (hsize ▸ hp)
  index_size := hindex ▸ h.index_size
  index_mem {p x} hp hentry := by
    rw [hindex]
    exact h.index_mem (hsize ▸ hp) ((halike p).entry ▸ hentry)
  justified hg _ _ _ hp := hjust hg (hsize ▸ hp)

/-- A state may be enriched with what its edges justify. -/
theorem Sound.enrich (wf : g.WellFormed) (h : Sound g E w) {t : Nat} (ht : t < w.states.size)
    {k : Kernel} (hk : ∀ e ∈ k, ∀ u ∈ e.2, u < g.terminalCount)
    (hjust : g.IsShort → ∀ e ∈ k, ∀ u ∈ e.2, ∃ γ, Leads E γ t ∧ LookaheadAt g γ e.1 u) :
    Sound g E (w.enrich (Analysis.ofGrammar g) t k) := by
  have hen := enrich_spec wf w ht (h.closed ht) hk
  generalize w.enrich (Analysis.ofGrammar g) t k = w' at hen
  -- only the state itself changes, and only in its lookaheads
  refine h.of_alike hen.size hen.index (Nat.le_of_eq hen.explored.symm)
    (by rw [hen.explored, hen.size]; exact h.explored_le) hen.alike (fun {p} hp => ?_)
    (fun hmem => h.moves_edge (hen.edges_iff.mp hmem)) (fun hg {p u c} hp hlook => ?_)
  · by_cases hpt : p = t
    · exact hpt ▸ hen.closed
    · rw [hen.other hpt]
      exact h.closed hp
  · by_cases hpt : p = t
    · subst hpt
      refine justified_of_closed wf hen.closed (h.reached hp)
        (fun hγ hc => h.itemAt wf hg hγ (hen.shape.has.mp hc)) (fun {c u} hkl => ?_) hlook
      rcases hen.kernelLook.mp hkl with hkl | ⟨-, e, he, rfl, hu⟩
      · exact h.justified hg hp hkl.look
      · exact hjust hg e he u hu
    · rw [hen.other hpt] at hlook
      exact h.justified hg hp hlook

/-- A noted move is one of the edges. -/
theorem Sound.addMove (h : Sound g E w) {p t : Nat} {x : Symbol} (he : E p x t) :
    Sound g E (w.addMove p x t) := by
  obtain ⟨hsize, halike, hlooks, hmoves⟩ := addMove_spec w (h.edge_src he) x t
  refine h.of_alike hsize rfl (Nat.le_refl _) (by rw [hsize]; exact h.explored_le) halike
    (fun {q} hq => ?_) (fun {q u y} hmem => ?_) (fun hg {q u c} hq hlook => ?_)
  · exact closed_congr (h.closed hq) (halike q).items (halike q).kernelSize (hlooks q)
  · rcases (hmoves q (y, u)).mp hmem with hmem | ⟨rfl, heq⟩
    · exact h.moves_edge hmem
    · injection heq with h1 h2
      exact h1 ▸ h2 ▸ he
  · exact h.justified hg hq ((look_congr (halike q).items (hlooks q)).mp hlook)

/-- An edge to a known state may be promised. -/
theorem Sound.promise (h : Sound g E w) {p t : Nat} {x : Symbol} (hp : p < w.explored)
    (ht : t < w.states.size) (hentry : (w.state t).entry = some x)
    (hsig : (w.state t).signature = ((w.state p).crossedCores g x).mergeSort Core.le)
    (hne : (w.state t).signature ≠ []) : Sound g (E.with p x t) w where
  pos := h.pos
  explored_le := h.explored_le
  closed := h.closed
  signed := h.signed
  start := h.start
  distinct := h.distinct
  moves_edge hmem := Or.inl (h.moves_edge hmem)
  edge_explored he := he.elim h.edge_explored fun he => he.1 ▸ hp
  edge_lt he := he.elim h.edge_lt fun he => he.2.2 ▸ ht
  edge_entry he := he.elim h.edge_entry fun he => he.2.1 ▸ he.2.2 ▸ hentry
  edge_nonempty he := he.elim h.edge_nonempty fun he => he.2.2 ▸ hne
  -- only the new edge is to be looked at
  edge_cores {q u y} he := by
    rcases he with he | ⟨rfl, rfl, rfl⟩
    · exact h.edge_cores he
    · exact hsig
  reached hq := (h.reached hq).imp fun _ => Leads.mono Or.inl
  index_size := h.index_size
  index_mem := h.index_mem
  justified hg _ _ _ hq hlook := (h.justified hg hq hlook).imp fun _ ⟨hγ, hat⟩ =>
    ⟨hγ.mono Or.inl, hat⟩

/-! ## New states

  A state is made for a crossing that leads to no known one.  That it is new follows from the
  look-up, which compares entry and signature. -/

/-- What is moved over one symbol stays apart. -/
theorem distinct_crossedCores (wf : g.WellFormed) {s : State} (h : Closed g s) (x : Symbol) :
    Core.Distinct g (s.crossedCores g x) := by
  have hsub : ((s.items.toList.filter (·.core.next? g == some x)).map (·.core)).Sublist
      (s.items.toList.map (·.core)) :=
    List.Sublist.map _ List.filter_sublist
  have hfits : ∀ c ∈ (s.items.toList.filter (·.core.next? g == some x)).map (·.core),
      c.Fits g := by
    intro c hc
    obtain ⟨item, hmem, rfl⟩ := List.mem_map.mp (hsub.subset hc)
    exact h.fits wf ⟨item, Array.mem_toList_iff.mp hmem, rfl⟩
  have heq : s.crossedCores g x =
      ((s.items.toList.filter (·.core.next? g == some x)).map (·.core)).map Core.advance := by
    rw [crossedCores, List.map_map]
    rfl
  rw [heq]
  exact ((h.distinct wf).sublist hsub).map_advance hfits

/-- A state can be made from what a closed state leads to: dots that are moved stay apart. -/
theorem crossing_sound (wf : g.WellFormed) {s : State} (h : Closed g s) {x : Symbol} {k : Kernel}
    (hcross : IsCrossing g s x k) : k.Sound g where
  distinct := hcross.cores_eq ▸ distinct_crossedCores wf h x
  fits e he := by
    obtain ⟨b, hb, hnext, heq⟩ := hcross.mem_iff.mp ⟨e, he, rfl⟩
    exact heq ▸ (h.fits wf hb).advance hnext
  moved e he hshort := by
    obtain ⟨b, hb, hnext, heq⟩ := hcross.mem_iff.mp ⟨e, he, rfl⟩
    rw [heq] at hshort ⊢
    have hshort : b.isShort g = true := hshort
    rw [Core.advance_eq hshort hnext]
    exact Or.inl (Nat.succ_pos _)
  look_lt e he t ht := by
    obtain ⟨b, hb, -⟩ := hcross.look he ht
    exact h.look_lt wf hb

/-- The signature of a kernel lists its cores. -/
theorem mem_signature {k : Kernel} {c : Core} : c ∈ k.signature ↔ ∃ e ∈ k, e.1 = c := by
  rw [Kernel.signature, List.mem_mergeSort, Array.toList_map, List.mem_map]
  simp

/-- A new state has the signature of its kernel. -/
theorem signed_ofKernel (wf : g.WellFormed) {k : Kernel} (hk : k.Sound g) (entry : Option Symbol)
    {s : State} (hs : (ofKernel (Analysis.ofGrammar g) entry k).1 = s) : s.Signed g := by
  obtain ⟨-, -, hsig, -, -, hkernel, -⟩ := ofKernel_spec wf hk entry hs
  refine ⟨k.toList.map (·.1), hk.distinct, ?_, ?_⟩
  · rw [hsig, Kernel.signature, Array.toList_map]
  · rw [hkernel, List.length_map, Array.length_toList]

/-- A string at which the cores of the kernel are items is one for all items of the state made of
    it. -/
theorem itemAt_ofKernel (wf : g.WellFormed) {k : Kernel} (hk : k.Sound g) {entry : Option Symbol}
    {s : State} (hs : (ofKernel (Analysis.ofGrammar g) entry k).1 = s) {γ : List Symbol}
    (hγ : ∀ e ∈ k, ItemAt g γ e.1) {c : Core} (hc : s.Has c) : ItemAt g γ c := by
  obtain ⟨hclosed, -, hsig, -⟩ := ofKernel_spec wf hk entry hs
  refine InClosure.itemAt (fun b hb => ?_) ((hclosed.has_iff wf).mp hc)
  have hmem := (signed_ofKernel wf hk entry hs).kernelHas hb
  rw [hsig] at hmem
  obtain ⟨e, he, rfl⟩ := mem_signature.mp hmem
  exact hγ e he

/-- The signature of a crossing is known from the items of its state. -/
theorem crossing_signature {s : State} {x : Symbol} {k : Kernel} (hcross : IsCrossing g s x k) :
    k.signature = (s.crossedCores g x).mergeSort Core.le := by
  rw [← hcross.cores_eq, Kernel.signature, Array.toList_map]

/-- A crossing has an item. -/
theorem crossing_nonempty {s : State} {x : Symbol} {k : Kernel} (hcross : IsCrossing g s x k) :
    k.signature ≠ [] := by
  obtain ⟨e, he⟩ := hcross.nonempty
  exact List.ne_nil_of_mem (mem_signature.mpr ⟨e, he, rfl⟩)

/-- A crossing's lookaheads are justified where it leads. -/
theorem Sound.crossing_justified (h : Sound g E w) (hg : g.IsShort) {p t : Nat} {x : Symbol}
    (he : E p x t)
    {k : Kernel} (hcross : IsCrossing g (w.state p) x k) :
    ∀ e ∈ k, ∀ u ∈ e.2, ∃ γ, Leads E γ t ∧ LookaheadAt g γ e.1 u := by
  intro e hmem u hu
  obtain ⟨b, hlook, hnext, heq⟩ := hcross.look hmem hu
  obtain ⟨γ, hγ, hat⟩ := h.justified hg (h.edge_src he) hlook
  rw [heq, Core.advance_eq (hg.core b) hnext]
  exact ⟨γ ++ [x], .snoc hγ he, .advance hat hnext⟩

/-- The string leads to `p`, and on over `x`. -/
def LeadsOver (E : Edges) (p : Nat) (x : Symbol) (γ : List Symbol) : Prop :=
  ∃ γ', γ = γ' ++ [x] ∧ Leads E γ' p

/-- The lookaheads of a state made for a crossing are justified by strings that lead over it. -/
theorem Sound.justified_behind (wf : g.WellFormed) (hg : g.IsShort) (h : Sound g E w) {p : Nat}
    (hp : p < w.states.size) {x : Symbol} {k : Kernel} (hcross : IsCrossing g (w.state p) x k)
    {s : State} (hs : (ofKernel (Analysis.ofGrammar g) (some x) k).1 = s) {c : Core} {u : Nat}
    (hlook : s.Look c u) : ∃ γ, Leads E γ p ∧ LookaheadAt g (γ ++ [x]) c u := by
  have hk := crossing_sound wf (h.closed hp) hcross
  obtain ⟨hclosed, -, -, -, -, -, hkernelLook⟩ := ofKernel_spec wf hk (some x) hs
  -- the paths over `x`, and what the crossing holds on them
  have hsome : ∃ γ, LeadsOver E p x γ := by
    obtain ⟨γ, hγ⟩ := h.reached hp
    exact ⟨γ ++ [x], γ, rfl, hγ⟩
  have hitem : ∀ {γ d}, LeadsOver E p x γ → s.Has d → ItemAt g γ d := by
    rintro _ d ⟨γ, rfl, hγ⟩ hd
    refine itemAt_ofKernel wf hk hs (fun e he => ?_) hd
    obtain ⟨b, hb, hnext, heq⟩ := hcross.mem_iff.mp ⟨e, he, rfl⟩
    rw [heq, Core.advance_eq (hg.core b) hnext]
    exact .advance (h.itemAt wf hg hγ hb) hnext
  have hjust : ∀ {d v}, s.KernelLook d v → ∃ γ, LeadsOver E p x γ ∧ LookaheadAt g γ d v := by
    intro d v hd
    obtain ⟨i, -, e, he, rfl, hv⟩ := (hkernelLook d v).mp hd
    obtain ⟨b, hb, hnext, heq⟩ := hcross.look (Array.mem_iff_getElem?.mpr ⟨i, he⟩) hv
    obtain ⟨γ, hγ, hat⟩ := h.justified hg hp hb
    rw [heq, Core.advance_eq (hg.core b) hnext]
    exact ⟨γ ++ [x], ⟨γ, rfl, hγ⟩, .advance hat hnext⟩
  -- closing keeps to what is justified, and the paths over `x` are those of `p` with `x` behind
  obtain ⟨_, ⟨γ, rfl, hγ⟩, hat⟩ := justified_of_closed wf hclosed hsome hitem hjust hlook
  exact ⟨γ, hγ, hat⟩

/-- The new state differs from the known ones, for none of them was found. -/
theorem Sound.distinct_addState (h : Sound g E w) {x : Symbol} {k : Kernel} {w' : Worklist}
    (hnone : w.lookup? (Analysis.ofGrammar g) x k = none)
    (hw' : w.addState (Analysis.ofGrammar g) x k = w')
    (hentry : (ofKernel (Analysis.ofGrammar g) (some x) k).1.entry = some x)
    (hsig : (ofKernel (Analysis.ofGrammar g) (some x) k).1.signature = k.signature) {p q : Nat}
    (hp : p < w'.states.size) (hq : q < w'.states.size)
    (he : (w'.state p).entry = (w'.state q).entry)
    (hs : (w'.state p).signature = (w'.state q).signature) : p = q := by
  obtain ⟨hsize, hother, hself⟩ := addState_spec (Analysis.ofGrammar g) w x k
  rw [hw'] at hsize hother hself
  have hold : ∀ {q}, q < w.states.size → w'.state q = w.state q :=
    fun hq => hother _ (Nat.ne_of_lt hq)
  have hcases : ∀ {q}, q < w'.states.size → q < w.states.size ∨ q = w.states.size :=
    fun hq => by omega
  -- two old states differ already, and an old one like the new one would have been found
  rcases hcases hp with hp | rfl <;> rcases hcases hq with hq | rfl
  · rw [hold hp, hold hq] at he hs
    exact h.distinct hp hq he hs
  · rw [hold hp, hself, hentry] at he
    rw [hold hp, hself, hsig] at hs
    exact absurd ⟨he, hs⟩ (h.lookup?_eq_none hnone hp)
  · rw [hold hq, hself, hentry] at he
    rw [hold hq, hself, hsig] at hs
    exact absurd ⟨he.symm, hs.symm⟩ (h.lookup?_eq_none hnone hq)
  · rfl

/-- The new state is listed under the symbol that enters it. -/
theorem Sound.index_addState (h : Sound g E w) {x y : Symbol} (hx : g.alphabet.Has x) {k : Kernel}
    (hentry : (ofKernel (Analysis.ofGrammar g) (some x) k).1.entry = some x) {q : Nat}
    (hq : q < (w.addState (Analysis.ofGrammar g) x k).states.size)
    (hy : ((w.addState (Analysis.ofGrammar g) x k).state q).entry = some y) :
    q ∈ (w.addState (Analysis.ofGrammar g) x k).entered.getD (g.alphabet.code y) #[] := by
  have hcode : g.alphabet.code x < w.entered.size := h.index_size ▸ Alphabet.code_lt_size hx
  show q ∈ (w.entered.modify (g.alphabet.code x) (·.push w.states.size)).getD _ #[]
  rw [getD_modify]
  refine addState_forall (P := fun q s => s.entry = some y → q ∈ ite _ _ _) (fun hq hy => ?_)
    (fun hy => ?_) hq hy
  · have hmem := h.index_mem hq hy
    split
    · exact Array.mem_push_of_mem _ hmem
    · exact hmem
  · obtain rfl : x = y := Option.some.inj (hentry.symm.trans hy)
    rw [if_pos ⟨rfl, hcode⟩]
    exact Array.mem_push_self

/-- A new state may be made for a crossing that leads to no known one. -/
theorem Sound.addState (wf : g.WellFormed) (h : Sound g E w) {p : Nat} (hp : p < w.explored)
    {x : Symbol} {k : Kernel} (hcross : IsCrossing g (w.state p) x k)
    (hnone : w.lookup? (Analysis.ofGrammar g) x k = none) :
    Sound g (E.with p x w.states.size) (w.addState (Analysis.ofGrammar g) x k) := by
  have hlt : p < w.states.size := Nat.lt_of_lt_of_le hp h.explored_le
  have hk := crossing_sound wf (h.closed hlt) hcross
  obtain ⟨hsize, hother, hself⟩ := addState_spec (Analysis.ofGrammar g) w x k
  obtain ⟨hclosed, hentry, hsig, hmoves, -⟩ := ofKernel_spec wf hk (some x) rfl
  have hold : ∀ {q}, q < w.states.size → (w.addState (Analysis.ofGrammar g) x k).state q =
      w.state q := fun hq => hother _ (Nat.ne_of_lt hq)
  have hmono : ∀ {q y u}, E q y u → E.with p x w.states.size q y u := Or.inl
  have hnew : E.with p x w.states.size p x w.states.size := Or.inr ⟨rfl, rfl, rfl⟩
  -- a field about states is one fact about the old ones and one about the new one; a field about
  -- edges is one about `E`, whose ends are old, and one about the edge to the new state
  exact {
    pos := by omega
    explored_le := h.explored_le.trans (hsize ▸ Nat.le_succ _)
    closed := addState_forall (P := fun _ s => Closed g s) h.closed hclosed
    signed := addState_forall (P := fun _ s => s.Signed g) h.signed
      (signed_ofKernel wf hk (some x) rfl)
    start := by
      rw [hold h.pos]
      exact h.start
    distinct := h.distinct_addState hnone rfl hentry hsig
    moves_edge := fun {q u y} hmem => by
      have hq := lt_of_edge hmem
      exact addState_forall (P := fun q s => (y, u) ∈ s.moves → E.with p x w.states.size q y u)
        (fun _ hmem => hmono (h.moves_edge hmem))
        (fun hmem => absurd (hmoves ▸ hmem) (Array.not_mem_empty _)) hq hmem
    edge_explored := fun he => he.elim h.edge_explored fun he => he.1 ▸ hp
    edge_lt := fun he => by
      rcases he with he | ⟨-, -, rfl⟩
      · exact (h.edge_lt he).trans_le (hsize ▸ Nat.le_succ _)
      · exact hsize ▸ Nat.lt_succ_self _
    edge_entry := fun he => by
      rcases he with he | ⟨-, rfl, rfl⟩
      · rw [hold (h.edge_lt he)]
        exact h.edge_entry he
      · rw [hself, hentry]
    edge_nonempty := fun he => by
      rcases he with he | ⟨-, -, rfl⟩
      · rw [hold (h.edge_lt he)]
        exact h.edge_nonempty he
      · rw [hself, hsig]
        exact crossing_nonempty hcross
    edge_cores := fun he => by
      rcases he with he | ⟨rfl, rfl, rfl⟩
      · rw [hold (h.edge_lt he), hold (h.edge_src he)]
        exact h.edge_cores he
      · rw [hold hlt, hself, hsig]
        exact crossing_signature hcross
    reached := addState_forall (P := fun q _ => ∃ γ, Leads (E.with p x w.states.size) γ q)
      (fun hq => (h.reached hq).imp fun _ => Leads.mono hmono) (by
        obtain ⟨γ, hγ⟩ := h.reached hlt
        exact ⟨γ ++ [x], .snoc (hγ.mono hmono) hnew⟩)
    index_size := (Array.size_modify ..).trans h.index_size
    index_mem := h.index_addState (hcross.has wf) hentry
    justified := fun hg {q u c} hq => addState_forall (P := fun q s => s.Look c u →
        ∃ γ, Leads (E.with p x w.states.size) γ q ∧ LookaheadAt g γ c u)
      (fun hq hlook => (h.justified hg hq hlook).imp fun _ ⟨hγ, hat⟩ => ⟨hγ.mono hmono, hat⟩)
      (fun hlook => by
        obtain ⟨γ, hγ, hat⟩ := h.justified_behind wf hg hlt hcross rfl hlook
        exact ⟨γ ++ [x], .snoc (hγ.mono hmono) hnew, hat⟩) hq }

end Worklist

end Lalr
