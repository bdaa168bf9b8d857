/-
  The lookaheads inside a state are the least ones.

  `Flow` says by rules what belongs into a slot of a closure: what a kernel item brings, what can
  begin the rest of an item behind the nonterminal after its dot, and, where that rest can vanish,
  what belongs into the slot of the item itself.  `spread` computes exactly that
  (`mem_spread_iff`):

    1. the seeds are the facts of the first two kinds (`seeds_spec`);
    2. a pass over the edges adds nothing but facts of the third kind, and reports exactly whether
       it added any (`followEdges_reports`);
    3. every pass hands a terminal on to one slot more, unless no edge is left to hand it on
       (`Advanced.pass`).  So there are at most as many passes as slots and one, whatever the kernel
       brings (`spread_stabilizes`);
    4. a report of no change means that every edge is obeyed, so all facts are there.

  Slots of the kernel are the source of edges, never their target.
-/
import Mathlib
import Lalr.ItemSet
import Lalr.Construction
import Lalr.Proofs.Closure
import Lalr.Proofs.First

namespace Lalr

open SymbolSet

variable {g : Grammar} {items : Array Item} {c : Closure}

/-- The item's next nonterminal has the slot `dst`, and `beta` is what stands behind it. -/
def Sends (g : Grammar) (c : Closure) (item : Item) (dst : Nat) (beta : List Symbol) : Prop :=
  ∃ b, item.core.afterDot g = .nonterminal b :: beta ∧ c.slot? b = some dst

/-- Terminal `t` belongs into slot `s` of the closure, if the kernel items have these lookaheads. -/
inductive Flow (g : Grammar) (c : Closure) (kernel : Array SymbolSet) : Nat → Nat → Prop
  | given {s t : Nat} (h : InTable kernel s t) : Flow g c kernel s t
  | first {item : Item} {s t : Nat} {beta : List Symbol} (hmem : item ∈ c.items)
      (hsend : Sends g c item s beta) (h : g.Begins t beta) : Flow g c kernel s t
  | inherit {item : Item} {s t : Nat} {beta : List Symbol} (hmem : item ∈ c.items)
      (hsend : Sends g c item s beta) (hv : g.Vanishes beta) (h : Flow g c kernel item.slot t) :
      Flow g c kernel s t

theorem SymbolSet.inTable_take {sets : Array SymbolSet} {n i t : Nat} :
    InTable (sets.take n) i t ↔ i < n ∧ InTable sets i t := by
  rw [InTable, Array.getD_eq_getD_getElem?, Array.take_eq_extract, Array.getElem?_extract]
  by_cases hi : i < n
  · by_cases hs : i < sets.size
    · simp [hi, hs, InTable]
    · simp [hi, hs, InTable]
  · rw [if_neg (by omega)]
    simp [hi]

theorem SymbolSet.getElem_mem_iff {sets : Array SymbolSet} {i t : Nat} (hi : i < sets.size) :
    t ∈ sets[i] ↔ InTable sets i t := by
  rw [InTable, Array.getD_eq_getD_getElem?, Array.getElem?_eq_getElem hi]
  rfl

/-- What is sent goes to the slots past the kernel's. -/
theorem Sends.range (hc : IsClosure g items c) {item : Item} {dst : Nat} {beta : List Symbol}
    (h : Sends g c item dst beta) : items.size ≤ dst ∧ dst < c.slots := by
  obtain ⟨b, -, hb⟩ := h
  exact hc.isPartial.slot_range hb

/-- An item sends into the slot of its next nonterminal, and what it sends comes from the symbols
    behind that. -/
theorem exists_sends_iff {item : Item} {b d : Nat} {beta : List Symbol} {P : List Symbol → Prop}
    (hafter : item.core.afterDot g = .nonterminal b :: beta) :
    (∃ beta', Sends g c item d beta' ∧ P beta') ↔ c.slot? b = some d ∧ P beta := by
  constructor
  · rintro ⟨beta', ⟨b', hafter', hb'⟩, hP⟩
    have heq : Symbol.nonterminal b :: beta = .nonterminal b' :: beta' := hafter.symm.trans hafter'
    injection heq with h1 h2
    injection h1 with h1
    exact ⟨h1 ▸ hb', h2 ▸ hP⟩
  · rintro ⟨hb, hP⟩
    exact ⟨beta, ⟨b, hafter, hb⟩, hP⟩

/-- A kernel slot holds what the kernel item brings. -/
theorem Flow.of_kernel (hc : IsClosure g items c) {kernel : Array SymbolSet} {s t : Nat}
    (h : Flow g c kernel s t) (hs : s < items.size) : InTable kernel s t := by
  cases h with
  | given h => exact h
  | first _ hsend _ => exact absurd (hsend.range hc).1 (by omega)
  | inherit _ hsend _ _ => exact absurd (hsend.range hc).1 (by omega)

/-- Only terminals flow. -/
theorem Flow.lt_terminalCount (wf : g.WellFormed) {kernel : Array SymbolSet}
    (hk : ∀ i t, InTable kernel i t → t < g.terminalCount) {s t : Nat}
    (h : Flow g c kernel s t) : t < g.terminalCount := by
  induction h with
  | given h => exact hk _ _ h
  | @first item s t beta _ hsend h =>
    obtain ⟨b, hafter, -⟩ := hsend
    have hr := Core.rule_lt_of_next? (Core.next?_eq_some.mpr ⟨beta, hafter⟩)
    refine wf.begins_lt h fun x hx => wf.rhs_has hr x ?_
    have hdrop : x ∈ item.core.afterDot g := hafter ▸ List.mem_cons_of_mem _ hx
    rw [Core.afterDot_eq] at hdrop
    exact List.mem_of_mem_drop hdrop
  | inherit _ _ _ _ ih => exact ih

/-! ## Seeds

  What an item puts into the slot of the nonterminal after its dot: what can begin the rest behind
  it, and an edge for its own lookahead if that rest can vanish. -/

namespace State

/-- What one item puts into its slot, and the edge it adds. -/
theorem seed_spec (wf : g.WellFormed) (hc : IsClosure g items c)
    (acc : Array SymbolSet × Array Edge)
    (hsize : acc.1.size = c.slots) (item : Item) :
    (seed (Analysis.ofGrammar g) c.slotOf acc item).1.size = c.slots ∧
      (∀ s t, InTable (seed (Analysis.ofGrammar g) c.slotOf acc item).1 s t ↔
        InTable acc.1 s t ∨ ∃ beta, Sends g c item s beta ∧ g.Begins t beta) ∧
      ∀ d s, (d, s) ∈ (seed (Analysis.ofGrammar g) c.slotOf acc item).2 ↔
        (d, s) ∈ acc.2 ∨ ∃ beta, Sends g c item d beta ∧ g.Vanishes beta ∧ s = item.slot := by
  unfold seed
  split
  · rename_i b beta hafter
    have hafter : item.core.afterDot g = .nonterminal b :: beta := hafter
    -- it sends to one slot at most, that of the nonterminal after its dot
    simp only [exists_sends_iff hafter]
    split
    · rename_i hnone
      have hslot : c.slot? b = none := hnone
      simp [hslot, hsize]
    · rename_i dst hdst
      have hslot : c.slot? b = some dst := hdst
      have hlt : dst < acc.1.size := by
        rw [hsize]
        exact (hc.isPartial.slot_range hslot).2
      obtain ⟨hfirst, hvanish⟩ := Firsts.ofSymbols_spec wf beta
      simp only [hslot, Option.some.injEq]
      refine ⟨by simpa using hsize, fun s t => ?_, fun d s => ?_⟩
      · show t ∈ (acc.1.modify dst _).getD s ∅ ↔ _
        rw [getD_modify]
        by_cases hs : dst = s
        · rw [if_pos ⟨hs, hs ▸ hlt⟩, mem_union, and_iff_right hs]
          exact or_congr Iff.rfl (hfirst t)
        · rw [if_neg fun h => hs h.1]
          simp [hs, InTable]
      · show (d, s) ∈ (if ((Firsts.ofGrammar g).ofSymbols beta ∅).2 = true then
            acc.2.push (dst, item.slot) else acc.2) ↔ _
        rw [← hvanish]
        split
        · rename_i hv
          rw [Array.mem_push, Prod.mk.injEq, eq_comm (a := d), and_iff_right hv]
        · rename_i hv
          simp [hv]
  · rename_i hnot
    -- no nonterminal stands after the dot, so nothing is sent
    have hsends : ∀ d beta, ¬ Sends g c item d beta :=
      fun d beta ⟨b, hafter, _⟩ => hnot b beta hafter
    simp [hsends, hsize]

/-- What all items put into the slots, and the edges that they add. -/
theorem foldl_seed_spec (wf : g.WellFormed) (hc : IsClosure g items c) (l : List Item)
    (acc : Array SymbolSet × Array Edge) (hsize : acc.1.size = c.slots) :
    (l.foldl (seed (Analysis.ofGrammar g) c.slotOf) acc).1.size = c.slots ∧
      (∀ s t, InTable (l.foldl (seed (Analysis.ofGrammar g) c.slotOf) acc).1 s t ↔
        InTable acc.1 s t ∨ ∃ item ∈ l, ∃ beta, Sends g c item s beta ∧ g.Begins t beta) ∧
      ∀ d s, (d, s) ∈ (l.foldl (seed (Analysis.ofGrammar g) c.slotOf) acc).2 ↔
        (d, s) ∈ acc.2 ∨
          ∃ item ∈ l, ∃ beta, Sends g c item d beta ∧ g.Vanishes beta ∧ s = item.slot := by
  induction l generalizing acc with
  | nil => simp [hsize]
  | cons item l ih =>
    obtain ⟨hsize', hsets, hedges⟩ := seed_spec wf hc acc hsize item
    obtain ⟨h1, h2, h3⟩ := ih _ hsize'
    refine ⟨h1, fun s t => ?_, fun d s => ?_⟩
    · rw [List.foldl_cons, h2, hsets, or_assoc]
      simp
    · rw [List.foldl_cons, h3, hedges, or_assoc]
      simp

/-! ## Passes over the edges

  A pass follows all edges, in the order in which they were noted.  It may take several, since an
  edge may be followed before its source is filled. -/

/-- One edge of a pass. -/
def followEdge (acc : Array SymbolSet × Bool) (edge : Edge) : Array SymbolSet × Bool :=
  ((absorbAt acc.1 edge.1 edge.2).1, acc.2 || (absorbAt acc.1 edge.1 edge.2).2)

theorem followEdges_eq (edges : Array Edge) (sets : Array SymbolSet) :
    followEdges edges sets = edges.toList.foldl followEdge (sets, false) := by
  rw [Array.foldl_toList]
  rfl

/-- The facts that a table tells: which terminal is in which slot. -/
def HasFact (sets : Array SymbolSet) (fact : Nat × Nat) : Prop :=
  InTable sets fact.1 fact.2

/-- There are `n` slots, and what is in them is allowed by `P`. -/
structure Within (n : Nat) (P : Nat → Nat → Prop) (sets : Array SymbolSet) : Prop where
  size : sets.size = n
  allowed : ∀ s t, InTable sets s t → P s t

section

variable {n : Nat} {P : Nat → Nat → Prop} {acc : Array SymbolSet × Bool}

/-- One edge keeps every fact, and what the edge hands on is allowed; its report is exact. -/
theorem followEdge_reports {edge : Edge} (hdst : edge.1 < n) (hP : ∀ t, P edge.2 t → P edge.1 t)
    (h : Within n P acc.1) :
    Within n P (followEdge acc edge).1 ∧ ReportsNew HasFact acc (followEdge acc edge) := by
  rw [← h.size] at hdst
  refine ⟨⟨(size_absorbAt ..).trans h.size, fun s t ht => ?_⟩, ⟨fun fact hfact => ?_, ?_⟩⟩
  · rcases (inTable_absorbAt hdst).mp ht with hold | ⟨rfl, hsrc⟩
    · exact h.allowed s t hold
    · exact hP t (h.allowed _ t hsrc)
  · exact (inTable_absorbAt hdst).mpr (Or.inl hfact)
  · have hgrew : (absorbAt acc.1 edge.1 edge.2).2 = true ↔
        ∃ s t, InTable (absorbAt acc.1 edge.1 edge.2).1 s t ∧ ¬ InTable acc.1 s t :=
      absorbAt_grew hdst
    rw [followEdge, Bool.or_eq_true, hgrew, Prod.exists]
    rfl

/-- Following edges keeps to what may flow, and reports exactly whether anything is new. -/
theorem foldl_followEdge_reports {edges : List Edge}
    (hedges : ∀ edge ∈ edges, edge.1 < n ∧ ∀ t, P edge.2 t → P edge.1 t) (h : Within n P acc.1) :
    Within n P (edges.foldl followEdge acc).1 ∧
      ReportsNew HasFact acc (edges.foldl followEdge acc) :=
  ReportsNew.foldl (fun edge hmem _ hacc =>
    followEdge_reports (hedges edge hmem).1 (hedges edge hmem).2 hacc) h

/-- An edge that was followed without a report had nothing to hand on. -/
theorem followEdge_stayed {edge : Edge} (h : (followEdge acc edge).2 = false) :
    acc.2 = false ∧ (followEdge acc edge).1 = acc.1 ∧
      ∀ t, InTable acc.1 edge.2 t → InTable acc.1 edge.1 t := by
  rw [followEdge, Bool.or_eq_false_iff] at h
  obtain ⟨hsame, hsub⟩ := absorbAt_eq_of_stayed h.2
  exact ⟨h.1, hsame, hsub⟩

end

section

variable {edges : Array Edge} {sets : Array SymbolSet}

/-- A pass over the edges keeps every fact and any property that the edges hand on, and its report
    is exact. -/
theorem followEdges_reports {P : Nat → Nat → Prop}
    (hedges : ∀ edge ∈ edges.toList, edge.1 < sets.size)
    (hP : ∀ edge ∈ edges.toList, ∀ t, P edge.2 t → P edge.1 t)
    (hsets : ∀ s t, InTable sets s t → P s t) :
    Within sets.size P (followEdges edges sets).1 ∧
      ReportsNew HasFact (sets, false) (followEdges edges sets) := by
  rw [followEdges_eq]
  exact foldl_followEdge_reports (fun edge hmem => ⟨hedges edge hmem, hP edge hmem⟩) ⟨rfl, hsets⟩

theorem followEdges_keeps (hedges : ∀ edge ∈ edges.toList, edge.1 < sets.size) :
    (followEdges edges sets).1.size = sets.size ∧
      ReportsNew HasFact (sets, false) (followEdges edges sets) := by
  obtain ⟨hwithin, hreport⟩ := followEdges_reports (P := fun _ _ => True) hedges
    (fun _ _ _ => id) (fun _ _ _ => trivial)
  exact ⟨hwithin.size, hreport⟩

/-- Where it reports nothing, nothing is left to hand on. -/
theorem followEdges_stayed (h : (followEdges edges sets).2 = false) :
    (followEdges edges sets).1 = sets ∧
      ∀ edge ∈ edges.toList, ∀ t, InTable sets edge.2 t → InTable sets edge.1 t := by
  rw [followEdges_eq] at h ⊢
  exact (foldl_stayed (Q := fun (sets : Array SymbolSet) (edge : Edge) =>
    ∀ t, InTable sets edge.2 t → InTable sets edge.1 t) followEdge_stayed h).2

/-- A pass hands on what stands at the source of an edge before it. -/
theorem followEdges_delivers (hedges : ∀ edge ∈ edges.toList, edge.1 < sets.size) {edge : Edge}
    (hmem : edge ∈ edges.toList) {t : Nat} (ht : InTable sets edge.2 t) :
    InTable (followEdges edges sets).1 edge.1 t := by
  have hall : ∀ e ∈ edges.toList, e.1 < sets.size ∧ ∀ t : Nat, True → True :=
    fun e he => ⟨hedges e he, fun _ => id⟩
  rw [followEdges_eq]
  obtain ⟨before, behind, heq⟩ := List.append_of_mem hmem
  rw [heq] at hall ⊢
  rw [List.foldl_append, List.foldl_cons]
  -- the fact is still there when the edge is reached, and what the edge makes of it stays
  have hstart : Within sets.size (fun _ _ => True) (sets, false).1 := ⟨rfl, fun _ _ _ => trivial⟩
  obtain ⟨hbefore, hkept⟩ :=
    foldl_followEdge_reports (fun e he => hall e (List.mem_append_left _ he)) hstart
  have hdst := hall edge (List.mem_append_right _ List.mem_cons_self)
  obtain ⟨hedge, -⟩ := followEdge_reports hdst.1 hdst.2 hbefore
  obtain ⟨-, hbehind⟩ := foldl_followEdge_reports
    (fun e he => hall e (List.mem_append_right _ (List.mem_cons_of_mem _ he))) hedge
  refine hbehind.keeps (edge.1, t)
    ((inTable_absorbAt (hbefore.size ▸ hdst.1)).mpr (Or.inr ⟨rfl, ?_⟩))
  exact hkept.keeps (edge.2, t) ht

end

/-! ## How far a pass gets

  A terminal that is still on its way gets into one slot more with each pass.  There are only so
  many slots, so after as many passes nothing is on its way. -/

/-- Every edge has handed terminal `t` on. -/
def Delivered (edges : Array Edge) (sets : Array SymbolSet) (t : Nat) : Prop :=
  ∀ edge ∈ edges.toList, InTable sets edge.2 t → InTable sets edge.1 t

/-- The slots that have terminal `t`. -/
def holders (sets : Array SymbolSet) (t : Nat) : Finset Nat :=
  (Finset.range sets.size).filter fun s => t ∈ sets.getD s ∅

/-- Each terminal has been handed on by every edge, or has reached `k` slots. -/
def Advanced (edges : Array Edge) (k : Nat) (sets : Array SymbolSet) : Prop :=
  ∀ t, Delivered edges sets t ∨ k ≤ (holders sets t).card

section

variable {edges : Array Edge} {sets : Array SymbolSet} {t : Nat}
  (hedges : ∀ edge ∈ edges.toList, edge.1 < sets.size)
include hedges

/-- A terminal that every edge has handed on stays where it is. -/
theorem Delivered.stays (h : Delivered edges sets t) {s : Nat}
    (hs : InTable (followEdges edges sets).1 s t) : InTable sets s t := by
  have hhanded : ∀ edge ∈ edges.toList, ∀ u, (u = t → InTable sets edge.2 u) →
      u = t → InTable sets edge.1 u := by
    rintro edge hmem u hsrc rfl
    exact h edge hmem (hsrc rfl)
  exact (followEdges_reports (P := fun s u => u = t → InTable sets s u) hedges hhanded
    fun _ _ hin _ => hin).1.allowed s t hs rfl

/-- The step: a pass hands a terminal on to one slot more, if an edge is left to do so. -/
theorem Advanced.pass {k : Nat} (h : Advanced edges k sets) :
    Advanced edges (k + 1) (followEdges edges sets).1 := by
  obtain ⟨hsize, hreport⟩ := followEdges_keeps hedges
  have hmono : ∀ s t, InTable sets s t → InTable (followEdges edges sets).1 s t :=
    fun s t => hreport.keeps (s, t)
  intro t
  by_cases hdelivered : Delivered edges sets t
  · left
    intro edge hmem hsrc
    exact hmono _ _ (hdelivered edge hmem (hdelivered.stays hedges hsrc))
  · right
    have hk : k ≤ (holders sets t).card := (h t).resolve_left hdelivered
    -- some edge leads from a slot that has the terminal to one that has not
    obtain ⟨edge, hmem, hsrc, hdst⟩ : ∃ edge ∈ edges.toList, InTable sets edge.2 t ∧
        ¬ InTable sets edge.1 t := by
      simpa [Delivered] using hdelivered
    have hnew := followEdges_delivers hedges hmem hsrc
    refine Nat.lt_of_le_of_lt hk (Finset.card_lt_card ⟨fun s hs => ?_, fun hsub => hdst ?_⟩)
    · obtain ⟨hlt, hs⟩ := Finset.mem_filter.mp hs
      exact Finset.mem_filter.mpr ⟨hsize ▸ hlt, hmono _ _ hs⟩
    · have hlt : edge.1 ∈ Finset.range (followEdges edges sets).1.size := by
        rw [hsize]
        exact Finset.mem_range.mpr (hedges edge hmem)
      exact (Finset.mem_filter.mp (hsub (Finset.mem_filter.mpr ⟨hlt, hnew⟩))).2

/-- When a terminal that is still handed on has reached all slots, nothing is left to hand on. -/
theorem Advanced.stops (h : Advanced edges sets.size sets) :
    (followEdges edges sets).2 = false := by
  have hall : ∀ t, Delivered edges sets t := by
    intro t
    rcases h t with hdelivered | hcard
    · exact hdelivered
    · intro edge hmem _
      have hfull : holders sets t = Finset.range sets.size :=
        Finset.eq_of_subset_of_card_le (Finset.filter_subset _ _) (by rwa [Finset.card_range])
      have hin : edge.1 ∈ holders sets t := hfull ▸ Finset.mem_range.mpr (hedges edge hmem)
      exact (Finset.mem_filter.mp hin).2
  by_contra hgrew
  rw [Bool.not_eq_false] at hgrew
  obtain ⟨⟨s, t⟩, hin, hout⟩ := (followEdges_keeps hedges).2.new_iff.mp hgrew
  exact hout ((hall t).stays hedges hin)

end

/-! ## The fixed point

  The slots lie between the seeds and what may flow.  At the end every edge is obeyed, so they
  are what may flow. -/

/-- The slots of a closure and the edges between them before the first pass. -/
def seeds (a : Analysis) (c : Closure) (kernel : Array SymbolSet) : Array SymbolSet × Array Edge :=
  c.items.foldl (seed a c.slotOf) (kernel ++ Array.replicate (c.slots - kernel.size) ∅, #[])

/-- The slots have the seeds, and nothing that does not belong there. -/
structure Between (g : Grammar) (c : Closure) (kernel sets : Array SymbolSet) : Prop where
  size : sets.size = c.slots
  seeds_le : ∀ s t, InTable (seeds (Analysis.ofGrammar g) c kernel).1 s t → InTable sets s t
  flow : ∀ s t, InTable sets s t → Flow g c kernel s t

section

variable (wf : g.WellFormed) (hc : IsClosure g items c) {kernel : Array SymbolSet}
  (hsize : kernel.size = items.size)
include wf hc hsize

/-- What there is before the first pass. -/
theorem seeds_spec : (seeds (Analysis.ofGrammar g) c kernel).1.size = c.slots ∧
    (∀ s t, InTable (seeds (Analysis.ofGrammar g) c kernel).1 s t ↔ InTable kernel s t ∨
      ∃ item ∈ c.items, ∃ beta, Sends g c item s beta ∧ g.Begins t beta) ∧
    ∀ d s, (d, s) ∈ (seeds (Analysis.ofGrammar g) c kernel).2 ↔
      ∃ item ∈ c.items, ∃ beta, Sends g c item d beta ∧ g.Vanishes beta ∧ s = item.slot := by
  have hle := hc.isPartial.slots_le
  obtain ⟨h1, h2, h3⟩ := foldl_seed_spec wf hc c.items.toList
    (kernel ++ Array.replicate (c.slots - kernel.size) ∅, #[]) (by simp; omega)
  rw [Array.foldl_toList] at h1 h2 h3
  refine ⟨h1, fun s t => (h2 s t).trans (or_congr ?_ (by simp)),
    fun d s => (h3 d s).trans (by simp)⟩
  show t ∈ (kernel ++ Array.replicate (c.slots - kernel.size) ∅).getD s ∅ ↔ t ∈ kernel.getD s ∅
  by_cases hs : s < kernel.size
  · simp [Array.getElem?_append_left hs]
  · rw [getD_of_size_le _ (Nat.le_of_not_lt hs), Array.getD_eq_getD_getElem?,
      Array.getElem?_append_right (Nat.le_of_not_lt hs), ← Array.getD_eq_getD_getElem?,
      getD_replicate]

/-- Edges lead into slots. -/
theorem edges_lt {edge : Edge} (hmem : edge ∈ (seeds (Analysis.ofGrammar g) c kernel).2.toList) :
    edge.1 < c.slots := by
  obtain ⟨-, -, hedges⟩ := seeds_spec wf hc hsize
  obtain ⟨item, -, beta, hsend, -⟩ := (hedges edge.1 edge.2).mp (Array.mem_toList_iff.mp hmem)
  exact (hsend.range hc).2

/-- It lies between nothing and everything. -/
theorem Between.start : Between g c kernel (seeds (Analysis.ofGrammar g) c kernel).1 := by
  obtain ⟨hseeds, hfacts, -⟩ := seeds_spec wf hc hsize
  refine ⟨hseeds, fun _ _ => id, fun s t h => ?_⟩
  rcases (hfacts s t).mp h with h | ⟨item, hmem, beta, hsend, hb⟩
  · exact .given h
  · exact .first hmem hsend hb

variable {sets : Array SymbolSet}

/-- What a pass does to such slots. -/
theorem Between.followEdges_spec (h : Between g c kernel sets) :
    Between g c kernel (followEdges (seeds (Analysis.ofGrammar g) c kernel).2 sets).1 ∧
      ((followEdges (seeds (Analysis.ofGrammar g) c kernel).2 sets).2 = false →
        (followEdges (seeds (Analysis.ofGrammar g) c kernel).2 sets).1 = sets ∧
          ∀ d s, (d, s) ∈ (seeds (Analysis.ofGrammar g) c kernel).2 →
            ∀ t, InTable sets s t → InTable sets d t) := by
  obtain ⟨-, -, hedges⟩ := seeds_spec wf hc hsize
  have hdst : ∀ edge ∈ (seeds (Analysis.ofGrammar g) c kernel).2.toList, edge.1 < sets.size := by
    intro edge hmem
    rw [h.size]
    exact edges_lt wf hc hsize hmem
  -- an edge stands for what flows over a part that vanishes
  have hflow : ∀ edge ∈ (seeds (Analysis.ofGrammar g) c kernel).2.toList, ∀ t,
      Flow g c kernel edge.2 t → Flow g c kernel edge.1 t := by
    intro edge hmem t ht
    obtain ⟨item, hitem, beta, hsend, hv, heq⟩ :=
      (hedges edge.1 edge.2).mp (Array.mem_toList_iff.mp hmem)
    exact .inherit hitem hsend hv (heq ▸ ht)
  obtain ⟨hwithin, hreport⟩ := followEdges_reports hdst hflow h.flow
  refine ⟨⟨hwithin.size.trans h.size, fun s t hs => hreport.keeps (s, t) (h.seeds_le s t hs),
    hwithin.allowed⟩, fun hstay => ?_⟩
  obtain ⟨hsame, hobeyed⟩ := followEdges_stayed hstay
  exact ⟨hsame, fun d s hmem => hobeyed (d, s) (Array.mem_toList_iff.mpr hmem)⟩

/-- The passes over the edges come to an end. -/
theorem spread_stabilizes :
    Stabilizes (followEdges (seeds (Analysis.ofGrammar g) c kernel).2)
      (seeds (Analysis.ofGrammar g) c kernel).1 (spread (Analysis.ofGrammar g) c kernel) := by
  have hsymbols : 0 < g.alphabet.size :=
    Nat.lt_of_lt_of_le (wf.rhs_has wf.rules_pos (.terminal 0) (by simp [wf.rhs_zero]))
      (Nat.le_add_right _ _)
  have hdst : ∀ sets, Between g c kernel sets →
      ∀ edge ∈ (seeds (Analysis.ofGrammar g) c kernel).2.toList, edge.1 < sets.size := by
    intro sets h edge hmem
    rw [h.size]
    exact edges_lt wf hc hsize hmem
  refine untilStable_stabilizes_of_steps _ (fun k sets => Between g c kernel sets ∧
      Advanced (seeds (Analysis.ofGrammar g) c kernel).2 k sets) c.slots (fun k sets h => ?_)
    (fun sets h => ?_) (c.slots * g.alphabet.size + 1) 0 _ ⟨.start wf hc hsize, ?_⟩
    (Nat.zero_le _) ?_
  · exact ⟨(h.1.followEdges_spec wf hc hsize).1, h.2.pass (hdst sets h.1)⟩
  · exact Advanced.stops (hdst sets h.1) (h.1.size ▸ h.2)
  · exact fun t => Or.inr (Nat.zero_le _)
  · have hle : c.slots ≤ c.slots * g.alphabet.size := Nat.le_mul_of_pos_right _ hsymbols
    omega

/-- The lookaheads of a closure are those that belong into its slots. -/
theorem mem_spread_iff : (spread (Analysis.ofGrammar g) c kernel).size = c.slots ∧
    ∀ s t, InTable (spread (Analysis.ofGrammar g) c kernel) s t ↔ Flow g c kernel s t := by
  obtain ⟨-, hfacts, hedges⟩ := seeds_spec wf hc hsize
  obtain ⟨sets, h, hstay, heq⟩ := (spread_stabilizes wf hc hsize).exists_last
    (fun sets (h : Between g c kernel sets) => (h.followEdges_spec wf hc hsize).1)
    (.start wf hc hsize)
  obtain ⟨hsame, hobeyed⟩ := (h.followEdges_spec wf hc hsize).2 hstay
  rw [heq, hsame]
  refine ⟨h.size, fun s t => ⟨h.flow s t, fun hflow => ?_⟩⟩
  induction hflow with
  | given hin => exact h.seeds_le _ _ ((hfacts _ _).mpr (Or.inl hin))
  | first hmem hsend hb => exact h.seeds_le _ _ ((hfacts _ _).mpr (Or.inr ⟨_, hmem, _, hsend, hb⟩))
  | @inherit item s t beta hmem hsend hv _ ih =>
    exact hobeyed s item.slot ((hedges _ _).mpr ⟨item, hmem, beta, hsend, hv, rfl⟩) t ih

/-- Spreading the lookaheads does not change those of the kernel. -/
theorem take_spread : (spread (Analysis.ofGrammar g) c kernel).take items.size = kernel := by
  obtain ⟨hspread, hflow⟩ := mem_spread_iff wf hc hsize
  have hle := hc.isPartial.slots_le
  apply Array.ext
  · rw [Array.take_eq_extract, Array.size_extract, hspread, hsize]
    omega
  · intro i h1 h2
    refine SymbolSet.ext fun t => ?_
    rw [getElem_mem_iff, getElem_mem_iff, inTable_take, hflow]
    rw [hsize] at h2
    exact ⟨fun ht => ht.2.of_kernel hc h2, fun ht => ⟨h2, .given ht⟩⟩

end

end State

end Lalr
