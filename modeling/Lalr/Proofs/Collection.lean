/-
  The automaton is the canonical LR(0) collection.

  The state that a string of symbols leads to has exactly the items at that string
  (`Sound.has_iff_itemAt`), each state is reached, and states differ in their kernels.

  Two numbers have 16 bits.  The dot gets to every place of its rule only if the rule is short
  (`Grammar.IsShort`).  And a kernel is kept whole only if its size fits: it does if no symbol
  occurs more than 65535 times on the right-hand sides, since the items of a kernel are occurrences
  of the symbol by which the state is entered (`Sound.kernelHas_iff`).
-/
import Mathlib
import Lalr.Proofs.Build

namespace Lalr

open State

variable {g : Grammar}

/-- How often a symbol occurs on the right-hand sides of all rules, that of rule 0 included. -/
def Grammar.occurrences (g : Grammar) (x : Symbol) : Nat :=
  (g.rules.toList.map fun r => r.rhs.count x).sum

/-- A symbol does not occur more often than the right sides are long. -/
theorem Grammar.occurrences_le (g : Grammar) (x : Symbol) :
    g.occurrences x ≤ (g.rules.toList.map (·.rhs.length)).sum :=
  List.sum_le_sum fun _ _ => List.count_le_length

/-- The cores whose dot stands right behind the symbol. -/
def coresBehind (g : Grammar) (x : Symbol) : List Core :=
  (List.range g.rules.size).flatMap fun r =>
    ((g.rule r).rhs.zipIdx.filter (·.1 == x)).map fun e => ⟨r, e.2 + 1⟩

/-- There is one core behind each occurrence. -/
theorem length_coresBehind (g : Grammar) (x : Symbol) :
    (coresBehind g x).length = g.occurrences x := by
  rw [coresBehind, Grammar.occurrences, List.length_flatMap, g.toList_rules, List.map_map]
  congr 1
  refine List.map_congr_left fun r _ => ?_
  have hfst : ((g.rule r).rhs.zipIdx.map Prod.fst).countP (· == x) = (g.rule r).rhs.count x := by
    rw [List.zipIdx_map_fst, List.count]
  rw [List.countP_map] at hfst
  rw [List.length_map, ← List.countP_eq_length_filter]
  exact hfst

/-- A dot that is moved over a symbol stands behind an occurrence. -/
theorem succ_mem_coresBehind {b : Core} {x : Symbol} (h : b.next? g = some x) :
    b.succ ∈ coresBehind g x := by
  have hget : (g.rule b.rule).rhs[b.dot]? = some x := (Core.next?_eq_getElem? g b).symm.trans h
  refine List.mem_flatMap.mpr ⟨b.rule, List.mem_range.mpr (Core.rule_lt_of_next? h),
    List.mem_map.mpr ⟨(x, b.dot), List.mem_filter.mpr ⟨?_, by simp⟩, rfl⟩⟩
  exact List.mk_mem_zipIdx_iff_getElem?.mpr hget

/-- No symbols lead nowhere but to state 0. -/
theorem Leads.eq_zero {E : Edges} {p : Nat} (h : Leads E [] p) : p = 0 := by
  generalize hγ : ([] : List Symbol) = γ at h
  cases h with
  | nil => rfl
  | snoc => simp at hγ

/-- The last symbol is crossed last. -/
theorem Leads.of_snoc {E : Edges} {γ : List Symbol} {x : Symbol} {q : Nat}
    (h : Leads E (γ ++ [x]) q) : ∃ p, Leads E γ p ∧ E p x q := by
  generalize hγ : γ ++ [x] = γ' at h
  cases h with
  | nil => simp at hγ
  | snoc h he =>
    obtain ⟨rfl, hx⟩ := List.append_inj' hγ rfl
    injection hx with hx
    exact ⟨_, h, hx ▸ he⟩

namespace Worklist

variable {E : Edges} {w : Worklist}

/-- All states that are reached are there. -/
theorem Sound.lt_of_leads (h : Sound g E w) {γ : List Symbol} {p : Nat} (hγ : Leads E γ p) :
    p < w.states.size := by
  cases hγ with
  | nil => exact h.pos
  | snoc _ he => exact h.edge_lt he

/-- A kernel has no more items than its symbol has occurrences. -/
theorem Sound.length_signature_le (hg : g.IsShort) (h : Sound g E w) {p t : Nat} {x : Symbol}
    (he : E p x t) : (w.state t).signature.length ≤ g.occurrences x := by
  have hsub : (w.state t).signature ⊆ coresBehind g x := by
    intro c hc
    obtain ⟨b, -, hnext, rfl⟩ := (h.edge_signature he).mp hc
    exact Core.advance_eq (hg.core b) hnext ▸ succ_mem_coresBehind hnext
  have hnodup := (h.signed (h.edge_lt he)).nodup fun c _ => hg.core c
  have hlen := (hnodup.subperm hsub).length_le
  rw [length_coresBehind] at hlen
  exact hlen

/-- The kernel of a state has all cores of the signature, if they can be counted. -/
theorem Sound.kernelHas_iff_of_length (h : Sound g E w) {p : Nat} (hp : p < w.states.size)
    (hlen : (w.state p).signature.length < 65536) {c : Core} :
    (w.state p).KernelHas c ↔ c ∈ (w.state p).signature := by
  refine ⟨(h.signed hp).kernelHas, fun hc => ?_⟩
  obtain ⟨l, -, hsig, hkernel⟩ := h.signed hp
  rw [hsig, List.length_mergeSort] at hlen
  rw [kernelLimit, Nat.mod_eq_of_lt hlen, List.take_length] at hkernel
  rw [hsig, List.mem_mergeSort, ← hkernel] at hc
  obtain ⟨item, hmem, hcore⟩ := List.mem_map.mp hc
  exact ⟨item, Array.mem_toList_iff.mp hmem, hcore⟩

/-- The kernel of state 0 is rule 0 with the dot in front. -/
theorem Sound.kernelHas_start (h : Sound g E w) {c : Core} :
    (w.state 0).KernelHas c ↔ c = ⟨0, 0⟩ := by
  rw [h.kernelHas_iff_of_length h.pos (by rw [h.start.2]; decide), h.start.2, List.mem_singleton]

section

variable (hg : g.IsShort) (hocc : ∀ x, g.occurrences x ≤ 65535)
include hg hocc

/-- Kernels are small if no symbol occurs too often. -/
theorem Sound.length_signature_lt (h : Sound g E w) {p : Nat} (hp : p < w.states.size) :
    (w.state p).signature.length < 65536 := by
  rcases Nat.eq_zero_or_pos p with rfl | hpos
  · rw [h.start.2]
    decide
  · obtain ⟨q, x, he⟩ := h.entered hp hpos
    exact Nat.lt_succ_of_le ((h.length_signature_le hg he).trans (hocc x))

/-- If all kernels are kept, the kernel of a state is its signature. -/
theorem Sound.kernelHas_iff (h : Sound g E w) {p : Nat} (hp : p < w.states.size) {c : Core} :
    (w.state p).KernelHas c ↔ c ∈ (w.state p).signature :=
  h.kernelHas_iff_of_length hp (h.length_signature_lt hg hocc hp)

/-- The state that a string leads to has the items at the string. -/
theorem Sound.has_of_itemAt (wf : g.WellFormed) (h : Sound g E w) {γ : List Symbol} {c : Core}
    (hat : ItemAt g γ c) : ∀ {p : Nat}, Leads E γ p → (w.state p).Has c := by
  induction hat with
  | start =>
    intro p hγ
    rw [hγ.eq_zero]
    exact (h.kernelHas_start.mpr rfl).has
  | closure _ hnext hr hlhs ih =>
    intro p hγ
    have hclosed := h.closed (h.lt_of_leads hγ)
    exact (hclosed.has_iff wf).mpr (.rule ((hclosed.has_iff wf).mp (ih hγ)) hnext hr hlhs)
  | @advance γ c x _ hnext ih =>
    intro q hγ
    obtain ⟨p, hp, he⟩ := hγ.of_snoc
    have hmem := (h.edge_signature he).mpr
      ⟨c, ih hp, hnext, (Core.advance_eq (hg.core c) hnext).symm⟩
    exact ((h.kernelHas_iff hg hocc (h.edge_lt he)).mpr hmem).has

/-- The items of a state are those of the strings that lead to it. -/
theorem Sound.has_iff_itemAt (wf : g.WellFormed) (h : Sound g E w) {γ : List Symbol} {p : Nat}
    (hγ : Leads E γ p) {c : Core} : (w.state p).Has c ↔ ItemAt g γ c :=
  ⟨h.itemAt wf hg hγ, fun hat => h.has_of_itemAt hg hocc wf hat hγ⟩

end

end Worklist

/-! ## The automaton

  The notions of the collection are named here, for the statement does not speak of worklists:
  states, moves, and what it is to have the items of a string. -/

namespace Automaton

/-- State `p`. -/
def state (automaton : Automaton) (p : Nat) : State :=
  automaton.states.getD p default

/-- Symbol `x` leads from state `p` to state `q`. -/
def edge (automaton : Automaton) : Edges :=
  fun p x q => (x, q) ∈ (automaton.state p).moves

/-- The states are the canonical LR(0) collection of the grammar. -/
structure IsCollection (automaton : Automaton) (g : Grammar) : Prop where
  /-- no two states have the same kernel -/
  distinct : ∀ {p q : Nat}, p < automaton.states.size → q < automaton.states.size →
    (∀ c, (automaton.state p).KernelHas c ↔ (automaton.state q).KernelHas c) → p = q
  /-- no core is twice in a state -/
  nodup : ∀ {p : Nat}, p < automaton.states.size →
    ((automaton.state p).items.toList.map (·.core)).Nodup
  /-- the kernel of state 0 is `$start : . start $end` -/
  start : 0 < automaton.states.size ∧ (automaton.state 0).entry = none ∧
    ∀ c, (automaton.state 0).KernelHas c ↔ c = ⟨0, 0⟩
  /-- a state has a move on the symbols after its dots, and on no other -/
  moves_iff : ∀ {p : Nat} {x : Symbol}, p < automaton.states.size →
    ((∃ q, automaton.edge p x q) ↔ ∃ c, (automaton.state p).Has c ∧ c.next? g = some x)
  /-- there is one move on a symbol at most -/
  unique : ∀ {p q q' : Nat} {x : Symbol}, automaton.edge p x q → automaton.edge p x q' → q = q'
  /-- it leads to the state that has the items moved over the symbol, and is entered by it -/
  target : ∀ {p q : Nat} {x : Symbol}, automaton.edge p x q → q < automaton.states.size ∧
    (automaton.state q).entry = some x ∧ ∀ c, (automaton.state q).KernelHas c ↔
      ∃ b, (automaton.state p).Has b ∧ b.next? g = some x ∧ c = b.succ
  /-- every state is reached -/
  reached : ∀ {p : Nat}, p < automaton.states.size → ∃ γ, Leads automaton.edge γ p
  /-- the items of a state are those at the strings that lead to it -/
  items : ∀ {p : Nat} {γ : List Symbol}, Leads automaton.edge γ p →
    ∀ c, (automaton.state p).Has c ↔ ItemAt g γ c

/-- All of it, for an automaton that the work has come to its end on. -/
theorem isCollection (wf : g.WellFormed) {automaton : Automaton}
    (h : Worklist.Inv g automaton.worklist) (hg : g.IsShort) (hocc : ∀ x, g.occurrences x ≤ 65535) :
    automaton.IsCollection g where
  distinct {p q} hp hq hsame := by
    refine h.sound.eq_of_signature hg wf hp hq fun c => ?_
    rw [← h.sound.kernelHas_iff hg hocc hp, ← h.sound.kernelHas_iff hg hocc hq]
    exact hsame c
  nodup hp := ((h.sound.closed hp).distinct wf).nodup hg
  start := ⟨h.sound.pos, h.sound.start.1, fun _ => h.sound.kernelHas_start⟩
  moves_iff {p x} hp := by
    exact ⟨fun ⟨q, he⟩ => h.sound.exists_next he, fun ⟨c, hc, hnext⟩ => h.moved hp hc hnext⟩
  unique := h.sound.edge_unique
  target {p q x} he := by
    refine ⟨h.sound.edge_lt he, h.sound.edge_entry he, fun c => ?_⟩
    refine (h.sound.kernelHas_iff hg hocc (h.sound.edge_lt he)).trans
      ((h.sound.edge_signature he).trans ?_)
    refine exists_congr fun b => and_congr_right fun _ => and_congr_right fun hnext => ?_
    rw [Core.advance_eq (hg.core b) hnext]
  reached := h.sound.reached
  items hγ c := h.sound.has_iff_itemAt hg hocc wf hγ

end Automaton

/-- The automaton of a grammar with short rules is the canonical LR(0) collection, begun with rule
    0, `$start : start $end`. -/
theorem canonical_collection {d : Declarations} {settings : Settings} {c : Construction}
    (h : d.build settings = .ok c) (hshort : c.grammar.IsShort)
    (hocc : ∀ x, c.grammar.occurrences x ≤ 65535) :
    c.grammar.rule 0 = c.grammar.alphabet.startRule d.startSymbol ∧
      c.automaton.IsCollection c.grammar :=
  ⟨(Declarations.build_spec h).1.rule_zero.1,
    Automaton.isCollection (Construction.wellFormed h) (Construction.automaton_inv h) hshort
      hocc⟩

/-- The right sides of sums have seven symbols together. -/
theorem sums_occurrences_le (x : Symbol) : sumsGrammar.occurrences x ≤ 65535 :=
  (sumsGrammar.occurrences_le x).trans (by decide)

/-- The theorem for sums. -/
theorem canonical_collection_sums : ∃ c, sums.build = .ok c ∧ c.grammar.IsShort ∧
    (∀ x, c.grammar.occurrences x ≤ 65535) ∧ c.automaton.IsCollection c.grammar :=
  ⟨_, sums_build, sums_isShort, sums_occurrences_le,
    (canonical_collection sums_build sums_isShort sums_occurrences_le).2⟩

end Lalr
