/-
  The lookaheads are exactly LALR(1).

  A terminal is in the lookahead of an item of a state if and only if it is one at some string that
  leads to the state.

    1. Nothing is extra: the invariant of the work keeps, for every member, a string that
       justifies it (`Sound.justified`).
    2. Nothing is missing: when the work has ended, every state has handed its lookaheads on and is
       closed, so the rules of `LookaheadAt` can be followed along the string
       (`Inv.look_of_lookaheadAt`).
-/
import Mathlib
import Lalr.Proofs.Collection

namespace Lalr

open State

variable {g : Grammar}

namespace Worklist

variable {w : Worklist}

/-- A lookahead at a string is found in the state that the string leads to, if the work is done. -/
theorem Inv.look_of_lookaheadAt (wf : g.WellFormed) (hg : g.IsShort)
    (hocc : ∀ x, g.occurrences x ≤ 65535) (h : Inv g w) (hexplored : w.explored = w.states.size)
    (hgrown : w.grown = [])
    {γ : List Symbol} {c : Core} {t : Nat} (hat : LookaheadAt g γ c t) :
    ∀ {p : Nat}, Leads w.edges γ p → (w.state p).Look c t := by
  -- along the three ways in which a lookahead comes about; the first two stay in one state
  induction hat with
  | @first γ c b r t beta hitem hafter hr hlhs ht =>
    intro p hγ
    have hclosed := h.sound.closed (h.sound.lt_of_leads hγ)
    have hc := h.sound.has_of_itemAt hg hocc wf hitem hγ
    exact (hclosed.look_iff wf).mpr (.first ((hclosed.has_iff wf).mp hc) hafter hr hlhs
      (Grammar.begins_iff_derives.mpr ht))
  | inherit _ hafter hr hlhs hv ih =>
    intro p hγ
    have hclosed := h.sound.closed (h.sound.lt_of_leads hγ)
    exact (hclosed.look_iff wf).mpr (.inherit ((hclosed.look_iff wf).mp (ih hγ)) hafter hr hlhs
      (Grammar.vanishes_iff_derives.mpr hv))
  | @advance γ c x t hat hnext ih =>
    intro q hγ
    -- the work is done, so the state before has handed its lookahead on
    obtain ⟨p, hp, he⟩ := hγ.of_snoc
    have hlook := ih hp
    have hmem := (h.sound.edge_signature he).mpr ⟨c, hlook.has, hnext, rfl⟩
    have hhas := (h.sound.kernelHas_iff hg hocc (h.sound.edge_lt he)).mpr hmem
    have hlt : p < w.explored := hexplored ▸ h.sound.lt_of_leads hp
    rw [← Core.advance_eq (hg.core c) hnext]
    exact (h.handedOn hg hlt (by rw [hgrown]; exact List.not_mem_nil) he hlook hnext hhas).look

end Worklist

namespace Automaton

/-- The lookahead of an item, read off the finished automaton. -/
theorem mem_lookahead_iff_look {automaton : Automaton} (wf : g.WellFormed) (hg : g.IsShort)
    (h : Worklist.Inv g automaton.worklist) {q : Nat} (hq : q < automaton.states.size) {item : Item}
    (hmem : item ∈ (automaton.state q).items) {t : Nat} :
    t ∈ (automaton.state q).lookahead item ↔ (automaton.state q).Look item.core t := by
  refine ⟨fun ht => ⟨item, hmem, rfl, ht⟩, fun ⟨item', hmem', hcore, ht⟩ => ?_⟩
  have heq : item' = item := (h.sound.closed hq).item_eq wf hg hmem' hmem hcore
  exact heq ▸ ht

/-- A terminal is in the lookahead of a core of a state if and only if it is one at a string that
    leads to the state. -/
theorem look_iff_lookaheadAt {automaton : Automaton} (wf : g.WellFormed) (hg : g.IsShort)
    (h : Worklist.Inv g automaton.worklist) (hocc : ∀ x, g.occurrences x ≤ 65535) {q : Nat}
    (hq : q < automaton.states.size) {c : Core} {t : Nat} :
    (automaton.state q).Look c t ↔ ∃ γ, Leads automaton.edge γ q ∧ LookaheadAt g γ c t :=
  ⟨h.sound.justified hg hq, fun ⟨_, hγ, hat⟩ => h.look_of_lookaheadAt wf hg hocc rfl rfl hat hγ⟩

end Automaton

/-- Terminal `t` is in the lookahead of an item of state `q` if and only if the item is an LR(1)
    item with `t` at some string that leads to `q`, where all rules are short. -/
theorem mem_lookahead_iff {d : Declarations} {settings : Settings} {c : Construction}
    (h : d.build settings = .ok c) (hshort : c.grammar.IsShort)
    (hocc : ∀ x, c.grammar.occurrences x ≤ 65535) {q : Nat} (hq : q < c.automaton.states.size)
    {item : Item} (hitem : item ∈ (c.automaton.state q).items) (t : Nat) :
    t ∈ (c.automaton.state q).lookahead item ↔
      ∃ γ, Leads c.automaton.edge γ q ∧ LookaheadAt c.grammar γ item.core t := by
  have wf := Construction.wellFormed h
  have hinv := Construction.automaton_inv h
  rw [Automaton.mem_lookahead_iff_look wf hshort hinv hq hitem]
  exact Automaton.look_iff_lookaheadAt wf hshort hinv hocc hq

/-- The theorem for sums: in the state behind an identifier, `'+'` may follow it. -/
theorem mem_lookahead_iff_sums : ∃ c q item, sums.build = .ok c ∧ c.grammar.IsShort ∧
    (∀ x, c.grammar.occurrences x ≤ 65535) ∧ q < c.automaton.states.size ∧
    item ∈ (c.automaton.state q).items ∧ item.core = ⟨3, 1⟩ ∧
    ∃ γ, Leads c.automaton.edge γ q ∧ LookaheadAt c.grammar γ item.core 2 := by
  have hq : 3 < (Construction.ofGrammar {} sumsGrammar).automaton.states.size := by
    rw [sums_states]
    decide
  have hitem : ((Construction.ofGrammar {} sumsGrammar).automaton.state 3).items[0]? =
      some ⟨⟨3, 1⟩, none, 0⟩ := by
    rw [Automaton.state, sums_states]
    rfl
  have hmem : 2 ∈ ((Construction.ofGrammar {} sumsGrammar).automaton.state 3).lookahead
      ⟨⟨3, 1⟩, none, 0⟩ := by
    rw [Automaton.state, sums_states]
    decide
  exact ⟨_, 3, _, sums_build, sums_isShort, sums_occurrences_le, hq, Array.mem_of_getElem? hitem,
    rfl, (mem_lookahead_iff sums_build sums_isShort sums_occurrences_le hq
      (Array.mem_of_getElem? hitem) 2).mp hmem⟩

end Lalr
