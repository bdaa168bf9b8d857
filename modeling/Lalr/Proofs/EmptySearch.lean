/-
  The search for empty rules misses none by asking for the mark.

  A nonterminal whose empty rules are looked for is searched only if it is marked.  The mark is
  about leading symbols, not about vanishing, so it has to be shown that nothing gets lost.  Where
  every nonterminal is marked (`LeadingEmpty.uniform`), the same closure searches without asking.
  Both run side by side, and agree on everything but which unmarked nonterminals were searched
  (`Agree`):

    1. steps that do not look at what was searched do the same in both;
    2. the search of an unmarked nonterminal adds nothing, however deep it goes (`Agree.addEmpty`).

  So the items are the same, in the same order and with the same slots (`ofKernel_uniform`).
  `leading_exact` collects what is known of the marks.
-/
import Mathlib
import Lalr.Proofs.First
import Lalr.Proofs.Stages

namespace Lalr

open Grammar

namespace Closure

variable {g : Grammar} {e : LeadingEmpty} {c c' : Closure}

/-- The closures are the same, and the same marked nonterminals were searched in both. -/
structure Agree (e : LeadingEmpty) (c c' : Closure) : Prop where
  items : c'.items = c.items
  slots : c'.slots = c.slots
  slotOf : c'.slotOf = c.slotOf
  opened : c'.opened = c.opened
  empties : c'.empties = c.empties
  size_searched : c'.searched.size = c.searched.size
  searched : ∀ a, e.isMarked a = true → (c'.isSearched a ↔ c.isSearched a)

theorem Agree.refl (e : LeadingEmpty) (c : Closure) : Agree e c c :=
  ⟨rfl, rfl, rfl, rfl, rfl, rfl, fun _ _ => Iff.rfl⟩

/-! ## Steps that do not look at what was searched -/

/-- Reserving a slot looks at no mark. -/
theorem Agree.reserve (h : Agree e c c') (a : Nat) :
    Agree e (c.reserve a).1 (c'.reserve a).1 ∧ (c'.reserve a).2 = (c.reserve a).2 := by
  rw [Closure.reserve, Closure.reserve, h.slotOf, h.slots]
  split
  · exact ⟨h, rfl⟩
  · exact ⟨{ h with slots := rfl, slotOf := rfl }, rfl⟩

/-- Adding an item looks at no mark. -/
theorem Agree.addItem (h : Agree e c c') (a slot r : Nat) :
    Agree e (c.addItem a slot r) (c'.addItem a slot r) :=
  { h with items := congrArg (Array.push · _) h.items }

/-- Nor does adding the rules of a nonterminal. -/
theorem Agree.addRules (h : Agree e c c') (a slot : Nat) :
    Agree e (c.addRules g a slot) (c'.addRules g a slot) := by
  rw [Closure.addRules, Closure.addRules, h.opened]
  split
  · exact h
  · refine List.foldl_rel { h with opened := rfl } fun r _ c c' h => ?_
    split
    · exact h
    · exact h.addItem a slot r

/-- Nor does adding an empty rule. -/
theorem Agree.addEmptyRule (h : Agree e c c') (a r : Nat) :
    Agree e (c.addEmptyRule a r) (c'.addEmptyRule a r) := by
  obtain ⟨hreserve, hslot⟩ := h.reserve a
  have hitem : Agree e ((c.reserve a).1.addItem a (c.reserve a).2 r)
      ((c'.reserve a).1.addItem a (c'.reserve a).2 r) := by
    rw [hslot]
    exact hreserve.addItem a _ r
  exact { hitem with empties := congrArg (· + 1) hitem.empties }

/-! ## Searching

  A search below a nonterminal without a mark meets only nonterminals without marks, and adds
  nothing.  So it does no harm to leave it out. -/

/-- Entering a nonterminal as searched on the right side only, if it has no mark. -/
theorem Agree.enter_right (h : Agree e c c') {a : Nat} (ha : ¬ e.isMarked a = true) :
    Agree e c { c' with searched := c'.searched.setIfInBounds a true } :=
  { h with
    size_searched := Array.size_setIfInBounds.trans h.size_searched
    searched := fun b hb => by
      have hne : a ≠ b := fun heq => ha (heq ▸ hb)
      rw [← h.searched b hb, isSearched, isSearched, getD_setIfInBounds, if_neg fun h => hne h.1] }

/-- A nonterminal without a mark may be noted as searched on one side only. -/
theorem Agree.enter (h : Agree e c c') (a : Nat) :
    Agree e { c with searched := c.searched.setIfInBounds a true }
      { c' with searched := c'.searched.setIfInBounds a true } :=
  { h with
    size_searched := by
      rw [Array.size_setIfInBounds, Array.size_setIfInBounds, h.size_searched]
    searched := fun b hb => by
      have hsame := h.searched b hb
      rw [isSearched, isSearched] at hsame ⊢
      rw [getD_setIfInBounds, getD_setIfInBounds, h.size_searched]
      split
      · exact Iff.rfl
      · exact hsame }

/-- Without a mark nothing is searched. -/
theorem addEmpty_of_not_marked {a : Nat} (ha : ¬ e.isMarked a = true) (depth : Nat) (c : Closure) :
    addEmpty g e depth c a = c := by
  cases depth with
  | zero => rfl
  | succ depth => rw [addEmpty_succ, if_pos (by simp [ha])]

section

variable (wf : g.WellFormed)
include wf

/-- Induction on how deep the search may go. -/
theorem Agree.addEmpty (depth : Nat) (h : Agree (.ofGrammar g) c c') (a : Nat) :
    Agree (.ofGrammar g) (addEmpty g (.ofGrammar g) depth c a)
      (addEmpty g (.uniform g.nonterminalCount true) depth c' a) := by
  obtain ⟨hsound, hobeyed⟩ := LeadingEmpty.ofGrammar_spec wf.lhs_of_mem
  induction depth generalizing c c' a with
  | zero => exact h
  | succ depth ih =>
    rcases Nat.lt_or_ge a g.nonterminalCount with ha | ha
    · by_cases hmark : (LeadingEmpty.ofGrammar g).isMarked a = true
      · -- both search, or both did
        have hboth : c'.searched.getD a false = c.searched.getD a false :=
          Bool.eq_iff_iff.mpr (h.searched a hmark)
        rw [addEmpty_succ, addEmpty_succ, hmark, LeadingEmpty.isMarked_uniform ha, hboth]
        split
        · exact h
        · refine List.foldl_rel (h.enter a) fun r _ c c' h => ?_
          unfold searchRule
          split
          · exact h.addEmptyRule a r
          · exact ih h _
          · exact h
      · -- only the second one searches, and finds no empty rule
        rw [addEmpty_of_not_marked hmark, addEmpty_succ]
        split
        · exact h
        · refine List.foldlRecOn _ _ (h.enter_right hmark) fun c' h r hr => ?_
          obtain ⟨hlt, hlhs⟩ := (mem_rulesOf ha).mp hr
          have hbegins : ¬ BeginsIn (LeadingEmpty.ofGrammar g).Holds (g.rule r).rhs := fun hb =>
            hmark (hlhs ▸ hobeyed _ (mem_rules.mpr ⟨r, hlt, rfl⟩) hb)
          unfold searchRule
          split
          · rename_i hrhs
            rw [hrhs] at hbegins
            exact absurd trivial hbegins
          · rename_i b rest hrhs
            rw [hrhs] at hbegins
            have hb := ih h b
            rw [addEmpty_of_not_marked hbegins] at hb
            exact hb
          · exact h
    · have hmark : ¬ (LeadingEmpty.ofGrammar g).isMarked a = true := fun hm =>
        Nat.not_lt.mpr ha (hsound.lt hm)
      have hmark' : ¬ (LeadingEmpty.uniform g.nonterminalCount true).isMarked a = true := by
        rw [LeadingEmpty.isMarked, getD_of_size_le _ (Array.size_replicate ▸ ha)]
        exact Bool.false_ne_true
      rw [addEmpty_of_not_marked hmark, addEmpty_of_not_marked hmark']
      exact h

/-! ## The walk -/

/-- Visiting an item with and without asking for marks adds the same. -/
theorem Agree.visit (h : Agree (.ofGrammar g) c c') (item : Item) :
    Agree (.ofGrammar g) (c.visit g (.ofGrammar g) item)
      (c'.visit g (.uniform g.nonterminalCount true) item) := by
  unfold Closure.visit
  split
  · rename_i a hnext
    obtain ⟨hreserve, hslot⟩ := h.reserve a
    dsimp only
    rw [hslot]
    exact (hreserve.addRules a _).addEmpty wf _ a
  · exact h

/-- So does the walk over all items. -/
theorem Agree.walk (steps i : Nat) (h : Agree (.ofGrammar g) c c') :
    Agree (.ofGrammar g) (walk g (.ofGrammar g) steps i c)
      (walk g (.uniform g.nonterminalCount true) steps i c') := by
  induction steps generalizing i c c' with
  | zero => exact h
  | succ steps ih =>
    rw [Closure.walk, Closure.walk, h.items]
    split
    · exact h
    · exact ih (i + 1) (h.visit wf _)

/-- Asking for the mark or not makes no difference to a closure. -/
theorem ofKernel_uniform (kernel : Array Item) :
    Agree (.ofGrammar g) (ofKernel g (.ofGrammar g) kernel)
      (ofKernel g (.uniform g.nonterminalCount true) kernel) :=
  Agree.walk wf _ 0 (.refl _ _)

end

end Closure

/-- In a closed state the rules of a nonterminal after a dot stand with their dot in front. -/
theorem State.Closed.hasRule_of_next {g : Grammar} {s : State} (wf : g.WellFormed) (h : s.Closed g)
    {item : Item} {a r : Nat} (hmem : item ∈ s.items)
    (hnext : item.core.next? g = some (.nonterminal a)) (hr : r < g.rules.size)
    (hlhs : (g.rule r).lhs = a) : HasRule g s.items r := by
  subst hlhs
  have hexpected : Closure.Expected g s.kernel (g.rule r).lhs :=
    ⟨item.core, (h.has_iff wf).mp ⟨item, hmem, rfl⟩, hnext⟩
  rw [h.items_eq]
  exact (Closure.ofKernel_spec wf h.proper.kernel.numbered).2 r hr hexpected

/-! ## The marks of a construction

  A mark says that a chain of leading symbols ends in a nonterminal with an empty rule.  It does
  not say that the nonterminal vanishes, as the example shows. -/

namespace Construction

variable {d : Declarations} {settings : Settings} {c : Construction}

/-- The passes that set the marks end, and a nonterminal is marked if and only if a chain of leading
    symbols goes from it to a nonterminal with an empty rule.  The marks are the least ones that
    obey the rules, in whatever order these stand, and the grammar is still the one that was
    declared.

    What can vanish is marked.  A closure is the same whether it searches the marked nonterminals or
    all, and in every state of every stage the empty rules of a nonterminal after a dot are there.
    -/
theorem leading_exact (h : d.build settings = .ok c) :
    (∃ k ≤ c.grammar.nonterminalCount,
      StopsAfter (LeadingEmpty.pass c.grammar) (.uniform c.grammar.nonterminalCount false) k
        ∧ c.analysis.leading = rounds (LeadingEmpty.pass c.grammar) k
            (.uniform c.grammar.nonterminalCount false))
    ∧ (∀ a, c.analysis.leading.isMarked a = true ↔
        ∃ b, Relation.ReflTransGen c.grammar.LeadsTo a b ∧ c.grammar.HasEmptyRule b)
    ∧ IsLeast {P : Set Nat | c.grammar.Obeyed (· ∈ P)} {a | c.analysis.leading.isMarked a = true}
    ∧ (∀ g' : Grammar, g'.alphabet = c.grammar.alphabet →
        g'.rules.toList.Perm c.grammar.rules.toList →
          LeadingEmpty.ofGrammar g' = c.analysis.leading)
    ∧ d.resolve = .ok c.grammar
    ∧ c.analysis.leading.marks.size = c.grammar.nonterminalCount
    ∧ (∀ a, c.grammar.Derives [.nonterminal a] [] → c.analysis.leading.isMarked a = true)
    ∧ (∀ kernel, Closure.Agree c.analysis.leading
        (Closure.ofKernel c.grammar c.analysis.leading kernel)
        (Closure.ofKernel c.grammar (.uniform c.grammar.nonterminalCount true) kernel))
    ∧ ∀ s, Stage.Reaches c.analysis (Stage.start c.analysis) s → ∀ p < s.work.states.size,
        ∀ item ∈ (s.work.state p).items, ∀ a, item.core.next? c.grammar = some (.nonterminal a) →
          ∀ r < c.grammar.rules.size, (c.grammar.rule r).lhs = a → (c.grammar.rule r).rhs = [] →
            HasRule c.grammar (s.work.state p).items r := by
  have wf := wellFormed h
  have hres := (Declarations.resolve_of_build h).1
  have hlhs := wf.lhs_of_mem
  rw [analysis_eq h]
  -- from here on the tables play no part
  generalize c.grammar = g at wf hres hlhs ⊢
  obtain ⟨hsound, hobeyed⟩ := LeadingEmpty.ofGrammar_spec hlhs
  refine ⟨LeadingEmpty.exists_stopsAfter hlhs, fun a => LeadingEmpty.isMarked_iff hlhs,
    ⟨hobeyed, fun P hP a ha => (hsound.leads a ha).of_obeyed hP⟩,
    fun g' halphabet hperm => LeadingEmpty.ofGrammar_perm hlhs halphabet hperm, hres, hsound.size,
    fun a ha => ?_, Closure.ofKernel_uniform wf, fun s hs p hp item hmem a hnext r hr hlhs _ => ?_⟩
  · exact (LeadingEmpty.isMarked_iff hlhs).mpr (vanishes_iff_derives.mpr ha).leadsToEmpty
  · have hclosed := ((Stage.Inv.start wf).reaches wf hs).sound.closed hp
    exact hclosed.hasRule_of_next wf hmem hnext hr hlhs

/-- The empty rule of `B` is reached from `S` by way of `A`, but `S` cannot vanish. -/
def leadingChain : Declarations where
  rules := #[⟨"S", ["A", "'x'"], none, none⟩, ⟨"A", ["B", "'y'"], none, none⟩,
    ⟨"B", [], none, none⟩]

/-- The grammar that they declare. -/
def leadingChainGrammar : Grammar where
  alphabet :=
    { terminals := #[⟨"$end", 0, none⟩, ⟨"'x'", 120, none⟩, ⟨"'y'", 121, none⟩]
      nonterminals := #["$start", "S", "A", "B"] }
  rules := #[⟨0, [.nonterminal 1, .terminal 0], none, none⟩,
    ⟨1, [.nonterminal 2, .terminal 1], none, none⟩, ⟨2, [.nonterminal 3, .terminal 2], none, none⟩,
    ⟨3, [], none, none⟩]

set_option maxRecDepth 100000 in
/-- What comes of them: `S` is marked, but cannot vanish, and the first state has a dot before `B`.
    -/
theorem leadingChain_run :
    (ofGrammar {} leadingChainGrammar).succeeds = true ∧
    (LeadingEmpty.ofGrammar leadingChainGrammar).isMarked 1 = true ∧
    (Firsts.ofGrammar leadingChainGrammar).isNullable 1 = false ∧
    ((Stage.start (Analysis.ofGrammar leadingChainGrammar)).work.state 0).items[3]? =
      some ⟨⟨2, 0⟩, some 2, 3⟩ := by cbv

/-- The theorem for them.  `S` is marked, since there is a chain, and the first state has the empty
    rule of `B`. -/
theorem leading_exact_leadingChain : ∃ c, leadingChain.build = .ok c
    ∧ c.analysis.leading.isMarked 1 = true
    ∧ (∃ b, Relation.ReflTransGen c.grammar.LeadsTo 1 b ∧ c.grammar.HasEmptyRule b)
    ∧ ¬ c.grammar.Derives [.nonterminal 1] []
    ∧ HasRule c.grammar ((Stage.start c.analysis).work.state 0).items 3 := by
  obtain ⟨hsucceeds, hmark, hnot, hitem⟩ := leadingChain_run
  have hbuild : leadingChain.build = .ok (ofGrammar {} leadingChainGrammar) :=
    Declarations.build_of_succeeds (by cbv) hsucceeds
  obtain ⟨-, hchain, -, -, -, -, -, -, hrule⟩ := leading_exact hbuild
  refine ⟨_, hbuild, hmark, (hchain 1).mp hmark, fun hd => ?_, ?_⟩
  · have hnull := (Firsts.isNullable_iff (wellFormed hbuild)).mpr (vanishes_iff_derives.mpr hd)
    exact absurd (hnull.symm.trans hnot) (by decide)
  · exact hrule _ .refl 0 Nat.one_pos _ (Array.mem_of_getElem? hitem) 3
      ((Core.next?_eq_getElem? _ _).trans rfl) 3 (by decide) rfl rfl

end Construction

end Lalr
