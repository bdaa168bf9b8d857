/-
  Walks over the automaton, along a tree.

  A walk stands in a state, with the states below it and the terminals that are still to come.  It
  crosses the next terminal, or it reduces by a rule that its state completes with the next terminal
  in the lookahead: it goes back over the right side of the rule and crosses the left side.  There
  is no table here, so nothing depends on how rules and states are numbered.

    * Every tree of the start symbol is walked along, its leaves and nodes in the order of its
      visits (`walk_tree`).  Along the children of a node an item moves its dot from the front to
      the end, and what comes next is always in the lookahead of that item (`IsForest.walks`).
    * Without conflicts a walk has no choice, so what is visited before the next terminal is
      crossed depends on that terminal, and on those before it, alone (`Walk.agree`).
-/
import Mathlib
import Lalr.Proofs.Lookahead
import Lalr.Proofs.Table
import Lalr.Proofs.Tree

namespace Lalr

open ParseTree

/-- A walk from state `p`, over the states `ps`, with the terminals `u` to come: it meets the visits
    of the list and ends in state `q`, over the states `qs`, with the terminals `v` to come. -/
inductive Walk (c : Construction) :
    Nat → List Nat → List Nat → List Visit → Nat → List Nat → List Nat → Prop
  | done (p : Nat) (ps u : List Nat) : Walk c p ps u [] p ps u
  | cross {p p' t q : Nat} {ps u qs v : List Nat} {l : List Visit}
      (he : c.automaton.edge p (.terminal t) p') (rest : Walk c p' (p :: ps) u l q qs v) :
      Walk c p ps (t :: u) (.leaf t :: l) q qs v
  | reduce {p p₁ p' r a q : Nat} {ps ps₁ u qs v : List Nat} {l : List Visit} (hr : r ≠ 0)
      (hrule : r < c.grammar.rules.size) (hon : (c.automaton.state p).CompletesOn c.grammar r a)
      (hdrop : (p :: ps).drop (c.grammar.rule r).rhs.length = p₁ :: ps₁)
      (he : c.automaton.edge p₁ (.nonterminal (c.grammar.rule r).lhs) p')
      (rest : Walk c p' (p₁ :: ps₁) (a :: u) l q qs v) :
      Walk c p ps (a :: u) (.node r :: l) q qs v

variable {d : Declarations} {settings : Settings} {c : Construction} {p q q' : Nat}
  {ps qs qs' u v u' v' : List Nat} {k k' l l' : List Visit}

namespace Walk

theorem trans {q₁ : Nat} {qs₁ v₁ : List Nat} (hfirst : Walk c p ps u l q qs v)
    (hthen : Walk c q qs v l' q₁ qs₁ v₁) : Walk c p ps u (l ++ l') q₁ qs₁ v₁ := by
  induction hfirst with
  | done => exact hthen
  | cross he _ ih => exact .cross he (ih hthen)
  | reduce hr hrule hon hdrop he _ ih => exact .reduce hr hrule hon hdrop he (ih hthen)

/-- The terminals that a walk crosses are those that were to come. -/
theorem crosses (h : Walk c p ps u l q qs v) : u = l.filterMap Visit.leaf? ++ v := by
  induction h with
  | done => rfl
  | @cross _ _ t _ _ _ _ _ _ _ _ ih => exact congrArg (t :: ·) ih
  | reduce _ _ _ _ _ _ ih => exact ih

/-- Walks that cross the same terminals as far as terminal `a` have the same terminal to come. -/
theorem next_eq {p' : Nat} {ps' : List Nat} {a : Nat} (h : Walk c p ps u (k ++ .leaf a :: l) q qs v)
    (h' : Walk c p' ps' u' (k' ++ .leaf a :: l') q' qs' v')
    (hleaves : k.filterMap Visit.leaf? = k'.filterMap Visit.leaf?) :
    ∃ b w w', u = b :: w ∧ u' = b :: w' := by
  have hcross := h.crosses
  have hcross' := h'.crosses
  rw [List.filterMap_append, ← hleaves] at hcross'
  rw [List.filterMap_append] at hcross
  cases hk : k.filterMap Visit.leaf? with
  | nil =>
    rw [hk] at hcross hcross'
    exact ⟨a, _, _, hcross, hcross'⟩
  | cons b w =>
    rw [hk] at hcross hcross'
    exact ⟨b, _, _, hcross, hcross'⟩

end Walk

/-! ## Along trees

  Induction on trees and forests together.  What follows a tree is known to its rule as a
  lookahead, and what follows a child is the beginning of the next one or, if nothing is left,
  what follows the tree. -/

section

variable (h : d.build settings = .ok c)
include h

/-- What follows a nonterminal after a dot is in the lookahead of its rules. -/
theorem look_of_forest {r r' a dot : Nat} {α : List Symbol} {ts : List ParseTree}
    (hp : p < c.automaton.states.size) (hlook : (c.automaton.state p).Look ⟨r, dot⟩ a)
    (hafter : (c.grammar.rule r).rhs.drop dot = .nonterminal (c.grammar.rule r').lhs :: α)
    (hr' : r' < c.grammar.rules.size) (hts : IsForest c.grammar α ts) :
    ∃ b v, yields ts ++ a :: u = b :: v ∧ (c.automaton.state p).Look ⟨r', 0⟩ b := by
  have wf := Construction.wellFormed h
  have hclosed : State.Closed c.grammar (c.automaton.state p) :=
    (Construction.automaton_inv h).sound.closed hp
  have hderives := hts.derives
  rw [← Core.afterDot_eq c.grammar ⟨r, dot⟩] at hafter
  cases hy : yields ts with
  | nil =>
    rw [hy] at hderives
    refine ⟨a, u, rfl, (hclosed.look_iff wf).mpr (.inherit ((hclosed.look_iff wf).mp hlook) hafter
      hr' rfl (Grammar.vanishes_iff_derives.mpr hderives))⟩
  | cons b v =>
    rw [hy] at hderives
    refine ⟨b, v ++ a :: u, rfl, (hclosed.look_iff wf).mpr (.first
      ((hclosed.has_iff wf).mp hlook.has) hafter hr' rfl
      (Grammar.begins_iff_derives.mpr ⟨v.map .terminal, hderives⟩))⟩

/-- In state 0 the end of input is in the lookahead of the rules of the start symbol. -/
theorem look_start {r : Nat} (hr : r < c.grammar.rules.size)
    (hlhs : c.grammar.start = .nonterminal (c.grammar.rule r).lhs) :
    (c.automaton.state 0).Look ⟨r, 0⟩ 0 := by
  have wf := Construction.wellFormed h
  have hw := (Construction.automaton_inv h).sound
  have hafter : (⟨0, 0⟩ : Core).afterDot c.grammar = [.nonterminal (c.grammar.rule r).lhs,
      .terminal 0] := by
    rw [Core.afterDot_eq, wf.rhs_zero, hlhs]
    rfl
  exact ((hw.closed hw.pos).look_iff wf).mpr
    (.first (.kernel (hw.kernelHas_start.mpr rfl)) hafter hr rfl .terminal)

variable (hshort : c.grammar.IsShort) (hocc : ∀ x, c.grammar.occurrences x ≤ 65535)
include hshort hocc

/-- Over a symbol after a dot the lookahead is handed on. -/
theorem look_advance {a : Nat} {core : Core} {x : Symbol}
    (hp : p < c.automaton.states.size) (hlook : (c.automaton.state p).Look core a)
    (hnext : core.next? c.grammar = some x) :
    ∃ q, c.automaton.edge p x q ∧ (c.automaton.state q).Look core.succ a := by
  have hinv := Construction.automaton_inv h
  obtain ⟨q, he⟩ := hinv.moved hp hlook.has hnext
  have hmem := (hinv.sound.edge_signature he).mpr ⟨core, hlook.has, hnext, rfl⟩
  have hhas := (hinv.sound.kernelHas_iff hshort hocc (hinv.sound.edge_lt he)).mpr hmem
  rw [← Core.advance_eq (hshort.core core) hnext]
  exact ⟨q, he, (hinv.handedOn hshort hp List.not_mem_nil he hlook hnext hhas).look⟩

/-- The start symbol and the end of input lead from state 0 to a state that completes rule 0. -/
theorem start_edges : ∃ q q', c.automaton.edge 0 c.grammar.start q ∧
    c.automaton.edge q (.terminal 0) q' ∧ (c.automaton.state q').Completes c.grammar 0 := by
  have wf := Construction.wellFormed h
  have hinv := Construction.automaton_inv h
  have hw := hinv.sound
  have hzero := (hw.kernelHas_start.mpr rfl).has
  have hnext : (⟨0, 0⟩ : Core).next? c.grammar = some c.grammar.start := by
    rw [Core.next?, Core.afterDot_eq, wf.rhs_zero]
    rfl
  obtain ⟨q, he⟩ := hinv.moved hw.pos hzero hnext
  have hone := ((hw.kernelHas_iff hshort hocc (hw.edge_lt he)).mpr
    ((hw.edge_signature he).mpr ⟨_, hzero, hnext, rfl⟩)).has
  have hnext' : (⟨0, 1⟩ : Core).next? c.grammar = some (.terminal 0) := by
    rw [Core.next?, Core.afterDot_eq, wf.rhs_zero]
    rfl
  obtain ⟨q', he'⟩ := hinv.moved (hw.edge_lt he) hone hnext'
  obtain ⟨htwo, hcomplete⟩ := hw.final_of_edge wf he'
  exact ⟨q, q', he, he', _, htwo, rfl, hcomplete⟩

end

mutual

/-- A tree whose symbol can be crossed is walked along.  What follows it must be in the lookahead of
    its rule. -/
theorem IsTree.walks (h : d.build settings = .ok c) (hshort : c.grammar.IsShort)
    (hocc : ∀ x, c.grammar.occurrences x ≤ 65535) {x : Symbol} {t : ParseTree} {p q : Nat}
    {ps u : List Nat} (he : c.automaton.edge p x q)
    (hlook : ∀ r ts, t = .node r ts →
      ∃ a v, u = a :: v ∧ (c.automaton.state p).Look ⟨r, 0⟩ a) :
    IsTree c.grammar x t → Walk c p ps (t.yield ++ u) t.visits q (p :: ps) u
  | .leaf a => .cross he (.done q (p :: ps) u)
  | @IsTree.node _ r ts hr hts => by
    have wf := Construction.wellFormed h
    have hw := (Construction.automaton_inv h).sound
    obtain ⟨a, v, rfl, hfront⟩ := hlook r ts rfl
    obtain ⟨p₁, ps₁, hwalk, hdrop, hp₁, hlook₁⟩ :=
      IsForest.walks h hshort hocc (hw.edge_src he) hfront (List.drop_zero) hts
    -- the added start symbol is crossed nowhere
    have hr0 : r ≠ 0 := by
      have hpos := (Construction.nonterminal_of_edge h he).1
      rintro rfl
      rw [wf.lhs_zero] at hpos
      exact absurd hpos (Nat.lt_irrefl 0)
    have hlength := hts.length_eq
    -- the walk over the subtrees ends where the dot of the rule is at the end
    have hon : (c.automaton.state p₁).CompletesOn c.grammar r a := by
      refine ⟨_, hlook₁, rfl, Core.isComplete_iff.mpr ?_⟩
      rw [Nat.zero_add, hlength]
    rw [yield, visits]
    exact hwalk.trans (.reduce hr0 hr hon (hlength ▸ hdrop) he (.done q (p :: ps) (a :: v)))

theorem IsForest.walks (h : d.build settings = .ok c) (hshort : c.grammar.IsShort)
    (hocc : ∀ x, c.grammar.occurrences x ≤ 65535) {r dot a : Nat} {α : List Symbol}
    {ts : List ParseTree} {p : Nat} {ps u : List Nat} (hp : p < c.automaton.states.size)
    (hlook : (c.automaton.state p).Look ⟨r, dot⟩ a)
    (hafter : (c.grammar.rule r).rhs.drop dot = α) :
    IsForest c.grammar α ts → ∃ q qs,
      Walk c p ps (yields ts ++ a :: u) (visitsAll ts) q qs (a :: u) ∧
      (q :: qs).drop ts.length = p :: ps ∧ q < c.automaton.states.size ∧
      (c.automaton.state q).Look ⟨r, dot + ts.length⟩ a
  | .nil => ⟨p, ps, .done p ps (a :: u), rfl, hp, hlook⟩
  | @IsForest.cons _ x α t ts head tail => by
    have hnext : (⟨r, dot⟩ : Core).next? c.grammar = some x :=
      Core.next?_eq_some.mpr ⟨α, (Core.afterDot_eq ..).trans hafter⟩
    obtain ⟨p₁, he, hlook₁⟩ := look_advance h hshort hocc hp hlook hnext
    -- what comes next is begun by the rest of the forest, or by what follows the whole
    have hfollow : ∀ r' ts', t = .node r' ts' → ∃ b v, yields ts ++ a :: u = b :: v ∧
        (c.automaton.state p).Look ⟨r', 0⟩ b := by
      rintro r' ts' rfl
      cases head with
      | node hr' _ => exact look_of_forest h hp hlook hafter hr' tail
    have hwalk : Walk c p ps _ _ _ _ _ := IsTree.walks h hshort hocc he hfollow head
    have hafter' : (c.grammar.rule r).rhs.drop (dot + 1) = α := by
      rw [← List.drop_drop, hafter]
      rfl
    obtain ⟨q, qs, hwalk', hdrop, hq, hlook'⟩ :=
      IsForest.walks h hshort hocc ((Construction.automaton_inv h).sound.edge_lt he)
        hlook₁ hafter' tail
    refine ⟨q, qs, ?_, ?_, hq, ?_⟩
    · rw [yields, visitsAll, List.append_assoc]
      exact hwalk.trans hwalk'
    · rw [List.length_cons, ← List.drop_drop, hdrop]
      rfl
    · rw [List.length_cons, Nat.add_comm ts.length, ← Nat.add_assoc]
      exact hlook'

end

/-- A tree of the start symbol is walked along from state 0, and then the end of input is crossed.
    -/
theorem walk_tree (h : d.build settings = .ok c) (hshort : c.grammar.IsShort)
    (hocc : ∀ x, c.grammar.occurrences x ≤ 65535) {tree : ParseTree}
    (htree : IsTree c.grammar c.grammar.start tree) :
    ∃ q qs, Walk c 0 [] (tree.yield ++ [0]) (tree.visits ++ [.leaf 0]) q qs [] ∧
      (c.automaton.state q).Completes c.grammar 0 ∧ q < c.automaton.states.size := by
  have hw := (Construction.automaton_inv h).sound
  obtain ⟨q, q', he, he', hfinal⟩ := start_edges h hshort hocc
  have hfollow : ∀ r ts, tree = .node r ts →
      ∃ a v, [0] = a :: v ∧ (c.automaton.state 0).Look ⟨r, 0⟩ a := by
    rintro r ts rfl
    generalize hx : c.grammar.start = x at htree
    cases htree with
    | node hr _ => exact ⟨0, [], rfl, look_start h hr hx⟩
  have hwalk : Walk c 0 [] _ _ _ _ _ := htree.walks h hshort hocc he hfollow
  exact ⟨q', _, hwalk.trans (.cross he' (.done q' _ [])), hfinal, hw.edge_lt he'⟩

/-! ## No choice

  Without conflicts a state crosses a terminal or reduces by one rule on it, never both. -/

section

variable (h : d.build settings = .ok c) (hbinding : ∀ t, c.grammar.alphabet.binding t = none)
  (hconflicts : c.conflicts = #[])
include h hbinding hconflicts

/-- Where a terminal can be crossed, nothing is reduced on it. -/
theorem not_completesOn_of_edge {t r : Nat} (he : c.automaton.edge p (.terminal t) q) (hr : r ≠ 0) :
    ¬ (c.automaton.state p).CompletesOn c.grammar r t := by
  intro hon
  have hp := (Construction.automaton_inv h).sound.edge_src he
  have hreduce := Construction.action_reduce h hbinding hconflicts hp hr hon
  rw [ActionRow.action, Construction.lookup_shift h hbinding hconflicts he] at hreduce
  exact absurd hreduce (by simp)

/-- On one terminal only one rule is reduced. -/
theorem completesOn_unique {t r r' : Nat} (hp : p < c.automaton.states.size) (hr : r ≠ 0)
    (hr' : r' ≠ 0) (hon : (c.automaton.state p).CompletesOn c.grammar r t)
    (hon' : (c.automaton.state p).CompletesOn c.grammar r' t) : r = r' := by
  have hreduce := Construction.action_reduce h hbinding hconflicts hp hr hon
  rw [Construction.action_reduce h hbinding hconflicts hp hr' hon'] at hreduce
  exact (Action.reduce.inj hreduce).symm

/-- Two walks from one place meet the same leaf or node next, and then are at one place again, if
    the next terminal is the same. -/
theorem Walk.same_head {b : Nat} {x x' : Visit} (hp : p < c.automaton.states.size)
    (hwalk : Walk c p ps (b :: u) (x :: l) q qs v)
    (hwalk' : Walk c p ps (b :: u') (x' :: l') q' qs' v') :
    x = x' ∧ ∃ p₁ ps₁ u₁ u₁', p₁ < c.automaton.states.size ∧ Walk c p₁ ps₁ u₁ l q qs v ∧
      Walk c p₁ ps₁ u₁' l' q' qs' v' := by
  -- without conflicts a state either crosses the terminal or completes one rule on it
  have hw := (Construction.automaton_inv h).sound
  cases hwalk with
  | cross he rest =>
    cases hwalk' with
    | cross he' rest' =>
      rw [hw.edge_unique he' he] at rest'
      exact ⟨rfl, _, _, _, _, hw.edge_lt he, rest, rest'⟩
    | reduce hr _ hon => exact absurd hon (not_completesOn_of_edge h hbinding hconflicts he hr)
  | reduce hr _ hon hdrop he rest =>
    cases hwalk' with
    | cross he' => exact absurd hon (not_completesOn_of_edge h hbinding hconflicts he' hr)
    | reduce hr' _ hon' hdrop' he' rest' =>
      obtain rfl := completesOn_unique h hbinding hconflicts hp hr hr' hon hon'
      obtain ⟨rfl, rfl⟩ := List.cons.inj (hdrop.symm.trans hdrop')
      rw [hw.edge_unique he' he] at rest'
      exact ⟨rfl, _, _, _, _, hw.edge_lt he, rest, rest'⟩

/-- Two walks that cross the same terminals meet the same visits before they cross the last of
    these. -/
theorem Walk.agree {a : Nat} (hp : p < c.automaton.states.size)
    (hwalk : Walk c p ps u (k ++ .leaf a :: l) q qs v)
    (hwalk' : Walk c p ps u' (k' ++ .leaf a :: l') q' qs' v')
    (hleaves : k.filterMap Visit.leaf? = k'.filterMap Visit.leaf?) : k = k' := by
  -- the visits before the leaf come one by one; the heads agree as the next leaf does
  induction k generalizing k' p ps u u' with
  | nil =>
    cases k' with
    | nil => rfl
    | cons x' k' =>
      obtain ⟨b, w, w', rfl, rfl⟩ := Walk.next_eq hwalk hwalk' hleaves
      obtain ⟨rfl, -⟩ := Walk.same_head h hbinding hconflicts hp hwalk hwalk'
      exact absurd (show [] = a :: _ from hleaves) (by simp)
  | cons x k ih =>
    obtain ⟨b, w, w', rfl, rfl⟩ := Walk.next_eq hwalk hwalk' hleaves
    cases k' with
    | nil =>
      obtain ⟨rfl, -⟩ := Walk.same_head h hbinding hconflicts hp hwalk hwalk'
      exact absurd (show a :: _ = [] from hleaves) (by simp)
    | cons x' k' =>
      obtain ⟨rfl, p₁, ps₁, u₁, u₁', hp₁, hrest, hrest'⟩ :=
        Walk.same_head h hbinding hconflicts hp hwalk hwalk'
      have htail : k.filterMap Visit.leaf? = k'.filterMap Visit.leaf? := by
        cases x with
        | leaf t => exact (List.cons.inj (show t :: _ = t :: _ from hleaves)).2
        | node r => exact hleaves
      rw [ih hp₁ hrest hrest' htail]

end

end Lalr
