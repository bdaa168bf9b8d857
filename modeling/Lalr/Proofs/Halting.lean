/-
  Without conflicts the machine halts.

  On a wrong token the machine may reduce by default, without looking at the token, and such a
  reduction may take nothing off the stack.  What bounds these reductions is the grammar:

    * The forest that the machine has read is part of a tree of the start symbol, if whatever
      follows it derives some terminals (`Path.exists_tree`).
    * Without conflicts, all that is visited in such a tree before a terminal is determined by that
      terminal and by those before it (`Before.unique`), for this is the order in which the tree is
      walked along.  There are only as many terminals, so the forests with one yield have only so
      many nodes (`exists_postorders_le`).
    * The end of input is shifted at most once, so the machine shifts no more symbols than there are
      tokens, and one (`Tracks.length_yields_le`).

  A nonterminal that derives no terminals makes a difference: it can lead the automaton to states
  that no tree passes through, and there the machine may reduce the same empty rules for ever
  (`endless_never_halts`).
-/
import Mathlib
import Lalr.Proofs.Safety
import Lalr.Proofs.ViablePrefix

namespace Lalr

open ParseTree

variable {g : Grammar} {d : Declarations} {settings : Settings} {c : Construction}
  {input : List Nat} {m m' : Configuration} {p k : Nat} {ps : List Nat} {α : List Symbol}
  {ts : List ParseTree}

/-! ## What is derived on the way to a sentence

  On its way the machine may stand in any state of the automaton.  That its path can be completed
  to a sentence takes that what comes up there derives terminals. -/

/-- Every nonterminal that comes up in a derivation from the start rule derives some terminals. -/
def Grammar.ProductiveFromStart (g : Grammar) : Prop :=
  ∀ a α β, g.Derives [.nonterminal 0] (α ++ .nonterminal a :: β) →
    ∃ v : List Nat, g.Derives [.nonterminal a] (v.map .terminal)

/-- If all nonterminals derive some terminals, so do those that come up. -/
theorem Grammar.Productive.fromStart (wf : g.WellFormed) (hg : g.Productive) :
    g.ProductiveFromStart := by
  intro a α β h
  have hstart : ∀ x ∈ [Symbol.nonterminal 0], g.alphabet.Has x := by
    intro x hx
    rw [List.mem_singleton.mp hx]
    exact wf.lhs_zero ▸ wf.lhs_lt wf.rules_pos
  refine hg.derives wf fun x hx => h.has wf hstart x ?_
  rw [List.mem_singleton.mp hx]
  exact List.mem_append_right α List.mem_cons_self

/-- What comes last in a derivation from the start rule derives some terminals. -/
theorem Grammar.ProductiveFromStart.derives (hg : g.ProductiveFromStart) {β : List Symbol}
    (h : g.Derives [.nonterminal 0] (α ++ β)) : ∃ v : List Nat, g.Derives β (v.map .terminal) := by
  induction β generalizing α with
  | nil => exact ⟨[], .refl⟩
  | cons x β ih =>
    have hx : ∃ v : List Nat, g.Derives [x] (v.map .terminal) := by
      cases x with
      | terminal t => exact ⟨[t], .refl⟩
      | nonterminal a => exact hg a α β h
    obtain ⟨v, hv⟩ := hx
    rw [List.append_cons] at h
    obtain ⟨w, hw⟩ := ih h
    refine ⟨v ++ w, ?_⟩
    rw [List.map_append]
    exact hv.append hw

/-- A forest on a path is part of a tree of the start symbol with the end of input behind it.  The
    rest of it comes after all that is visited in the forest. -/
theorem Path.exists_tree (h : d.build settings = .ok c) (hshort : c.grammar.IsShort)
    (hreach : c.grammar.ProductiveFromStart) (hpath : Path c.automaton.edge ps α)
    (hts : IsForest c.grammar α ts) :
    ∃ tree us, IsTree c.grammar c.grammar.start tree ∧
      yields ts ++ yields us = tree.yield ++ [0] ∧
      (visitsAll ts ++ visitsAll us).Sublist ((tree.visits ++ [.leaf 0]) ++ [.node 0]) := by
  have wf := Construction.wellFormed h
  obtain ⟨δ, hδ⟩ := hpath.viable wf hshort (Construction.automaton_inv h).sound
  obtain ⟨v, hv⟩ := hreach.derives hδ
  obtain ⟨us, hus, -⟩ := IsForest.of_derives hv
  obtain ⟨trees, htrees, hyields, hvisits⟩ := IsForest.of_derives_forest hδ (hts.append hus)
  cases htrees with
  | @cons _ _ root _ hroot hnil =>
    cases hnil
    obtain ⟨tree, htree, rfl⟩ := hroot.of_start_rule wf
    refine ⟨tree, us, htree, ?_, ?_⟩
    · rw [← yields_append, ← hyields, yields_singleton, yield, yields, yields_singleton, yield]
    · rw [visitsAll_append, visitsAll_singleton, visits, visitsAll, visitsAll_singleton,
        visits] at hvisits
      exact hvisits

/-! ## What is visited before a terminal

  Two trees that begin with the same terminals are walked along in the same way up to the last of
  these.  So there is a largest number of visits before it. -/

/-- If visits `l` and then `l'` are found among others with no more leaves, then the leaf that comes
    next in `l'` has as many leaves before it as there are in `l`, and all of `l` is found before
    it. -/
theorem Visit.exists_split {l l' all : List Visit} {a : Nat} {w : List Nat}
    (hsub : (l ++ l').Sublist all)
    (hleaves : l.filterMap leaf? ++ l'.filterMap leaf? = all.filterMap leaf?)
    (hnext : l'.filterMap leaf? = a :: w) :
    ∃ before after, all = before ++ .leaf a :: after ∧
      before.filterMap leaf? = l.filterMap leaf? ∧ l.Sublist before := by
  obtain ⟨front, back, rfl, hfront, hback⟩ := List.append_sublist_iff.mp hsub
  -- no leaf is left out, so those of `l` are at the front and those of `l'` at the back
  have hfront' := hfront.filterMap leaf?
  have hback' := hback.filterMap leaf?
  rw [List.filterMap_append] at hleaves
  have hlength := congrArg List.length hleaves
  rw [List.length_append, List.length_append] at hlength
  have hle := hfront'.length_le
  have hle' := hback'.length_le
  have heq := hfront'.eq_of_length (by omega)
  have heq' := hback'.eq_of_length (by omega)
  rw [hnext] at heq'
  obtain ⟨skipped, x, after, rfl, hskipped, hx, -⟩ := List.filterMap_eq_cons_iff.mp heq'.symm
  have hleaf : x = .leaf a := by
    cases x with
    | leaf t => exact congrArg Visit.leaf (Option.some.inj hx)
    | node r => exact absurd hx (by simp [leaf?])
  subst hleaf
  refine ⟨front ++ skipped, after, (List.append_assoc _ _ _).symm, ?_,
    hfront.trans (List.sublist_append_left _ _)⟩
  rw [List.filterMap_append, List.filterMap_eq_nil_iff.mpr hskipped, List.append_nil, heq]

namespace Construction

/-- In some tree of the start symbol, with the end of input behind it, the visits of `l` are those
    before a terminal. -/
def Before (c : Construction) (l : List Visit) (a : Nat) : Prop :=
  ∃ tree after, IsTree c.grammar c.grammar.start tree ∧
    tree.visits ++ [.leaf 0] = l ++ .leaf a :: after

variable {l l' : List Visit} {a : Nat}

theorem Before.lt (wf : c.grammar.WellFormed) (hl : c.Before l a) :
    a < c.grammar.terminalCount := by
  obtain ⟨tree, after, htree, hsplit⟩ := hl
  have hleaves := congrArg (List.filterMap Visit.leaf?) hsplit
  rw [List.filterMap_append, List.filterMap_append, (filterMap_visits tree).1] at hleaves
  have hmem : a ∈ tree.yield ++ [0] := by
    rw [show tree.yield ++ [0] = _ from hleaves]
    exact List.mem_append_right _ List.mem_cons_self
  rcases List.mem_append.mp hmem with hyield | hend
  · exact htree.yield_lt wf wf.has_start a hyield
  · rw [List.mem_singleton.mp hend]
    exact wf.rhs_has wf.rules_pos (.terminal 0) (by simp [wf.rhs_zero])

section

variable (h : d.build settings = .ok c) (hbinding : ∀ t, c.grammar.alphabet.binding t = none)
  (hconflicts : c.conflicts = #[]) (hshort : c.grammar.IsShort)
  (hocc : ∀ x, c.grammar.occurrences x ≤ 65535)
include h hbinding hconflicts hshort hocc

/-- The leaves before a terminal determine all that is visited before it, for the tree can be walked
    along in one way only. -/
theorem Before.unique (hl : c.Before l a) (hl' : c.Before l' a)
    (hleaves : l.filterMap Visit.leaf? = l'.filterMap Visit.leaf?) : l = l' := by
  obtain ⟨tree, after, htree, hsplit⟩ := hl
  obtain ⟨tree', after', htree', hsplit'⟩ := hl'
  obtain ⟨q, qs, hwalk, -⟩ := walk_tree h hshort hocc htree
  obtain ⟨q', qs', hwalk', -⟩ := walk_tree h hshort hocc htree'
  rw [hsplit] at hwalk
  rw [hsplit'] at hwalk'
  exact hwalk.agree h hbinding hconflicts (automaton_inv h).sound.pos hwalk' hleaves

/-- So the leaves bound the number of nodes before any terminal. -/
theorem exists_nodes_le (w : List Nat) : ∃ n, ∀ l a, c.Before l a →
    l.filterMap Visit.leaf? = w → (l.filterMap Visit.node?).length ≤ n := by
  have hone : ∀ a, ∃ n, ∀ l, c.Before l a → l.filterMap Visit.leaf? = w →
      (l.filterMap Visit.node?).length ≤ n := by
    intro a
    by_cases hsome : ∃ l, c.Before l a ∧ l.filterMap Visit.leaf? = w
    · obtain ⟨l, hl, hleaves⟩ := hsome
      refine ⟨(l.filterMap Visit.node?).length, fun l' hl' hleaves' => ?_⟩
      rw [hl.unique h hbinding hconflicts hshort hocc hl' (hleaves.trans hleaves'.symm)]
    · exact ⟨0, fun l hl hleaves => absurd ⟨l, hl, hleaves⟩ hsome⟩
  choose bound hbound using hone
  refine ⟨(Finset.range c.grammar.terminalCount).sup bound, fun l a hl hleaves => ?_⟩
  have ha : a ∈ Finset.range c.grammar.terminalCount :=
    Finset.mem_range.mpr (hl.lt (wellFormed h))
  exact (hbound a l hl hleaves).trans (Finset.le_sup ha)

end

end Construction

/-- A forest on a path has no more nodes than there are before the next terminal in some tree.  If
    the forest has read the end of input already, there may be the node of the start rule besides.
    -/
theorem Path.exists_before (h : d.build settings = .ok c) (hshort : c.grammar.IsShort)
    (hreach : c.grammar.ProductiveFromStart) (hpath : Path c.automaton.edge ps α)
    (hts : IsForest c.grammar α ts) :
    ∃ l a, c.Before l a ∧ (postorders ts).length ≤ (l.filterMap Visit.node?).length + 1 ∧
      (l.filterMap Visit.leaf? = yields ts ∨ l.filterMap Visit.leaf? = (yields ts).dropLast) := by
  obtain ⟨tree, us, htree, hyields, hvisits⟩ := hpath.exists_tree h hshort hreach hts
  obtain ⟨hleaves, hnodes⟩ := filterMap_visitsAll ts
  obtain ⟨hleaves', -⟩ := filterMap_visitsAll us
  have hall : (tree.visits ++ [Visit.leaf 0] ++ [Visit.node 0]).filterMap Visit.leaf? =
      tree.yield ++ [0] := by
    rw [List.filterMap_append, List.filterMap_append, (filterMap_visits tree).1]
    exact List.append_nil _
  -- some terminal is left to be read, or the end of input was read too
  cases hnext : yields us with
  | cons a w =>
    obtain ⟨l, after, hsplit, hsame, hsub⟩ :=
      Visit.exists_split hvisits (by rw [hleaves, hleaves', hall, hyields]) (hleaves'.trans hnext)
    refine ⟨l, a, ?_, ?_, Or.inl (hsame.trans hleaves)⟩
    · -- the terminal is not the node at the end
      rcases List.eq_nil_or_concat after with rfl | ⟨after, x, rfl⟩
      · exact absurd (List.append_inj_right' hsplit rfl) (by simp)
      · rw [List.concat_eq_append, ← List.cons_append, ← List.append_assoc] at hsplit
        exact ⟨tree, after, htree, List.append_inj_left' hsplit rfl⟩
    · rw [← hnodes]
      exact (hsub.filterMap Visit.node?).length_le.trans (Nat.le_succ _)
  | nil =>
    rw [hnext, List.append_nil] at hyields
    refine ⟨tree.visits, 0, ⟨tree, [], htree, rfl⟩, ?_, Or.inr ?_⟩
    · have hle := ((List.sublist_append_left _ _).trans hvisits).filterMap Visit.node? |>.length_le
      rw [hnodes, List.filterMap_append, List.filterMap_append, List.length_append,
        List.length_append] at hle
      exact hle
    · rw [hyields, List.dropLast_concat, (filterMap_visits tree).1]

/-! ## Bounds

  The machine shifts as many symbols as there are tokens, and one more, at the most.  Between two
  shifts the yield of its forest stays the same, and the forests of one yield have a bounded
  number of nodes. -/

section

variable (h : d.build settings = .ok c) (hbinding : ∀ t, c.grammar.alphabet.binding t = none)
  (hconflicts : c.conflicts = #[]) (hshort : c.grammar.IsShort)
  (hreach : c.grammar.ProductiveFromStart) (hocc : ∀ x, c.grammar.occurrences x ≤ 65535)

include h hbinding hconflicts hshort hreach hocc in
/-- There is a bound on the nodes of all forests on a path that have one yield. -/
theorem exists_postorders_le (w : List Nat) : ∃ n, ∀ ps α ts, Path c.automaton.edge ps α →
    IsForest c.grammar α ts → yields ts = w → (postorders ts).length ≤ n := by
  obtain ⟨n, hn⟩ := Construction.exists_nodes_le h hbinding hconflicts hshort hocc w
  obtain ⟨n', hn'⟩ := Construction.exists_nodes_le h hbinding hconflicts hshort hocc w.dropLast
  refine ⟨max n n' + 1, fun ps α ts hpath hts hyields => ?_⟩
  obtain ⟨l, a, hl, hnodes, hleaves⟩ := hpath.exists_before h hshort hreach hts
  rw [hyields] at hleaves
  refine hnodes.trans (Nat.succ_le_succ ?_)
  rcases hleaves with hleaves | hleaves
  · exact (hn l a hl hleaves).trans (Nat.le_max_left n n')
  · exact (hn' l a hl hleaves).trans (Nat.le_max_right n n')

include h hshort hreach in
/-- The machine shifts at most the tokens of its input and one end of input: that one is the last of
    what the start rule derives, and is nowhere else. -/
theorem Tracks.length_yields_le (ht : Tracks c input m p ps α ts k)
    (hpast : ∀ i, input.length ≤ i → ∀ a ∈ (yields ts)[i]?, a = 0) :
    (yields ts).length ≤ input.length + 1 := by
  have wf := Construction.wellFormed h
  obtain ⟨tree, us, htree, hyields, -⟩ := ht.path.exists_tree h hshort hreach ht.forest
  by_contra hlong
  have hlength := congrArg List.length hyields
  rw [List.length_append, List.length_append, List.length_singleton] at hlength
  have hi : input.length < (yields ts).length := by omega
  have hi' : input.length < tree.yield.length := by omega
  -- so the end of input would be within the tree
  have hzero : (yields ts)[input.length] = 0 :=
    hpast _ (Nat.le_refl _) _ (List.getElem?_eq_getElem hi)
  have hsame := congrArg (·[input.length]?) hyields
  simp only [List.getElem?_append_left hi, List.getElem?_append_left hi',
    List.getElem?_eq_getElem hi, List.getElem?_eq_getElem hi', hzero] at hsame
  obtain ⟨a, ha, hpos⟩ := wf.start_inner
  refine htree.zero_notMem_yield wf ?_ ?_ ?_
  · rw [ha]
    simp
  · rw [ha]
    exact fun heq => Nat.ne_of_gt hpos (Symbol.nonterminal.inj heq)
  · rw [Option.some.inj hsame]
    exact List.getElem_mem hi'

end

/-! ## Steps and events

  At most one step in a row shows nothing.  So a bound on the events is a bound on the steps. -/

/-- Every event is a shift or a reduction. -/
theorem Event.length_eq (events : List Event) : events.length =
    (events.filterMap Event.shift?).length + (events.filterMap Event.reduction?).length := by
  induction events with
  | nil => rfl
  | cons event events ih =>
    cases event with
    | shift state symbol =>
      simp only [List.filterMap_cons, shift?, reduction?, List.length_cons, ih]
      omega
    | reduce rule =>
      simp only [List.filterMap_cons, shift?, reduction?, List.length_cons, ih]
      omega

/-- In a run that is cut short at least every second step shows. -/
theorem Run.extend_cut {t : ParseTable} {limit : Nat} {before : Array Event}
    (hcut : (Run.extend t limit before m).outcome = none) :
    ∃ m' events, Steps t m events m' ∧ limit ≤ 2 * events.length + 1 ∧
      (m.phase ≠ .deciding → limit ≤ 2 * events.length) := by
  induction limit generalizing before m with
  | zero => exact ⟨m, [], .done m, Nat.zero_le _, fun _ => Nat.zero_le _⟩
  | succ limit ih =>
    rw [Run.extend] at hcut
    cases hstep : m.step t with
    | halt outcome =>
      rw [hstep] at hcut
      exact absurd hcut (by simp)
    | next m₁ event =>
      rw [hstep] at hcut
      obtain ⟨m', events, hsteps, hle, hle'⟩ := ih hcut
      refine ⟨m', _, .step hstep hsteps, ?_⟩
      cases event with
      -- a step that shows nothing has looked an action up, and the next step shows something
      | none =>
        obtain ⟨hdeciding, hreducing⟩ := Configuration.phase_of_silent hstep
        have hle := hle' hreducing
        rw [Option.toList_none, List.nil_append]
        exact ⟨by omega, fun hne => absurd hdeciding hne⟩
      | some event =>
        rw [Option.toList_some, List.singleton_append, List.length_cons]
        exact ⟨by omega, fun _ => by omega⟩

/-- A run whose events are bounded comes to an end. -/
theorem Steps.exists_halt {t : ParseTable} {n : Nat}
    (hbound : ∀ m' events, Steps t m events m' → events.length ≤ n) :
    ∃ m' events outcome, Steps t m events m' ∧ m'.step t = .halt outcome := by
  cases houtcome : (Run.extend t (2 * n + 2) #[] m).outcome with
  | none =>
    obtain ⟨m', events, hsteps, hle, -⟩ := Run.extend_cut houtcome
    have := hbound m' events hsteps
    omega
  | some outcome =>
    obtain ⟨m', events, hsteps, -, -, hhalt⟩ := Run.extend_steps t (2 * n + 2) #[] m
    exact ⟨m', events, outcome, hsteps, hhalt outcome houtcome⟩

/-! ## Without conflicts

  The bounds for the forests on a path are bounds for the events of a run. -/

/-- The forest of what was done since the start; its yield are the first symbols that were ahead. -/
theorem Tracks.since_start (h : d.build settings = .ok c) {events : List Event}
    (hsteps : Steps c.table (Configuration.start input) events m) :
    ∃ p ps α ts k, Tracks c input m p ps α ts k ∧
      postorders ts = events.filterMap Event.reduction? ∧
      (yields ts).length = (events.filterMap Event.shift?).length ∧
      ∀ i a : Nat, (yields ts)[i]? = some a →
        (Configuration.start input).ahead c.table i = a := by
  obtain ⟨p, ps, α, ts, k, ht, hreduced, hshifted⟩ := (Tracks.start h input).steps h hsteps
  replace hshifted : (yields ts).map Nat.cast = events.filterMap Event.shift? := hshifted
  refine ⟨p, ps, α, ts, k, ht, hreduced, ?_, fun i a ha => hsteps.ahead.1 i a ?_⟩
  · rw [← hshifted, List.length_map]
  · rw [← hshifted, List.getElem?_map, ha]
    rfl

/-- There is a bound on the events of all steps on an input. -/
theorem exists_events_le (h : d.build settings = .ok c)
    (hbinding : ∀ t, c.grammar.alphabet.binding t = none) (hconflicts : c.conflicts = #[])
    (hzero : c.table.symbolOf 0 = 0) (hshort : c.grammar.IsShort)
    (hreach : c.grammar.ProductiveFromStart) (hocc : ∀ x, c.grammar.occurrences x ≤ 65535)
    (input : List Nat) :
    ∃ n, ∀ m events, Steps c.table (Configuration.start input) events m → events.length ≤ n := by
  choose bound hbound using exists_postorders_le h hbinding hconflicts hshort hreach hocc
  -- however many terminals were shifted, they are the front of what lies ahead
  let front (n : Nat) : List Nat :=
    (List.range n).map fun i => ((Configuration.start input).ahead c.table i).toNat
  refine ⟨(input.length + 1) + (Finset.range (input.length + 2)).sup fun n => bound (front n),
    fun m events hsteps => ?_⟩
  obtain ⟨p, ps, α, ts, k, ht, hreduced, hshifted, hahead⟩ := Tracks.since_start h hsteps
  have hlength : (yields ts).length ≤ input.length + 1 := by
    refine ht.length_yields_le h hshort hreach fun i hi a ha => ?_
    have hnext := hahead i a ha
    rw [Configuration.ahead_start_of_le hi, hzero] at hnext
    exact (Int.ofNat_inj.mp hnext).symm
  have hfront : yields ts = front (yields ts).length := by
    refine List.ext_getElem (by simp [front]) fun i hi hi' => ?_
    rw [List.getElem_map, List.getElem_range, hahead i _ (List.getElem?_eq_getElem hi)]
    rfl
  have hnodes := hbound _ _ _ _ ht.path ht.forest hfront
  have hsup : bound (front (yields ts).length) ≤
      (Finset.range (input.length + 2)).sup fun n => bound (front n) :=
    Finset.le_sup (f := fun n => bound (front n)) (Finset.mem_range.mpr (by omega))
  rw [Event.length_eq, ← hshifted, ← hreduced]
  exact Nat.add_le_add hlength (hnodes.trans hsup)

/-- If nothing binds and no conflict was met, if all rules are short, and if every nonterminal that
    comes up in a derivation from the start rule derives some terminals, then the machine halts on
    every input, and not with a fault. -/
theorem parse_halts (h : d.build settings = .ok c) (hlevels : d.levels = #[])
    (hconflicts : c.conflicts = #[]) (hend : ∀ decl ∈ d.tokens, decl.name ≠ endName)
    (hshort : c.grammar.IsShort) (hreach : c.grammar.ProductiveFromStart)
    (hocc : ∀ x, c.grammar.occurrences x ≤ 65535) (input : List Nat) :
    ∃ n outcome, outcome ≠ .fault ∧
      ∀ limit, n ≤ limit → (c.table.parse limit input).outcome = some outcome := by
  have hbinding := (Declarations.build_spec h).1.binding_eq_none hlevels
  obtain ⟨n, hn⟩ := exists_events_le h hbinding hconflicts (Construction.symbolOf_zero h hend)
    hshort hreach hocc input
  obtain ⟨m, events, outcome, hsteps, hhalt⟩ := Steps.exists_halt hn
  obtain ⟨limit, hlimit⟩ := hsteps.extend_halt hhalt
  obtain ⟨p, ps, α, ts, k, ht, -⟩ := (Tracks.start h input).steps h hsteps
  refine ⟨limit, outcome, ?_, fun limit' hle => ?_⟩
  · rintro rfl
    exact ht.step_ne_fault h hhalt
  · rw [ParseTable.parse, hlimit limit' hle]

/-- The theorem for sums: the machine halts on two identifiers in a row, which are no sum. -/
theorem parse_halts_sums : ∃ c n outcome, sums.build = .ok c ∧ sums.levels = #[] ∧
    c.conflicts = #[] ∧ (∀ decl ∈ sums.tokens, decl.name ≠ endName) ∧
    c.grammar.IsShort ∧ c.grammar.ProductiveFromStart ∧ (∀ x, c.grammar.occurrences x ≤ 65535) ∧
    outcome ≠ .fault ∧
    ∀ limit, n ≤ limit → (c.table.parse limit [257, 257]).outcome = some outcome := by
  have hend : ∀ decl ∈ sums.tokens, decl.name ≠ endName := by decide
  have hreach := sums_productive.fromStart (Construction.wellFormed sums_build)
  obtain ⟨n, outcome, hfault, hhalts⟩ := parse_halts sums_build rfl sums_conflicts hend
    sums_isShort hreach sums_occurrences_le [257, 257]
  exact ⟨_, n, outcome, sums_build, rfl, sums_conflicts, hend, sums_isShort, hreach,
    sums_occurrences_le, hfault, hhalts⟩

/-! ## For ever

  A trap is a set of states between which the machine moves without taking a token. -/

namespace Construction

/-- In state `p` terminal `t` makes the machine reduce an empty rule and enter state `q`. -/
structure Slides (c : Construction) (t p q r : Nat) : Prop where
  pos : r ≠ 0
  lt : r < c.grammar.rules.size
  action : (c.coding.row p).action t = .reduce r
  empty : (c.grammar.rule r).rhs = []
  edge : c.automaton.edge p (.nonterminal (c.grammar.rule r).lhs) q

/-- From a state of the set the machine slides to another of them, and so on. -/
def Trap (c : Construction) (t : Nat) (S : Nat → Prop) : Prop :=
  ∀ p, S p → ∃ q r, S q ∧ c.Slides t p q r

/-- The machine is in a state of the set, with the terminal next; if it is to reduce, it is about to
    slide. -/
structure Trapped (c : Construction) (t : Nat) (S : Nat → Prop) (m : Configuration) (p : Nat) :
    Prop where
  mem : S p
  stack : ∃ ps, m.stack = (p :: ps).map c.code
  ahead : m.ahead c.table 0 = t
  phase : m.phase = .deciding ∨
    ∃ q r state symbol, S q ∧ c.Slides t p q r ∧ m.phase = .reducing r state symbol

section

variable (h : d.build settings = .ok c) (hsize : c.grammar.rules.size ≤ 32766) {t : Nat}
  {S : Nat → Prop} (hS : c.Trap t S)
include h hsize hS

/-- A trapped machine takes a step, and stays trapped. -/
theorem Trapped.step (hm : c.Trapped t S m p) :
    ∃ m' event q, m.step c.table = .next m' event ∧ c.Trapped t S m' q := by
  obtain ⟨ps, hstack⟩ := hm.stack
  rcases hm.phase with hphase | ⟨q, r, state, symbol, hq, hslides, hphase⟩
  · obtain ⟨q, r, hq, hslides⟩ := hS p hm.mem
    have hp := (automaton_inv h).sound.edge_src hslides.edge
    have hleaf := not_leaf_of_goto h hp hslides.edge
    have hsymbol : (m.peek c.table).1 = t := (m.peek_ahead c.table).1.trans hm.ahead
    have hstep : m.step c.table = _ := (Configuration.step_deciding hphase).trans
      (act_eq h hsize hp hleaf hstack hsymbol)
    rw [hslides.action] at hstep
    refine ⟨_, none, p, hstep, hm.mem, ⟨ps, ?_⟩, ?_, Or.inr ⟨q, r, c.code p, t, hq, hslides, rfl⟩⟩
    · exact (m.peek_stack c.table).1.trans hstack
    · exact (congrFun (m.peek_ahead c.table).2 0).trans hm.ahead
  · have hne : (r : Int) ≠ unexpectedRule := by
      have hlt := hslides.lt
      show (r : Int) ≠ 32767
      omega
    have hdrop : m.stack.drop (c.grammar.rule r).rhs.length = (p :: ps).map c.code := by
      rw [hslides.empty, hstack]
      rfl
    have hstep := (step_reduce h hphase hslides.pos hne).trans
      (reduce_eq h hslides.lt hdrop hslides.edge state symbol)
    refine ⟨_, _, q, hstep, hq, ⟨p :: ps, rfl⟩, hm.ahead, Or.inl ?_⟩
    -- the machine slides on from the state that it enters, so that is no leaf
    obtain ⟨q', r', -, hslides'⟩ := hS q hq
    have hq' := (automaton_inv h).sound.edge_src hslides'.edge
    show c.phaseIn q state symbol = .deciding
    rw [phaseIn, not_leaf_of_goto h hq' hslides'.edge]
    rfl

/-- So it never halts. -/
theorem Trapped.extend (hm : c.Trapped t S m p) (limit : Nat) (before : Array Event) :
    (Run.extend c.table limit before m).outcome = none := by
  induction limit generalizing before m p with
  | zero => rfl
  | succ limit ih =>
    obtain ⟨m', event, q, hstep, hm'⟩ := hm.step h hsize hS
    rw [Run.extend, hstep]
    exact ih hm' _

/-- A machine that starts in a trap never halts. -/
theorem Trap.never_halts (hzero : S 0) (hahead : (Configuration.start input).ahead c.table 0 = t)
    (limit : Nat) : (c.table.parse limit input).outcome = none := by
  refine Trapped.extend h hsize hS (p := 0) ⟨hzero, ⟨[], ?_⟩, hahead, Or.inl rfl⟩ limit #[]
  rw [List.map_singleton, (code_zero h).1]
  rfl

end

end Construction

/-- A grammar in which no terminals can be derived from `N`. -/
def endless : Declarations where
  rules := #[⟨"S", ["D"], none, none⟩, ⟨"S", ["E", "N"], none, none⟩,
    ⟨"S", ["W", "'u'"], none, none⟩, ⟨"S", ["V", "N"], none, none⟩, ⟨"A", [], none, none⟩,
    ⟨"B", [], none, none⟩, ⟨"D", ["B", "V"], none, none⟩, ⟨"E", ["B"], none, none⟩,
    ⟨"E", ["B", "W", "N"], none, none⟩, ⟨"V", ["A"], none, none⟩,
    ⟨"V", ["A", "D", "N"], none, none⟩, ⟨"W", ["A", "E"], none, none⟩,
    ⟨"N", ["N", "'z'"], none, none⟩]

/-- The grammar that they declare. -/
def endlessGrammar : Grammar where
  alphabet :=
    { terminals := #[⟨"$end", 0, none⟩, ⟨"'u'", 117, none⟩, ⟨"'z'", 122, none⟩]
      nonterminals := #["$start", "S", "A", "B", "D", "E", "V", "W", "N"] }
  rules := #[⟨0, [.nonterminal 1, .terminal 0], none, none⟩, ⟨1, [.nonterminal 4], none, none⟩,
    ⟨1, [.nonterminal 5, .nonterminal 8], none, none⟩,
    ⟨1, [.nonterminal 7, .terminal 1], none, none⟩,
    ⟨1, [.nonterminal 6, .nonterminal 8], none, none⟩, ⟨2, [], none, none⟩,
    ⟨3, [], none, none⟩, ⟨4, [.nonterminal 3, .nonterminal 6], none, none⟩,
    ⟨5, [.nonterminal 3], none, none⟩,
    ⟨5, [.nonterminal 3, .nonterminal 7, .nonterminal 8], none, none⟩,
    ⟨6, [.nonterminal 2], none, none⟩,
    ⟨6, [.nonterminal 2, .nonterminal 4, .nonterminal 8], none, none⟩,
    ⟨7, [.nonterminal 2, .nonterminal 5], none, none⟩,
    ⟨8, [.nonterminal 8, .terminal 2], none, none⟩]

set_option maxRecDepth 100000 in
/-- What comes of them.  In states 0 and 6 the default is to reduce `A`, in state 7, which `A` leads
    to, `B`, and `B` leads to state 6 again. -/
theorem endless_run : (Construction.ofGrammar {} endlessGrammar).succeeds = true ∧
    (Construction.ofGrammar {} endlessGrammar).decisions =
      { rows := #[⟨[(0, .reduce 6)], [(1, 1), (4, 2), (5, 3), (7, 4), (6, 5), (3, 6), (2, 7)],
            .reduce 5⟩,
          ⟨[(0, .shift 8)], [], .error⟩, ⟨[], [], .reduce 1⟩, ⟨[], [(8, 9)], .error⟩,
          ⟨[(1, .shift 10)], [], .error⟩, ⟨[], [(8, 11)], .error⟩,
          ⟨[(1, .reduce 8)], [(6, 12), (7, 13), (2, 7)], .reduce 5⟩,
          ⟨[(0, .reduce 10)], [(5, 14), (4, 15), (3, 6)], .reduce 6⟩, ⟨[], [], .accept⟩,
          ⟨[(2, .shift 16)], [], .reduce 2⟩, ⟨[], [], .reduce 3⟩,
          ⟨[(2, .shift 16)], [], .reduce 4⟩, ⟨[], [], .reduce 7⟩, ⟨[], [(8, 17)], .error⟩,
          ⟨[], [], .reduce 12⟩, ⟨[], [(8, 18)], .error⟩, ⟨[], [], .reduce 13⟩,
          ⟨[(2, .shift 16)], [], .reduce 9⟩, ⟨[(2, .shift 16)], [], .reduce 11⟩]
        conflicts := #[] } := by cbv

/-- A table for the endless grammar is built. -/
theorem endless_build : endless.build = .ok (Construction.ofGrammar {} endlessGrammar) :=
  Declarations.build_of_succeeds (by cbv) endless_run.1

/-- On `'z'` the machine slides from state 0 to state 7, and then from 7 to 6 and back. -/
theorem endless_trap : (Construction.ofGrammar {} endlessGrammar).Trap 2 fun p =>
    p = 0 ∨ p = 6 ∨ p = 7 := by
  have hsize : (Construction.ofGrammar {} endlessGrammar).automaton.states.size = 19 := by
    rw [← Construction.size_rows endless_build, endless_run.2]
    rfl
  -- what the run of the builder shows of a row is what sliding asks for
  have hslides : ∀ p q r, p < 19 → r ≠ 0 → r < endlessGrammar.rules.size →
      ((Construction.ofGrammar {} endlessGrammar).decisions.rows.getD p default).action 2 =
        .reduce r →
      (endlessGrammar.rule r).rhs = [] →
      ((endlessGrammar.rule r).lhs, q) ∈
        ((Construction.ofGrammar {} endlessGrammar).decisions.rows.getD p default).gotos →
      (Construction.ofGrammar {} endlessGrammar).Slides 2 p q r := by
    intro p q r hp hpos hlt haction hempty hgoto
    exact ⟨hpos, hlt, haction, hempty,
      (Construction.mem_row_gotos endless_build (hsize ▸ hp)).mp hgoto⟩
  simp only [endless_run.2] at hslides
  rintro p (rfl | rfl | rfl)
  · exact ⟨7, 5, Or.inr (Or.inr rfl), hslides 0 7 5 (by decide) (by decide) (by decide) (by decide)
      rfl (by decide)⟩
  · exact ⟨7, 5, Or.inr (Or.inr rfl), hslides 6 7 5 (by decide) (by decide) (by decide) (by decide)
      rfl (by decide)⟩
  · exact ⟨6, 6, Or.inr (Or.inl rfl), hslides 7 6 6 (by decide) (by decide) (by decide) (by decide)
      rfl (by decide)⟩

/-- There are no levels, no conflicts and no declaration of the end of input, and yet on a single
    `'z'` the machine never halts. -/
theorem endless_never_halts : ∃ c, endless.build = .ok c ∧ endless.levels = #[] ∧
    c.conflicts = #[] ∧ (∀ decl ∈ endless.tokens, decl.name ≠ endName) ∧
    ∀ limit, (c.table.parse limit [122]).outcome = none := by
  have hconflicts : (Construction.ofGrammar {} endlessGrammar).conflicts = #[] :=
    congrArg Decisions.conflicts endless_run.2
  have hcode : (Construction.ofGrammar {} endlessGrammar).table.symbolOf 122 = (2 : Nat) := by
    have hsymbol := Construction.symbolOf_rawCode endless_build (t := 2)
      (show 2 < endlessGrammar.terminalCount by decide)
    have hraw : (Construction.ofGrammar {} endlessGrammar).grammar.rawCode 2 = 122 := rfl
    exact hraw ▸ hsymbol
  exact ⟨_, endless_build, rfl, hconflicts, by decide,
    endless_trap.never_halts endless_build (by decide) (Or.inl rfl)
      ((Configuration.ahead_start_cons _ _ _).trans hcode)⟩

end Lalr
