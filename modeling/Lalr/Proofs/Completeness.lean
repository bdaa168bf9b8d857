/-
  Without conflicts the machine accepts everything that the grammar derives.

  The machine goes along every walk over the automaton: it shifts the terminals that are crossed,
  and reduces by the rules that are reduced (`Walk.runs`).  Every tree of the start symbol is walked
  along, and the walk ends in the state where the machine accepts (`parse_tree`).

  The machine takes its tokens as it needs them; `Feeds` says what terminals it will be given.
-/
import Mathlib
import Lalr.Proofs.Soundness
import Lalr.Proofs.Walk

namespace Lalr

open ParseTree

/-! ## What the machine is given

  The terminals to come are in up to three places: the lookahead, the input, and past its end.
  They are one list, and whether a token was looked at already makes no difference to it. -/

/-- The machine will be given the terminals of `u`: the lookahead, then those of the input, then the
    end of input again and again. -/
def Feeds (t : ParseTable) (m : Configuration) (u : List Nat) : Prop :=
  ∃ k, m.look.toList ++ m.input.map t.symbolOf ++ List.replicate k 0 = u.map Nat.cast

/-- The next token is the next terminal to come. -/
theorem Feeds.peek {t : ParseTable} (hend : t.symbolOf 0 = 0) {m : Configuration} {a : Nat}
    {u : List Nat} (h : Feeds t m (a :: u)) :
    (m.peek t).1 = a ∧ (m.peek t).2.look = some (a : Int) ∧ Feeds t (m.peek t).2 (a :: u) ∧
      (m.peek t).2.stack = m.stack ∧ (m.peek t).2.phase = m.phase := by
  obtain ⟨k, hk⟩ := h
  unfold Configuration.peek
  -- a token was looked at already, or the input is at its end, or there is one to read
  split
  · rename_i symbol hlook
    rw [hlook] at hk
    have hsymbol : symbol = a := (List.cons.inj hk).1
    subst hsymbol
    exact ⟨rfl, hlook, ⟨k, by rw [hlook]; exact hk⟩, rfl, rfl⟩
  · rename_i hlook
    rw [hlook] at hk
    split
    · rename_i hinput
      rw [hinput] at hk
      cases k with
      | zero => exact absurd hk (by simp)
      | succ k =>
        obtain ⟨hzero, hrest⟩ := List.cons.inj hk
        have hsymbol : t.symbolOf 0 = a := hend.trans hzero
        refine ⟨hsymbol, congrArg some hsymbol, ⟨k, ?_⟩, rfl, rfl⟩
        show t.symbolOf 0 :: (m.input.map t.symbolOf ++ List.replicate k 0) = _
        rw [hsymbol, hinput]
        exact congrArg (List.cons _) hrest
    · rename_i raw rest hinput
      rw [hinput] at hk
      have hsymbol : t.symbolOf raw = a := (List.cons.inj hk).1
      exact ⟨hsymbol, congrArg some hsymbol, ⟨k, hk⟩, rfl, rfl⟩

/-- When the lookahead is used up, the next terminal is due. -/
theorem Feeds.shift {t : ParseTable} {m m' : Configuration} {a : Nat} {u : List Nat}
    (h : Feeds t m (a :: u)) (hlook : m.look = some (a : Int)) (hlook' : m'.look = none)
    (hinput : m'.input = m.input) : Feeds t m' u := by
  obtain ⟨k, hk⟩ := h
  rw [hlook] at hk
  refine ⟨k, ?_⟩
  rw [hlook', hinput]
  exact (List.cons.inj hk).2

theorem Feeds.congr {t : ParseTable} {m m' : Configuration} {u : List Nat} (h : Feeds t m u)
    (hlook : m'.look = m.look) (hinput : m'.input = m.input) : Feeds t m' u := by
  obtain ⟨k, hk⟩ := h
  refine ⟨k, ?_⟩
  rw [hlook, hinput]
  exact hk

/-! ## Entering states

  A state that is a leaf is entered without being asked for a token, and reduces at once.
  `Entered` is what both have in common, so walks need not tell leaves from other states. -/

/-- The machine has entered state `p`, over the states `ps`. -/
structure Entered (c : Construction) (m : Configuration) (p : Nat) (ps : List Nat) : Prop where
  stack : m.stack = (p :: ps).map c.code
  phase : ∃ state symbol, m.phase =
    if c.isLeaf p then .reducing (Coding.fallbackRule (c.coding.row p).fallback) state symbol
    else .deciding

/-- A state that is no leaf has to decide. -/
theorem Entered.deciding {c : Construction} {m : Configuration} {p : Nat} {ps : List Nat}
    (h : Entered c m p ps) (hleaf : c.isLeaf p = false) : m.phase = .deciding := by
  obtain ⟨state, symbol, hphase⟩ := h.phase
  rw [hphase, hleaf]
  rfl

/-! ## Single steps

  What one step of a walk asks of the machine: to shift the terminal that is due, and to reduce
  where a rule is completed.  Without conflicts the table has no other entry for it. -/

/-- The construction met no conflict, its end of input is what an exhausted input gives, and rules
    and kernels are small enough for their numbers. -/
structure Deterministic (d : Declarations) (settings : Settings) (c : Construction) : Prop where
  build : d.build settings = .ok c
  binding : ∀ t, c.grammar.alphabet.binding t = none
  conflicts : c.conflicts = #[]
  symbolOf_zero : c.table.symbolOf 0 = 0
  size_le : c.grammar.rules.size ≤ 32766
  isShort : c.grammar.IsShort
  occurrences_le : ∀ x, c.grammar.occurrences x ≤ 65535

variable {d : Declarations} {settings : Settings} {c : Construction} {m : Configuration}
  {p q : Nat} {ps : List Nat}

section

variable (hc : Deterministic d settings c)
include hc

/-- A terminal that is due is shifted. -/
theorem Entered.shift (hm : Entered c m p ps) {t : Nat} {u : List Nat}
    (he : c.automaton.edge p (.terminal t) q) (hfeeds : Feeds c.table m (t :: u)) :
    ∃ m' state, m.step c.table = .next m' (some (.shift state t)) ∧ Entered c m' q (p :: ps) ∧
      Feeds c.table m' u := by
  have hw := (Construction.automaton_inv hc.build).sound
  have hleaf := Construction.not_leaf_of_edge hc.build hc.binding hc.conflicts he
  obtain ⟨hsymbol, hlook, hpeek, hstack, -⟩ := hfeeds.peek hc.symbolOf_zero
  have haction : (c.coding.row p).action t = .shift q := by
    rw [ActionRow.action, Construction.lookup_shift hc.build hc.binding hc.conflicts he]
    rfl
  have hstep : m.step c.table = _ := (Configuration.step_deciding (hm.deciding hleaf)).trans
    (Construction.act_eq hc.build hc.size_le (hw.edge_src he) hleaf hm.stack hsymbol)
  rw [haction, Construction.perform, hstack, hm.stack] at hstep
  exact ⟨_, c.code p, hstep, ⟨rfl, c.code p, t, rfl⟩, hpeek.shift hlook rfl rfl⟩

/-- Where a rule is completed and the next terminal is in its lookahead, the machine sets about
    reducing by it. -/
theorem Entered.decide (hm : Entered c m p ps) (hp : p < c.automaton.states.size) {r a : Nat}
    (hr : r ≠ 0) {u : List Nat} (hon : (c.automaton.state p).CompletesOn c.grammar r a)
    (hfeeds : Feeds c.table m (a :: u)) :
    ∃ m' state symbol, Steps c.table m [] m' ∧ m'.stack = m.stack ∧
      m'.phase = .reducing r state symbol ∧ Feeds c.table m' (a :: u) := by
  have hreduce := Construction.action_reduce hc.build hc.binding hc.conflicts hp hr hon
  cases hleaf : c.isLeaf p with
  | true =>
    -- a leaf has no entries, so the rule is its fallback
    obtain ⟨state, symbol, hphase⟩ := hm.phase
    have hrow : (c.coding.row p).isLeaf = true := by
      rw [Construction.isLeaf, Numbering.isLeaf, Bool.and_eq_true] at hleaf
      exact hleaf.2
    have hempty : (c.coding.row p).actions = [] := by
      rw [ActionRow.isLeaf, Bool.and_eq_true, Bool.and_eq_true] at hrow
      exact List.isEmpty_iff.mp hrow.1.1
    have hfall : (c.coding.row p).fallback = .reduce r := by
      rw [ActionRow.action, hempty] at hreduce
      exact hreduce
    rw [hleaf, hfall] at hphase
    exact ⟨m, state, symbol, .done m, rfl, hphase, hfeeds⟩
  | false =>
    obtain ⟨hsymbol, -, hpeek, hstack, -⟩ := hfeeds.peek hc.symbolOf_zero
    have hstep : m.step c.table = _ := (Configuration.step_deciding (hm.deciding hleaf)).trans
      (Construction.act_eq hc.build hc.size_le hp hleaf hm.stack hsymbol)
    rw [hreduce, Construction.perform_of_ne_shift (by simp)] at hstep
    exact ⟨_, c.code p, a, .step hstep (.done _), hstack, rfl, hpeek.congr rfl rfl⟩

/-- A reduction takes the right side off the stack and enters the state that the left side leads to.
    -/
theorem reduce_step {r : Nat} (hr : r ≠ 0) (hrule : r < c.grammar.rules.size)
    {state : Nat} {symbol : Int} (hphase : m.phase = .reducing r state symbol)
    (hstack : m.stack.drop (c.grammar.rule r).rhs.length = (p :: ps).map c.code)
    (he : c.automaton.edge p (.nonterminal (c.grammar.rule r).lhs) q) {u : List Nat}
    (hfeeds : Feeds c.table m u) :
    ∃ m', m.step c.table = .next m' (some (.reduce r)) ∧ Entered c m' q (p :: ps) ∧
      Feeds c.table m' u := by
  have hunexpected : (r : Int) ≠ unexpectedRule := by
    have hsize := hc.size_le
    rw [unexpectedRule]
    omega
  rw [Construction.step_reduce hc.build hphase hr hunexpected,
    Construction.reduce_eq hc.build hrule hstack he]
  exact ⟨_, rfl, ⟨rfl, state, symbol, rfl⟩, hfeeds.congr rfl rfl⟩

/-! ## Along walks

  Induction on the walk.  What is still to be given behind it is left open, so that the parts of
  a walk can be put one after the other. -/

/-- The machine goes along a walk: it shifts what is crossed, and reduces what is reduced. -/
theorem Walk.runs {qs u v : List Nat} {l : List Visit} (hwalk : Walk c p ps u l q qs v)
    (hp : p < c.automaton.states.size) (hm : Entered c m p ps) (hfeeds : Feeds c.table m u) :
    ∃ m' events, Steps c.table m events m' ∧ Entered c m' q qs ∧ Feeds c.table m' v ∧
      events.filterMap Event.reduction? = l.filterMap Visit.node? := by
  have hw := (Construction.automaton_inv hc.build).sound
  induction hwalk generalizing m with
  | done => exact ⟨m, [], .done m, hm, hfeeds, rfl⟩
  | cross he _ ih =>
    obtain ⟨m₁, state, hstep, hm₁, hfeeds₁⟩ := hm.shift hc he hfeeds
    obtain ⟨m', events, hsteps, hm', hfeeds', hevents⟩ := ih (hw.edge_lt he) hm₁ hfeeds₁
    exact ⟨m', _, .step hstep hsteps, hm', hfeeds', hevents⟩
  | @reduce p p₁ p' r a q ps ps₁ u qs v l hr hrule hon hdrop he _ ih =>
    obtain ⟨m₁, state, symbol, hsteps₁, hstack₁, hphase₁, hfeeds₁⟩ := hm.decide hc hp hr hon hfeeds
    have hstack : m₁.stack.drop (c.grammar.rule r).rhs.length = (p₁ :: ps₁).map c.code := by
      rw [hstack₁, hm.stack, ← List.map_drop, hdrop]
    obtain ⟨m₂, hstep, hm₂, hfeeds₂⟩ := reduce_step hc hr hrule hphase₁ hstack he hfeeds₁
    obtain ⟨m', events, hsteps, hm', hfeeds', hevents⟩ := ih (hw.edge_lt he) hm₂ hfeeds₂
    exact ⟨m', _, hsteps₁.trans (.step hstep hsteps), hm', hfeeds', congrArg (r :: ·) hevents⟩

/-! ## From the start to the end -/

/-- In the state that completes rule 0 the machine accepts. -/
theorem Entered.accepts (hm : Entered c m p ps) (hp : p < c.automaton.states.size)
    (hfinal : (c.automaton.state p).Completes c.grammar 0) :
    m.step c.table = .halt .accepted := by
  obtain ⟨hleaf, hfall⟩ := Construction.isLeaf_of_final hc.build hp hfinal
  obtain ⟨state, symbol, hphase⟩ := hm.phase
  rw [hleaf, hfall] at hphase
  rw [Configuration.step, hphase]
  rfl

/-- The machine accepts a tree of the start symbol, if it is given the tree's yield. -/
theorem parse_tree {tree : ParseTree} (htree : IsTree c.grammar c.grammar.start tree)
    {input : List Nat} (hinput : input.map c.table.symbolOf = tree.yield.map Nat.cast) :
    ∃ n, ∀ limit, n ≤ limit → (c.table.parse limit input).outcome = some .accepted ∧
      (c.table.parse limit input).reduced = tree.postorder := by
  obtain ⟨hcode, hleaf⟩ := Construction.code_zero hc.build
  have hm : Entered c (Configuration.start input) 0 [] := by
    refine ⟨?_, 0, 0, ?_⟩
    · show [0] = [c.code 0]
      rw [hcode]
    · rw [hleaf]
      rfl
  -- the end of input stands behind the tokens
  have hfeeds : Feeds c.table (Configuration.start input) (tree.yield ++ [0]) := by
    refine ⟨1, ?_⟩
    show [] ++ input.map c.table.symbolOf ++ [0] = _
    rw [hinput, List.map_append]
    rfl
  obtain ⟨q, qs, hwalk, hfinal, hq⟩ := walk_tree hc.build hc.isShort hc.occurrences_le htree
  obtain ⟨m, events, hsteps, hm', -, hevents⟩ :=
    hwalk.runs hc (Construction.automaton_inv hc.build).sound.pos hm hfeeds
  obtain ⟨n, hn⟩ := hsteps.extend_halt (hm'.accepts hc hq hfinal)
  refine ⟨n, fun limit hlimit => ?_⟩
  have hrun := hn limit hlimit #[]
  refine ⟨by rw [ParseTable.parse, hrun], ?_⟩
  rw [ParseTable.parse, hrun, Run.reduced, Array.toList_append, List.nil_append, hevents,
    List.filterMap_append, (filterMap_visits tree).2]
  exact List.append_nil _

end

/-! ## Declarations without precedences

  Where no levels are declared, nothing binds, whatever the rules are.  The grammar being
  `Deterministic` is then read off the conflicts alone. -/

/-- Without levels nothing binds. -/
theorem Resolved.binding_eq_none {g : Grammar} (h : Resolved d g) (hlevels : d.levels = #[])
    (t : Nat) : g.alphabet.binding t = none := by
  have hnone : ∀ name code, (d.terminal name code).binding = none := by
    intro name code
    show (if _ then none else d.bindingOf name) = none
    split
    · rfl
    · rw [Declarations.bindingOf, hlevels]
      rfl
  rw [Alphabet.binding, h.alphabet_eq]
  show ((d.codedTerminals.map _).toArray[t]?.bind _) = none
  rw [List.getElem?_toArray, List.getElem?_map]
  cases d.codedTerminals[t]? with
  | none => rfl
  | some coded => exact hnone coded.1 coded.2

section

variable {g : Grammar}

mutual

/-- The leaves of a tree are terminals of the alphabet. -/
theorem IsTree.yield_lt (wf : g.WellFormed) {x : Symbol} {t : ParseTree} (hx : g.alphabet.Has x) :
    IsTree g x t → ∀ a ∈ t.yield, a < g.terminalCount
  | .leaf a => by
    intro b hb
    rw [yield, List.mem_singleton] at hb
    exact hb ▸ hx
  | .node hr h => by
    rw [yield]
    exact h.yields_lt wf (wf.rhs_has hr)

theorem IsForest.yields_lt (wf : g.WellFormed) {α : List Symbol} {ts : List ParseTree}
    (hα : ∀ x ∈ α, g.alphabet.Has x) : IsForest g α ts → ∀ a ∈ yields ts, a < g.terminalCount
  | .nil => fun _ ha => absurd ha List.not_mem_nil
  | .cons head tail => by
    intro a ha
    rw [yields, List.mem_append] at ha
    rcases ha with ha | ha
    · exact head.yield_lt wf (hα _ List.mem_cons_self) a ha
    · exact tail.yields_lt wf (fun x hx => hα x (List.mem_cons_of_mem _ hx)) a ha

end

end

/-- An exhausted input gives the end of input, if no declaration changes its code. -/
theorem Construction.symbolOf_zero (h : d.build settings = .ok c)
    (hend : ∀ decl ∈ d.tokens, decl.name ≠ endName) : c.table.symbolOf 0 = 0 := by
  have hres := (Declarations.build_spec h).1
  have hcode := symbolOf_rawCode h hres.terminals_pos
  rw [Grammar.rawCode, hres.code_zero hend] at hcode
  exact hcode

/-- What theorems about tables without conflicts have in common. -/
theorem Deterministic.of_build (h : d.build settings = .ok c) (hlevels : d.levels = #[])
    (hconflicts : c.conflicts = #[]) (hend : ∀ decl ∈ d.tokens, decl.name ≠ endName)
    (hrules : d.rules.size ≤ 32765) (hshort : c.grammar.IsShort)
    (hocc : ∀ x, c.grammar.occurrences x ≤ 65535) : Deterministic d settings c where
  build := h
  binding := (Declarations.build_spec h).1.binding_eq_none hlevels
  conflicts := hconflicts
  symbolOf_zero := Construction.symbolOf_zero h hend
  size_le := by
    rw [(Declarations.build_spec h).1.size_rules]
    omega
  isShort := hshort
  occurrences_le := hocc

/-- The machine accepts the raw codes of a yield. -/
theorem parse_yield (hc : Deterministic d settings c) {tree : ParseTree}
    (htree : IsTree c.grammar c.grammar.start tree) :
    ∃ n, ∀ limit, n ≤ limit →
      (c.table.parse limit (tree.yield.map c.grammar.rawCode)).outcome = some .accepted ∧
      (c.table.parse limit (tree.yield.map c.grammar.rawCode)).reduced = tree.postorder := by
  have wf := Construction.wellFormed hc.build
  exact parse_tree hc htree (Construction.map_symbolOf hc.build (htree.yield_lt wf wf.has_start))

/-- If all rules are short, nothing binds and no conflict was met, the machine accepts the raw codes
    of the yield of every tree of the start symbol, and reduces the tree's postorder.  So no other
    tree has the yield. -/
theorem parse_complete (h : d.build settings = .ok c) (hlevels : d.levels = #[])
    (hconflicts : c.conflicts = #[]) (hend : ∀ decl ∈ d.tokens, decl.name ≠ endName)
    (hrules : d.rules.size ≤ 32765) (hshort : c.grammar.IsShort)
    (hocc : ∀ x, c.grammar.occurrences x ≤ 65535) {tree : ParseTree}
    (htree : IsTree c.grammar (.nonterminal (c.grammar.alphabet.lhs d.startSymbol)) tree) :
    (∃ n, ∀ limit, n ≤ limit →
      (c.table.parse limit (tree.yield.map c.grammar.rawCode)).outcome = some .accepted ∧
      (c.table.parse limit (tree.yield.map c.grammar.rawCode)).reduced = tree.postorder) ∧
    ∀ tree', IsTree c.grammar (.nonterminal (c.grammar.alphabet.lhs d.startSymbol)) tree' →
      tree'.yield = tree.yield → tree' = tree := by
  have hc := Deterministic.of_build h hlevels hconflicts hend hrules hshort hocc
  have hstart := (Declarations.build_spec h).1.start_eq
  rw [← hstart] at htree ⊢
  obtain ⟨n, hn⟩ := parse_yield hc htree
  refine ⟨⟨n, hn⟩, fun tree' htree' hyield => ?_⟩
  obtain ⟨n', hn'⟩ := parse_yield hc htree'
  refine htree'.eq_of_postorder_eq htree ?_
  rw [← (hn (max n n') (Nat.le_max_left _ _)).2, ← (hn' (max n n') (Nat.le_max_right _ _)).2,
    hyield]

/-- The theorem for sums: the tree of two identifiers that are added. -/
theorem parse_complete_sums : ∃ c tree, sums.build = .ok c ∧ sums.levels = #[] ∧
    c.conflicts = #[] ∧ (∀ decl ∈ sums.tokens, decl.name ≠ endName) ∧ sums.rules.size ≤ 32765 ∧
    c.grammar.IsShort ∧ (∀ x, c.grammar.occurrences x ≤ 65535) ∧
    IsTree c.grammar (.nonterminal (c.grammar.alphabet.lhs sums.startSymbol)) tree ∧
    tree.yield.map c.grammar.rawCode = [257, 43, 257] ∧ tree.postorder = [3, 2, 3, 1] ∧
    ∃ n, ∀ limit, n ≤ limit →
      (c.table.parse limit [257, 43, 257]).outcome = some .accepted ∧
      (c.table.parse limit [257, 43, 257]).reduced = [3, 2, 3, 1] := by
  have hend : ∀ decl ∈ sums.tokens, decl.name ≠ endName := by decide
  have hid : IsTree sumsGrammar (.nonterminal 2) (.node 3 [.leaf 1]) :=
    IsTree.node (r := 3) (by decide) (.cons (.leaf 1) .nil)
  have hsum : IsTree sumsGrammar (.nonterminal 1) (.node 2 [.node 3 [.leaf 1]]) :=
    IsTree.node (r := 2) (by decide) (.cons hid .nil)
  have htree : IsTree sumsGrammar (.nonterminal (sumsGrammar.alphabet.lhs sums.startSymbol))
      (.node 1 [.node 2 [.node 3 [.leaf 1]], .leaf 2, .node 3 [.leaf 1]]) := by
    have hstart : sumsGrammar.alphabet.lhs sums.startSymbol = 1 := by cbv
    rw [hstart]
    exact IsTree.node (r := 1) (by decide) (.cons hsum (.cons (.leaf 2) (.cons hid .nil)))
  obtain ⟨⟨n, hn⟩, -⟩ := parse_complete sums_build rfl sums_conflicts hend (by decide)
    sums_isShort sums_occurrences_le htree
  exact ⟨_, .node 1 [.node 2 [.node 3 [.leaf 1]], .leaf 2, .node 3 [.leaf 1]], sums_build, rfl,
    sums_conflicts, hend, by decide, sums_isShort, sums_occurrences_le, htree, rfl, rfl, n, hn⟩

end Lalr
