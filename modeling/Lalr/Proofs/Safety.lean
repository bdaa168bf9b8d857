/-
  The machine never leaves the table.

  Its stack holds the codes of the states on a path of the automaton, at every step of every run
  (`Tracks.steps`).  From this alone it follows (`Safe`) that

    * a state in which an action is looked up is no leaf, so it has action rows and a default;
    * a reduction finds more codes on the stack than the rule is long, and what then comes to light
      is a state with a move on the left side.

  So a machine that follows the table never takes more off the stack than there is, and never reads
  past the end of an array.  Nothing is assumed of the size of the grammar, nor of its conflicts.
-/
import Mathlib
import Lalr.Proofs.Soundness

namespace Lalr

/-! ## What is in bounds

  The arrays of a table have the sizes that their indices need.  What is asked of an index in a
  step is that it comes from a state on the path, or from a rule that is completed there. -/

namespace ParseTable

/-- All that is read when the action of a state is looked up is there. -/
structure HasRows (t : ParseTable) (state : Nat) : Prop where
  not_leaf : state < t.nonLeafCount
  first : state < t.actions.base.size
  second : state < t.splitCount → state + t.nonLeafCount < t.actions.base.size
  fallback : state < t.actionDefault.size

/-- All that is read of a rule when it is reduced is there, and so is the goto row of its left side.
    -/
structure HasRule (t : ParseTable) (rule length lhs : Nat) : Prop where
  text : rule < t.ruleTexts.size
  ruleToLength : t.ruleToLength[rule]? = some (length : Int)
  ruleToNonterminal : t.ruleToNonterminal[rule]? = some (lhs : Int)
  row : lhs < t.gotos.base.size
  fallback : lhs < t.gotoDefault.size

end ParseTable

namespace Construction

/-- A reduction by `rule` leaves codes on the stack.  The first of them is the number of a state
    `q`, and the goto that is asked for is a move of `q`. -/
def Uncovers (c : Construction) (stack : List Nat) (rule : Nat) : Prop :=
  ∃ length lhs q q', c.table.HasRule rule length lhs ∧ length < stack.length ∧
    (stack.drop length).head? = some (c.number q) ∧ c.number q < c.table.nonLeafCount ∧
    c.automaton.edge q (.nonterminal lhs) q' ∧
    c.table.gotoAt lhs (c.number q) = .ok (c.coding.stateCode q')

/-- The machine does not leave the table in its next step. -/
structure Safe (c : Construction) (m : Configuration) : Prop where
  stack : ∃ ps α, Path c.automaton.edge ps α ∧ ps ≠ [] ∧ m.stack = ps.map c.code
  deciding : m.phase = .deciding → c.table.HasRows m.top
  reducing : ∀ rule state symbol, m.phase = .reducing rule state symbol →
    rule ≠ 0 → rule ≠ c.table.unexpectedRule →
    0 ≤ rule ∧ c.Uncovers m.stack rule.toNat

variable {d : Declarations} {settings : Settings} {c : Construction} {p r : Nat} {ps : List Nat}
  {α : List Symbol}

/-- Every slot that is marked has a value. -/
theorem size_check (h : d.build settings = .ok c) :
    c.table.actions.check.size = c.table.actions.values.size ∧
      c.table.gotos.check.size = c.table.gotos.values.size := by
  have hrows : ∀ s, SortedByKey ((Coding.ofRows c.decisions.rows).row s).actions :=
    sortedByKey_row h
  rw [table_eq h]
  constructor
  · exact (Encoded.size_actions c.grammar settings.defaultText hrows).2
  · exact (Encoded.size_gotos c.grammar settings.defaultText).2.2

/-- A state that is no leaf has action rows. -/
theorem hasRows (h : d.build settings = .ok c) (hp : p < c.automaton.states.size)
    (hleaf : c.isLeaf p = false) : c.table.HasRows (c.number p) := by
  have hlt := (number_lt_nonLeafCount_iff h hp).mpr hleaf
  have hrows : ∀ s, SortedByKey ((Coding.ofRows c.decisions.rows).row s).actions :=
    sortedByKey_row h
  have hbase : c.table.actions.base.size = c.table.nonLeafCount + c.table.splitCount := by
    rw [table_eq h]
    exact (Encoded.size_actions c.grammar settings.defaultText hrows).1
  have hdefault := ParseTable.defaultRule_eq_ok.mp (defaultRule_eq h hp hleaf)
  rw [code_of_not_leaf h hp hleaf] at hdefault
  constructor
  · exact hlt
  · show c.number p < c.table.actions.base.size
    omega
  · intro hsplit
    show c.number p + c.table.nonLeafCount < c.table.actions.base.size
    omega
  · exact (Array.getElem?_eq_some_iff.mp hdefault).1

/-- A rule of the grammar whose left side is crossed somewhere has all that a reduction reads. -/
theorem hasRule (h : d.build settings = .ok c) (hr : r < c.grammar.rules.size) {q q' : Nat}
    (he : c.automaton.edge q (.nonterminal (c.grammar.rule r).lhs) q') :
    c.table.HasRule r (c.grammar.rule r).rhs.length (c.grammar.rule r).lhs := by
  have hlhs := (nonterminal_of_edge h he).2
  have hgotos : c.table.gotos.base.size = c.grammar.nonterminalCount ∧
      c.table.gotoDefault.size = c.grammar.nonterminalCount := by
    rw [table_eq h]
    obtain ⟨hbase, hdefault, -⟩ :=
      @Encoded.size_gotos c.decisions.rows c.grammar settings.defaultText
    exact ⟨hbase, hdefault⟩
  constructor
  · rw [table_eq h, Encoded.size_ruleTexts]
    exact hr
  · exact ruleToLength_eq h hr
  · exact ruleToNonterminal_eq h hr
  · rw [hgotos.1]
    exact hlhs
  · rw [hgotos.2]
    exact hlhs

/-- A rule that is completed at the end of a path can be reduced. -/
theorem uncovers (h : d.build settings = .ok c) (hpath : Path c.automaton.edge (p :: ps) α)
    (hr : r ≠ 0) (hcompletes : (c.automaton.state p).Completes c.grammar r) :
    c.Uncovers ((p :: ps).map c.code) r := by
  obtain ⟨hrule, β, q, qs, q', hdrop, -, -, he⟩ := uncover h hpath hr hcompletes
  have hq := (automaton_inv h).sound.edge_src he
  have hleaf := not_leaf_of_goto h hq he
  have hcode : c.code q = c.number q := code_of_not_leaf h hq hleaf
  refine ⟨_, _, q, q', hasRule h hrule he, ?_, ?_, (number_lt_nonLeafCount_iff h hq).mpr hleaf, he,
    ?_⟩
  · -- something is left on the path, so it is longer than what was taken off
    rw [List.length_map]
    by_contra hle
    rw [List.drop_eq_nil_of_le (Nat.le_of_not_lt hle)] at hdrop
    exact absurd hdrop (by simp)
  · rw [← List.map_drop, hdrop, List.map_cons, List.head?_cons, hcode]
  · rw [← hcode]
    exact gotoAt_edge h hq he

end Construction

/-! ## Runs

  The invariant of the machine holds after every step, and it implies that the next step is safe. -/

section

variable {d : Declarations} {settings : Settings} {c : Construction} {input : List Nat}
  {m : Configuration} {p k : Nat} {ps : List Nat} {α : List Symbol} {ts : List ParseTree}

/-- A machine at the end of a path stays within the table. -/
theorem Tracks.safe (h : d.build settings = .ok c) (ht : Tracks c input m p ps α ts k) :
    c.Safe m := by
  have hp := ht.lt_size h
  constructor
  · exact ⟨p :: ps, α, ht.path, List.cons_ne_nil p ps, ht.stack⟩
  · intro hphase
    have hleaf := ht.not_leaf hphase
    rw [ht.top, Construction.code_of_not_leaf h hp hleaf]
    exact Construction.hasRows h hp hleaf
  · intro rule state symbol hphase hzero hunexpected
    rw [Construction.unexpectedRule_eq h] at hunexpected
    have hready := ht.ready
    rw [hphase] at hready
    rcases hready.1.cases with heq | ⟨r, rfl, -, hcompletes⟩
    · exact absurd heq hunexpected
    · refine ⟨Int.natCast_nonneg r, ?_⟩
      rw [Int.toNat_natCast, ht.stack]
      exact Construction.uncovers h ht.path (fun hr => hzero (congrArg Nat.cast hr)) hcompletes

/-- A machine at the end of a path does not fall off the table. -/
theorem Tracks.step_ne_fault (h : d.build settings = .ok c) (ht : Tracks c input m p ps α ts k) :
    m.step c.table ≠ .halt .fault := by
  cases hphase : m.phase with
  | deciding =>
    obtain ⟨m₁, k', t, -, -, ⟨q, -, hnext⟩ | ⟨rule, -, -, hnext⟩⟩ := ht.step_deciding h hphase
    · rw [hnext]
      simp
    · rw [hnext]
      simp
  | reducing rule state symbol =>
    rcases ht.step_reducing h hphase with hhalt | hhalt | ⟨r, β, q, qs, q', -, -, -, -, hnext⟩
    · rw [hhalt]
      simp
    · rw [hhalt]
      simp
    · rw [hnext]
      simp

/-- At every step of every run the machine stays within the table: a state whose action is looked up
    has action rows, a reduction leaves a state with a move on the left side, and every look-up is
    in bounds. So no run ends with a fault. -/
theorem parse_safe (h : d.build settings = .ok c) (input : List Nat) :
    (∀ events m, Steps c.table (Configuration.start input) events m → c.Safe m) ∧
    c.table.actions.check.size = c.table.actions.values.size ∧
    c.table.gotos.check.size = c.table.gotos.values.size ∧
    ∀ limit, (c.table.parse limit input).outcome ≠ some .fault := by
  obtain ⟨hactions, hgotos⟩ := Construction.size_check h
  refine ⟨fun events m hsteps => ?_, hactions, hgotos, fun limit hfault => ?_⟩
  · obtain ⟨p, ps, α, ts, k, ht, -⟩ := (Tracks.start h input).steps h hsteps
    exact ht.safe h
  · obtain ⟨m, p, ps, α, ts, k, ht, hstep, -⟩ := (Tracks.start h input).run h rfl rfl hfault
    exact ht.step_ne_fault h hstep

/-- The theorem for sums: when an identifier was shifted into its leaf, the reduction by the leaf's
    rule leaves state 0 on the stack, which has a move on the left side. -/
theorem parse_safe_sums : ∃ c m events, sums.build = .ok c ∧
    Steps c.table (Configuration.start [257]) events m ∧ m.stack = [6, 0] ∧
    m.phase = .reducing 3 0 1 ∧ c.Safe m ∧ c.Uncovers m.stack 3 := by
  have hstep : (Configuration.start [257]).step (Construction.ofGrammar {} sumsGrammar).table =
      .next ⟨[6, 0], none, [], 1, .reducing 3 0 1⟩ (some (.shift 0 1)) := by
    rw [sums_table]
    decide +kernel
  have hunexpected : (Construction.ofGrammar {} sumsGrammar).table.unexpectedRule = 32767 := rfl
  have hsteps := Steps.step hstep (.done _)
  have hsafe := (parse_safe sums_build [257]).1 _ _ hsteps
  have hreduce := hsafe.reducing 3 0 1 rfl (by decide) (by rw [hunexpected]; decide)
  exact ⟨_, _, _, sums_build, hsteps, rfl, rfl, hsafe, hreduce.2⟩

end

end Lalr
