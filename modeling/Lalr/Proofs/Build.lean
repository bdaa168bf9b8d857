/-
  What is known of every construction.

  A construction that `build` returns belongs to a grammar that the declarations resolve to, and
  each of its parts is computed from that grammar (`Declarations.build_spec`).  So it is well
  formed, its automaton is sound and complete (`Construction.automaton_inv`), and its table is the
  encoding of its decisions.

  `sums` is a small set of declarations on which main results are instantiated.
-/
import Mathlib
import Lalr.Construction
import Lalr.Proofs.Decision
import Lalr.Proofs.Encoding
import Lalr.Proofs.Termination
import Lalr.Proofs.WellFormed

namespace Lalr

namespace Declarations

variable {d : Declarations} {settings : Settings} {c : Construction}

/-- A construction is what is built if it is made from the grammar of the declarations, and all its
    stages came to their end. -/
theorem build_eq_ok_iff : d.build settings = .ok c ↔ d.resolve = .ok c.grammar ∧
    c = Construction.ofGrammar settings c.grammar ∧ c.succeeds = true := by
  constructor
  · intro h
    rw [build] at h
    -- nothing is built without a grammar, or if a stage gets stuck
    cases hres : d.resolve with
    | error e =>
      rw [hres] at h
      exact absurd h (by simp [bind, Except.bind])
    | ok g =>
      rw [hres] at h
      simp only [bind, Except.bind] at h
      split at h
      · rename_i hsucceeds
        injection h with h
        subst h
        exact ⟨rfl, rfl, hsucceeds⟩
      · exact absurd h (by simp [throw, throwThe, MonadExceptOf.throw])
  · rintro ⟨hres, heq, hsucceeds⟩
    rw [build, hres]
    simp only [bind, Except.bind]
    rw [← heq, if_pos hsucceeds]
    rfl

/-- What is built is the construction for the grammar that the declarations resolve to. -/
theorem resolve_of_build (h : d.build settings = .ok c) :
    d.resolve = .ok c.grammar ∧ c = Construction.ofGrammar settings c.grammar :=
  ⟨(build_eq_ok_iff.mp h).1, (build_eq_ok_iff.mp h).2.1⟩

/-- That grammar is spelled out by `Resolved`; all that a construction holds follows from it. -/
theorem build_spec (h : d.build settings = .ok c) :
    Resolved d c.grammar ∧ c = Construction.ofGrammar settings c.grammar :=
  ⟨resolved (resolve_of_build h).1, (resolve_of_build h).2⟩

/-- Where no stage gets stuck, something is built. -/
theorem build_of_succeeds {g : Grammar} (hres : d.resolve = .ok g)
    (hsucceeds : (Construction.ofGrammar settings g).succeeds = true) :
    d.build settings = .ok (Construction.ofGrammar settings g) :=
  build_eq_ok_iff.mpr ⟨hres, rfl, hsucceeds⟩

/-- Short rules and few states are enough for a construction. -/
theorem build_of_isShort {g : Grammar} (hres : d.resolve = .ok g) (hg : g.IsShort) {n : Nat}
    (hpos : 0 < n) (hstates : (Automaton.ofAnalysis (Analysis.ofGrammar g)).states.size ≤ n)
    (hsmall : (2 * n + g.alphabet.size) ^ 2 ≤ 2 ^ 31) :
    d.build settings = .ok (Construction.ofGrammar settings g) := by
  refine build_of_succeeds hres ?_
  rw [Construction.succeeds, Bool.and_eq_true]
  refine ⟨Automaton.finished_of_isShort (resolved hres).wellFormed hg, ?_⟩
  have hrows := Decisions.forall_rows (P := fun row => SortedByKey row.actions) (g := g)
    List.Pairwise.nil fun s i => s.sortedByKey_actions g i
  have hcolumns := Decisions.forall_rows (P := fun row => ∀ e ∈ row.actions, e.1 < g.terminalCount)
    (g := g) (fun e he => absurd he List.not_mem_nil) fun s i e he => s.lt_of_mem_actions he
  exact Encoded.isNarrow_ofRows g settings.defaultText (hrows _) (hcolumns _) hpos
    ((Decisions.size_rows g _).trans_le hstates) hsmall

end Declarations

namespace Construction

variable {d : Declarations} {settings : Settings} {c : Construction}

/-- The rules of a construction are made of its symbols, and rule 0 is the start rule. -/
theorem wellFormed (h : d.build settings = .ok c) : c.grammar.WellFormed :=
  (Declarations.build_spec h).1.wellFormed

/-- The first stage of a construction, by its grammar. -/
theorem analysis_eq (h : d.build settings = .ok c) : c.analysis = Analysis.ofGrammar c.grammar := by
  have heq := (Declarations.build_spec h).2
  generalize c.grammar = g at heq
  subst heq
  rfl

/-- The automaton of a construction, by its grammar. -/
theorem automaton_eq (h : d.build settings = .ok c) :
    c.automaton = Automaton.ofAnalysis (Analysis.ofGrammar c.grammar) := by
  have heq := (Declarations.build_spec h).2
  generalize c.grammar = g at heq
  subst heq
  rfl

/-- The decisions of a construction, by its automaton. -/
theorem decisions_eq (h : d.build settings = .ok c) :
    c.decisions = Decisions.ofAutomaton c.grammar c.automaton := by
  have heq := (Declarations.build_spec h).2
  generalize hg : c.grammar = g at heq ⊢
  subst heq
  rfl

/-- The table of a construction, by its decisions. -/
theorem table_eq (h : d.build settings = .ok c) :
    c.table = (Encoded.ofRows c.grammar settings.defaultText c.decisions.rows).table := by
  have heq := (Declarations.build_spec h).2
  generalize hg : c.grammar = g at heq ⊢
  subst heq
  rfl

/-- The work on the automaton is done, and the rows are packed. -/
theorem finished_and_isNarrow (h : d.build settings = .ok c) :
    c.automaton.finished = true ∧ c.encoded.isNarrow = true := by
  have hsucceeds := (Declarations.build_eq_ok_iff.mp h).2.2
  rwa [succeeds, Bool.and_eq_true] at hsucceeds

/-- The automaton of a construction is one that the work has come to its end on. -/
theorem automaton_inv (h : d.build settings = .ok c) :
    Worklist.Inv c.grammar c.automaton.worklist := by
  have hfinished := (finished_and_isNarrow h).1
  rw [automaton_eq h] at hfinished ⊢
  exact Automaton.ofAnalysis_spec (wellFormed h) hfinished

end Construction

/-! ## Sums

  The states and the table are written out, and one run of the construction yields them
  (`sums_run`).  What is said of sums elsewhere starts from these facts, and runs nothing again. -/

/-- Sums of identifiers, grouped from the left. -/
def sums : Declarations where
  tokens := #[⟨"id", none⟩]
  rules := #[⟨"E", ["E", "'+'", "T"], none, none⟩, ⟨"E", ["T"], none, none⟩,
    ⟨"T", ["id"], none, none⟩]

/-- The grammar that they declare. -/
def sumsGrammar : Grammar where
  alphabet :=
    { terminals := #[⟨"$end", 0, none⟩, ⟨"id", 257, none⟩, ⟨"'+'", 43, none⟩]
      nonterminals := #["$start", "E", "T"] }
  rules := #[⟨0, [.nonterminal 1, .terminal 0], none, none⟩,
    ⟨1, [.nonterminal 1, .terminal 2, .nonterminal 2], none, none⟩,
    ⟨1, [.nonterminal 2], none, none⟩, ⟨2, [.terminal 1], none, none⟩]

/-- The states of their automaton.  In state 0 everything is expected, state 1 is the one behind a
    sum, and state 5 the one behind a plus. -/
def sumsStates : Array State := #[
  { items := #[⟨⟨0, 0⟩, none, 0⟩, ⟨⟨1, 0⟩, some 1, 1⟩, ⟨⟨2, 0⟩, some 1, 1⟩, ⟨⟨3, 0⟩, some 2, 2⟩]
    kernelSize := 1
    lookaheads := #[⟨0⟩, ⟨5⟩, ⟨5⟩]
    entry := none
    signature := [⟨0, 0⟩]
    moves := #[(.nonterminal 1, 1), (.nonterminal 2, 2), (.terminal 1, 3)] },
  { items := #[⟨⟨0, 1⟩, none, 0⟩, ⟨⟨1, 1⟩, none, 1⟩]
    kernelSize := 2
    lookaheads := #[⟨0⟩, ⟨5⟩]
    entry := some (.nonterminal 1)
    signature := [⟨0, 1⟩, ⟨1, 1⟩]
    moves := #[(.terminal 0, 4), (.terminal 2, 5)] },
  ⟨#[⟨⟨2, 1⟩, none, 0⟩], 1, #[⟨5⟩], some (.nonterminal 2), [⟨2, 1⟩], #[]⟩,
  ⟨#[⟨⟨3, 1⟩, none, 0⟩], 1, #[⟨5⟩], some (.terminal 1), [⟨3, 1⟩], #[]⟩,
  ⟨#[⟨⟨0, 2⟩, none, 0⟩], 1, #[⟨0⟩], some (.terminal 0), [⟨0, 2⟩], #[]⟩,
  { items := #[⟨⟨1, 2⟩, none, 0⟩, ⟨⟨3, 0⟩, some 2, 1⟩]
    kernelSize := 1
    lookaheads := #[⟨5⟩, ⟨5⟩]
    entry := some (.terminal 2)
    signature := [⟨1, 2⟩]
    moves := #[(.nonterminal 2, 6), (.terminal 1, 3)] },
  ⟨#[⟨⟨1, 3⟩, none, 0⟩], 1, #[⟨5⟩], some (.nonterminal 2), [⟨1, 3⟩], #[]⟩]

/-- What is decided for them: the states 2, 3, 4 and 6 are leaves. -/
def sumsRows : Array ActionRow :=
  #[⟨[(1, .shift 3)], [(1, 1), (2, 2)], .error⟩,
    ⟨[(0, .shift 4), (2, .shift 5)], [], .error⟩,
    ⟨[], [], .reduce 2⟩,
    ⟨[], [], .reduce 3⟩,
    ⟨[], [], .accept⟩,
    ⟨[(1, .shift 3)], [(2, 6)], .error⟩,
    ⟨[], [], .reduce 1⟩]

/-- Their table. -/
def sumsTable : ParseTable where
  invalidSymbol := 3
  errorSymbol := 0
  unexpectedRule := 32767
  useDefault := -32766
  stateCount := 7
  nonLeafCount := 3
  splitCount := 0
  actions := ⟨#[6, 3, 0, 2], #[1, 0, -1, 2], #[-1, 1, -1]⟩
  actionDefault := #[32767, 32767, 32767, 2, 3, 0, 1]
  gotos := ⟨#[0, 5], #[-1, 2], #[0, 0, 1]⟩
  gotoDefault := #[0, 1, 4]
  ruleToNonterminal := #[0, 1, 1, 2]
  ruleToLength := #[2, 3, 1, 1]
  tokenToSymbol := ((Array.replicate 258 3).set! 0 0).set! 43 2 |>.set! 257 1
  symbolNames := #["$end", "id", "'+'"]
  ruleTexts := #["$start : E $end", "E : E '+' T", "E : T", "T : id"]
  reduceTexts := #["$$ = $1;", "$$ = $1;", "$$ = $1;", "$$ = $1;"]

set_option maxRecDepth 100000 in
/-- What comes of them, worked out once for all theorems that are instantiated on them. -/
theorem sums_run :
    (Construction.ofGrammar {} sumsGrammar).succeeds = true ∧
    (Construction.ofGrammar {} sumsGrammar).automaton.states = sumsStates ∧
    (Construction.ofGrammar {} sumsGrammar).conflicts = #[] ∧
    (Construction.ofGrammar {} sumsGrammar).decisions.rows = sumsRows ∧
    (Construction.ofGrammar {} sumsGrammar).table = sumsTable := by cbv

/-- The states of sums. -/
theorem sums_states : (Construction.ofGrammar {} sumsGrammar).automaton.states = sumsStates :=
  sums_run.2.1

/-- No conflict comes up in sums. -/
theorem sums_conflicts : (Construction.ofGrammar {} sumsGrammar).conflicts = #[] :=
  sums_run.2.2.1

/-- The rows of sums. -/
theorem sums_rows : (Construction.ofGrammar {} sumsGrammar).decisions.rows = sumsRows :=
  sums_run.2.2.2.1

/-- The table of sums. -/
theorem sums_table : (Construction.ofGrammar {} sumsGrammar).table = sumsTable :=
  sums_run.2.2.2.2

/-- The table of sums is built. -/
theorem sums_build : sums.build = .ok (Construction.ofGrammar {} sumsGrammar) :=
  Declarations.build_of_succeeds (by cbv) sums_run.1

/-- No rule of sums has more than three symbols. -/
theorem sums_isShort : sumsGrammar.IsShort :=
  Grammar.isShort_iff.mpr (by decide)

end Lalr
