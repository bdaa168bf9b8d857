/-
  An error is found at the first token that does not fit.

  The symbols on a path of the automaton can be completed to something that the start rule derives
  (`Path.viable`), for they stand before the dot of an item.  So, if every nonterminal derives some
  terminals, what the machine has shifted can be completed to a sentence and the end of input,
  however it settles its conflicts.

  Without conflicts the machine accepts every sentence.  A sentence that began with what was shifted
  and the symbol that is refused would make the machine do the same, and refuse it too.
-/
import Mathlib
import Lalr.Proofs.Completeness
import Lalr.Proofs.Lockstep

namespace Lalr

open ParseTree

variable {g : Grammar}

/-! ## Prefixes of what is derived

  A state is reached by a string that leads to it, and its items are items at that string.  So
  the string is the beginning of something that the start rule derives. -/

namespace Grammar

/-- Every nonterminal, but the one for the start rule, derives some terminals. -/
def Productive (g : Grammar) : Prop :=
  ∀ a, 0 < a → a < g.nonterminalCount → ∃ v : List Nat, g.Derives [.nonterminal a] (v.map .terminal)

theorem Derives.has (wf : g.WellFormed) {α β : List Symbol} (h : g.Derives α β)
    (hα : ∀ x ∈ α, g.alphabet.Has x) : ∀ x ∈ β, g.alphabet.Has x := by
  induction h with
  | refl => exact hα
  | tail _ hstep ih =>
    cases hstep with
    | rule u v hr =>
      intro x hx
      rw [List.mem_append, List.mem_append] at hx
      rcases hx with hx | hx | hx
      · exact ih x (List.mem_append_left _ hx)
      · exact wf.rhs_has hr x hx
      · exact ih x (List.mem_append_right _ (List.mem_cons_of_mem _ hx))

/-- A string of the alphabet's symbols derives some terminals. -/
theorem Productive.derives (wf : g.WellFormed) (hg : g.Productive) {α : List Symbol}
    (hα : ∀ x ∈ α, g.alphabet.Has x) : ∃ v : List Nat, g.Derives α (v.map .terminal) := by
  have hinner : ∀ x, g.alphabet.Has x → x ≠ .nonterminal 0 →
      ∃ v : List Nat, g.Derives [x] (v.map .terminal) := by
    intro x hx hne
    cases x with
    | terminal t => exact ⟨[t], .refl⟩
    | nonterminal a =>
      exact hg a (Nat.pos_of_ne_zero fun h0 => hne (congrArg Symbol.nonterminal h0)) hx
  -- the added start symbol is the one nonterminal that the assumption leaves out
  have hsymbol : ∀ x, g.alphabet.Has x → ∃ v : List Nat, g.Derives [x] (v.map .terminal) := by
    intro x hx
    by_cases hne : x = .nonterminal 0
    · -- the start rule leads to the start symbol and the end of input
      obtain ⟨a, ha, hpos⟩ := wf.start_inner
      have hne' : g.start ≠ .nonterminal 0 := by
        rw [ha]
        exact fun heq => Nat.ne_of_gt hpos (Symbol.nonterminal.inj heq)
      obtain ⟨v, hv⟩ := hinner g.start wf.has_start hne'
      have hzero : g.Derives (g.rule 0).rhs ((v ++ [0]).map .terminal) := by
        rw [wf.rhs_zero, List.map_append]
        exact hv.append .refl
      have hlhs := derives_of_rule wf.rules_pos hzero
      rw [wf.lhs_zero, ← hne] at hlhs
      exact ⟨v ++ [0], hlhs⟩
    · exact hinner x hx hne
  induction α with
  | nil => exact ⟨[], .refl⟩
  | cons x α ih =>
    obtain ⟨v, hv⟩ := hsymbol x (hα x List.mem_cons_self)
    obtain ⟨w, hw⟩ := ih fun y hy => hα y (List.mem_cons_of_mem _ hy)
    refine ⟨v ++ w, ?_⟩
    rw [List.map_append]
    exact hv.append hw

end Grammar

/-- The symbols before the dot of an item end the string at which the item is; the left side instead
    of them stands in a string that the start rule derives. -/
theorem ItemAt.derives {γ : List Symbol} {core : Core} (h : ItemAt g γ core)
    (hzero : (g.rule 0).lhs = 0) : ∃ β δ, γ = β ++ (g.rule core.rule).rhs.take core.dot ∧
      g.Derives [.nonterminal 0] (β ++ .nonterminal (g.rule core.rule).lhs :: δ) := by
  induction h with
  | start =>
    refine ⟨[], [], rfl, ?_⟩
    rw [hzero]
    exact .refl
  | @closure γ core b r _ hnext hr hlhs ih =>
    obtain ⟨β, δ, hγ, hderives⟩ := ih
    obtain ⟨rest, hrest⟩ := Core.next?_eq_some.mp hnext
    refine ⟨γ, rest ++ δ, (List.append_nil γ).symm, ?_⟩
    -- the right side of the item is written out, which brings the new left side to light
    have hstep := hderives.tail (.rule β δ (Core.rule_lt_of_next? hnext))
    have hrhs : (g.rule core.rule).rhs =
        (g.rule core.rule).rhs.take core.dot ++ .nonterminal (g.rule r).lhs :: rest := by
      rw [hlhs, ← hrest, Core.afterDot_eq, List.take_append_drop]
    rw [hrhs, List.append_assoc, ← List.append_assoc, ← hγ] at hstep
    exact hstep
  | @advance γ core x _ hnext ih =>
    obtain ⟨β, δ, hγ, hderives⟩ := ih
    have hget : (g.rule core.rule).rhs[core.dot]? = some x :=
      (Core.next?_eq_getElem? g core).symm.trans hnext
    refine ⟨β, δ, ?_, hderives⟩
    show γ ++ [x] = β ++ (g.rule core.rule).rhs.take (core.dot + 1)
    rw [List.take_add_one, hget, ← List.append_assoc, ← hγ]
    rfl

/-- The symbols on a path can be completed to a string that the start rule derives. -/
theorem Path.viable (wf : g.WellFormed) (hg : g.IsShort) {E : Edges} {w : Worklist}
    (hw : Worklist.Sound g E w) {ps : List Nat} {α : List Symbol} (h : Path E ps α) :
    ∃ δ, g.Derives [.nonterminal 0] (α ++ δ) := by
  cases h with
  | start => exact ⟨_, .refl⟩
  | @cross p q ps α x hpath he =>
    -- what the last edge was entered for is an item behind the symbol
    obtain ⟨b, hb, hnext⟩ := hw.exists_next he
    have hat := (hw.itemAt wf hg hpath.leads hb).advance hnext
    obtain ⟨β, δ, hα, hderives⟩ := hat.derives wf.lhs_zero
    have hrule : b.rule < g.rules.size := Core.rule_lt_of_next? hnext
    have hstep := hderives.tail (.rule β δ hrule)
    refine ⟨(g.rule b.succ.rule).rhs.drop b.succ.dot ++ δ, ?_⟩
    rw [hα, List.append_assoc, ← List.append_assoc (List.take _ _), List.take_append_drop]
    exact hstep

/-- A tree of the start rule's left side has two children: a tree of the start symbol and the end of
    input. -/
theorem IsTree.of_start_rule (wf : g.WellFormed) {tree : ParseTree}
    (h : IsTree g (.nonterminal 0) tree) :
    ∃ t, IsTree g g.start t ∧ tree = .node 0 [t, .leaf 0] := by
  generalize hx : Symbol.nonterminal 0 = x at h
  cases h with
  | leaf => exact absurd hx (by simp)
  | @node r ts hr hts =>
    have hr0 : r = 0 := by
      by_contra hr0
      have hpos := wf.lhs_pos (Nat.pos_of_ne_zero hr0) hr
      rw [← Symbol.nonterminal.inj hx] at hpos
      exact absurd hpos (Nat.lt_irrefl 0)
    subst hr0
    rw [wf.rhs_zero] at hts
    obtain ⟨t, ht, rfl⟩ := hts.of_pair
    exact ⟨t, ht, rfl⟩

/-- What the start rule derives ends with the end of input, and the start symbol derives the rest.
    -/
theorem Grammar.WellFormed.sentence (wf : g.WellFormed) {w : List Nat}
    (h : g.Derives [.nonterminal 0] (w.map .terminal)) :
    ∃ v, w = v ++ [0] ∧ g.Derives [g.start] (v.map .terminal) := by
  obtain ⟨tree, htree, rfl⟩ := IsTree.of_derives h
  obtain ⟨t, ht, rfl⟩ := htree.of_start_rule wf
  refine ⟨t.yield, ?_, ht.derives⟩
  rw [yield, yields, yields_singleton, yield]

/-! ## What is shifted

  Conflicts do not matter for this: whatever the machine shifts, it stays on a path. -/

/-- The start symbol derives the terminals. -/
def Declarations.Sentence (d : Declarations) (g : Grammar) (v : List Nat) : Prop :=
  g.Derives [.nonterminal (g.alphabet.lhs d.startSymbol)] (v.map .terminal)

variable {d : Declarations} {settings : Settings} {c : Construction} {input : List Nat}
  {m : Configuration} {p k : Nat} {ps : List Nat} {α : List Symbol} {ts : List ParseTree}

/-- The yield of the forest that the machine has read begins a sentence and the end of input. -/
theorem Tracks.begins_sentence (h : d.build settings = .ok c) (hshort : c.grammar.IsShort)
    (hproductive : c.grammar.Productive) (ht : Tracks c input m p ps α ts k) :
    ∃ v, d.Sentence c.grammar v ∧ yields ts <+: v ++ [0] := by
  have wf := Construction.wellFormed h
  obtain ⟨δ, hδ⟩ := ht.path.viable wf hshort (Construction.automaton_inv h).sound
  have hzero : 0 < c.grammar.nonterminalCount := wf.lhs_zero ▸ wf.lhs_lt wf.rules_pos
  have hhas := hδ.has wf fun x hx => by
    rw [List.mem_singleton.mp hx]
    exact hzero
  obtain ⟨w, hw⟩ := hproductive.derives wf fun x hx => hhas x (List.mem_append_right _ hx)
  have hall : c.grammar.Derives [.nonterminal 0] ((yields ts ++ w).map .terminal) := by
    rw [List.map_append]
    exact hδ.trans (ht.forest.derives.append hw)
  obtain ⟨v, hv, hsentence⟩ := wf.sentence hall
  rw [(Declarations.build_spec h).1.start_eq] at hsentence
  exact ⟨v, hsentence, w, hv⟩

/-! ## What is refused

  On a wrong token the machine may reduce first.  The symbol that is refused in the end is the
  one that it was given then, as no reduction takes a token. -/

/-- Entering a state never leads to an error at once. -/
theorem Construction.phaseIn_ne_unexpected (h : d.build settings = .ok c)
    (hsize : c.grammar.rules.size ≤ 32766) (hp : p < c.automaton.states.size) {state state' : Nat}
    {symbol symbol' : Int} :
    c.phaseIn p state symbol ≠ .reducing unexpectedRule state' symbol' := by
  unfold phaseIn
  cases hleaf : c.isLeaf p with
  | false => simp
  | true =>
    have hrow := isLeaf_eq h hp
    rw [hleaf, row_eq h hp] at hrow
    -- a leaf has a rule to reduce by, and its number is below 32767
    intro heq
    rw [if_pos rfl] at heq
    injection heq with hrule
    rw [row_eq h hp] at hrule
    rcases (c.automaton.state p).fallback_cases c.grammar p with
      ⟨-, hfall⟩ | ⟨-, r, hfall, -, hcompletes⟩ | ⟨-, hfall⟩
    · rw [hfall] at hrule
      exact absurd hrule (by decide)
    · rw [hfall] at hrule
      have hr := rule_lt_of_completes h hp hcompletes
      have hr' : (r : Int) = 32767 := hrule
      omega
    · rw [ActionRow.isLeaf, hfall, Bool.and_false] at hrow
      exact absurd hrow (by decide)

/-- A machine that is about to report an error has the symbol that it reports as its lookahead. -/
def Blames (m : Configuration) : Prop :=
  ∀ state symbol, m.phase = .reducing unexpectedRule state symbol → m.look = some symbol

/-- An error is only ever due to the action that was looked up. -/
theorem Tracks.blames (h : d.build settings = .ok c) (hsize : c.grammar.rules.size ≤ 32766)
    (ht : Tracks c input m p ps α ts k) {m' : Configuration} {event : Option Event}
    (hstep : m.step c.table = .next m' event) : Blames m' := by
  have hw := (Construction.automaton_inv h).sound
  cases hphase : m.phase with
  | deciding =>
    obtain ⟨m₁, k', t, -, hlook, ⟨q, he, hnext⟩ | ⟨rule, -, -, hnext⟩⟩ := ht.step_deciding h hphase
    · obtain ⟨hm, -⟩ := Step.next.inj (hnext.symm.trans hstep)
      subst hm
      intro state symbol hreport
      exact absurd hreport (Construction.phaseIn_ne_unexpected h hsize (hw.edge_lt he))
    · obtain ⟨hm, -⟩ := Step.next.inj (hnext.symm.trans hstep)
      subst hm
      intro state symbol hreport
      injection hreport with _ _ hreported
      rw [← hreported]
      exact hlook
  | reducing rule state symbol =>
    -- a reduction enters a state, and that is no error
    rcases ht.step_reducing h hphase with hhalt | hhalt | ⟨r, β, q, qs, q', -, -, -, he, hnext⟩
    · exact absurd (hhalt.symm.trans hstep) (by simp)
    · exact absurd (hhalt.symm.trans hstep) (by simp)
    · obtain ⟨hm, -⟩ := Step.next.inj (hnext.symm.trans hstep)
      subst hm
      intro state' symbol' hreport
      exact absurd hreport (Construction.phaseIn_ne_unexpected h hsize (hw.edge_lt he))

/-- Along a run the terminal that is blamed stays the same. -/
theorem Tracks.blames_steps (h : d.build settings = .ok c) (hsize : c.grammar.rules.size ≤ 32766)
    (ht : Tracks c input m p ps α ts k) (hblames : Blames m) {m' : Configuration}
    {events : List Event} (hsteps : Steps c.table m events m') : Blames m' := by
  induction hsteps generalizing p ps α ts k with
  | done => exact hblames
  | step hstep _ ih =>
    obtain ⟨p', ps', α', ts', k', ht', -⟩ := ht.step h hstep
    exact ih ht' (ht.blames h hsize hstep)

/-- Given the raw codes of a sentence, the machine has its terminals ahead, and the end of input. -/
theorem Deterministic.ahead_start (hc : Deterministic d settings c) {v : List Nat}
    (hv : ∀ t ∈ v, t < c.grammar.terminalCount) {i : Nat} {symbol : Int}
    (hget : ((v ++ [0]).map (Nat.cast : Nat → Int))[i]? = some symbol) :
    (Configuration.start (v.map c.grammar.rawCode)).ahead c.table i = symbol := by
  show (List.map c.table.symbolOf (v.map c.grammar.rawCode)).getD i (c.table.symbolOf 0) = symbol
  rw [Construction.map_symbolOf hc.build hv, hc.symbolOf_zero, List.getD_eq_getElem?_getD]
  rw [List.map_append] at hget
  -- behind the sentence only the end of input is left
  rcases Nat.lt_or_ge i (v.map (Nat.cast : Nat → Int)).length with hlt | hge
  · rw [List.getElem?_append_left hlt] at hget
    rw [hget]
    rfl
  · rw [List.getElem?_append_right hge] at hget
    rw [List.getElem?_eq_none hge]
    show 0 = symbol
    cases hi : i - (v.map (Nat.cast : Nat → Int)).length with
    | zero =>
      rw [hi] at hget
      exact Option.some.inj hget
    | succ j =>
      rw [hi] at hget
      exact absurd hget (by simp)

/-- A run that refuses a symbol has come to report it, and the symbol is the next after those that
    were shifted. -/
theorem Construction.rejected_steps (h : d.build settings = .ok c)
    (hsize : c.grammar.rules.size ≤ 32766) {limit state : Nat} {symbol : Int}
    (hrejected : (c.table.parse limit input).outcome = some (.rejected state symbol)) :
    ∃ m events, Steps c.table (Configuration.start input) events m ∧
      m.phase = .reducing unexpectedRule state symbol ∧
      (c.table.parse limit input).shifted = events.filterMap Event.shift? ∧
      (Configuration.start input).ahead c.table
        (events.filterMap Event.shift?).length = symbol := by
  obtain ⟨m, events, hsteps, hevents, -, hhalt⟩ :=
    Run.extend_steps c.table limit #[] (Configuration.start input)
  have hphase := Configuration.phase_of_rejected (hhalt _ hrejected)
  rw [unexpectedRule_eq h] at hphase
  refine ⟨m, events, hsteps, hphase, ?_, ?_⟩
  · rw [Run.shifted, ParseTable.parse, hevents, Array.toList_append]
    rfl
  · have hblames := (Tracks.start h input).blames_steps h hsize
      (fun _ _ hreport => absurd hreport (by simp [Configuration.start])) hsteps
    have hnext := hsteps.ahead.2 0
    rw [Nat.add_zero] at hnext
    rw [← hnext, Configuration.ahead, hblames state symbol hphase]
    rfl

/-- No sentence begins with what was shifted and the symbol that is refused. -/
theorem Deterministic.refused (hc : Deterministic d settings c) {limit state : Nat} {symbol : Int}
    (hrejected : (c.table.parse limit input).outcome = some (.rejected state symbol)) {v : List Nat}
    (hv : d.Sentence c.grammar v) :
    ¬ (c.table.parse limit input).shifted ++ [symbol] <+: (v ++ [0]).map Nat.cast := by
  have h := hc.build
  have wf := Construction.wellFormed h
  obtain ⟨m, events, hsteps, hphase, hshifted, hlast⟩ :=
    Construction.rejected_steps h hc.size_le hrejected
  -- the sentence has a tree, so the machine accepts it
  rw [Declarations.Sentence, ← (Declarations.build_spec h).1.start_eq] at hv
  obtain ⟨tree, htree, rfl⟩ := IsTree.of_derives hv
  obtain ⟨n, haccepted⟩ := parse_yield hc htree
  rw [hshifted]
  rintro ⟨rest, hrest⟩
  -- but it has the same symbols ahead as the input, up to the one that is refused
  have hahead : ∀ i ≤ (events.filterMap Event.shift?).length,
      (Configuration.start (tree.yield.map c.grammar.rawCode)).ahead c.table i =
        (Configuration.start input).ahead c.table i := by
    intro i hi
    have hlt : i < (events.filterMap Event.shift? ++ [symbol]).length := by
      rw [List.length_append, List.length_singleton]
      omega
    refine hc.ahead_start (htree.yield_lt wf wf.has_start) ?_
    rw [← hrest, List.getElem?_append_left hlt]
    rcases Nat.lt_or_eq_of_le hi with hlt | rfl
    · rw [List.getElem?_append_left hlt, List.getElem?_eq_getElem hlt]
      exact congrArg some (hsteps.ahead.1 i _ (List.getElem?_eq_getElem hlt)).symm
    · rw [List.getElem?_append_right (Nat.le_refl _), Nat.sub_self, hlast]
      rfl
  have hstart : Abreast (Configuration.start input)
      (Configuration.start (tree.yield.map c.grammar.rawCode)) := ⟨rfl, rfl⟩
  obtain ⟨m', hsteps', habreast⟩ := hsteps.abreast hstart hahead
  have hhalt := Construction.step_reject h (habreast.phase.trans hphase)
  obtain ⟨n', hrefused⟩ := hsteps'.extend_halt hhalt
  have houtcome := (haccepted (max n n') (Nat.le_max_left n n')).1
  rw [ParseTable.parse, hrefused (max n n') (Nat.le_max_right n n')] at houtcome
  exact absurd houtcome (by simp)

/-! ## Both together

  What has been shifted is the beginning of a sentence, and with the symbol that is refused it is
  not. -/

/-- If all rules are short and every nonterminal derives some terminals, then at every moment of a
    run the symbols shifted so far begin a sentence followed by the end of input.  If moreover
    nothing binds and no conflict was met, then no sentence followed by the end of input begins with
    these and the symbol that is refused. -/
theorem parse_prefix_property (h : d.build settings = .ok c) (hshort : c.grammar.IsShort)
    (hproductive : c.grammar.Productive) (input : List Nat) :
    (∀ limit, ∃ v, d.Sentence c.grammar v ∧
      (c.table.parse limit input).shifted <+: (v ++ [0]).map Nat.cast) ∧
    (d.levels = #[] → c.conflicts = #[] → (∀ decl ∈ d.tokens, decl.name ≠ endName) →
      d.rules.size ≤ 32765 → (∀ x, c.grammar.occurrences x ≤ 65535) →
      ∀ limit state symbol,
        (c.table.parse limit input).outcome = some (.rejected state symbol) →
        ∀ v, d.Sentence c.grammar v →
          ¬ (c.table.parse limit input).shifted ++ [symbol] <+: (v ++ [0]).map Nat.cast) := by
  constructor
  · intro limit
    obtain ⟨m, events, hsteps, hevents, -⟩ :=
      Run.extend_steps c.table limit #[] (Configuration.start input)
    obtain ⟨p, ps, α, ts, k, ht, -, hyields⟩ := (Tracks.start h input).steps h hsteps
    obtain ⟨v, hsentence, hbegins⟩ := ht.begins_sentence h hshort hproductive
    refine ⟨v, hsentence, ?_⟩
    have hshifted : (c.table.parse limit input).shifted = (yields ts).map Nat.cast := by
      rw [Run.shifted, ParseTable.parse, hevents, Array.toList_append, hyields]
      rfl
    rw [hshifted]
    exact hbegins.map Nat.cast
  · intro hlevels hconflicts hend hrules hocc limit state symbol hrejected v hv
    exact (Deterministic.of_build h hlevels hconflicts hend hrules hshort hocc).refused hrejected hv

/-- All nonterminals of sums derive terminals. -/
theorem sums_productive : sumsGrammar.Productive := by
  have hT : sumsGrammar.Derives [.nonterminal 2] [.terminal 1] :=
    Grammar.derives_of_rule (r := 3) (by decide) .refl
  have hE : sumsGrammar.Derives [.nonterminal 1] [.terminal 1] :=
    Grammar.derives_of_rule (r := 2) (by decide) hT
  intro a hpos hlt
  have hcount : sumsGrammar.nonterminalCount = 3 := rfl
  have ha : a = 1 ∨ a = 2 := by omega
  rcases ha with rfl | rfl
  · exact ⟨[1], hE⟩
  · exact ⟨[1], hT⟩

/-- The theorem for sums: after an identifier another one is refused, and no sum begins with two. -/
theorem parse_prefix_property_sums : ∃ c v, sums.build = .ok c ∧ c.grammar.IsShort ∧
    c.grammar.Productive ∧ c.conflicts = #[] ∧
      (c.table.parse 5 [257, 257]).outcome = some (.rejected 1 1) ∧
    (c.table.parse 5 [257, 257]).shifted = [1] ∧ sums.Sentence c.grammar v ∧
    [1] <+: (v ++ [0]).map (Nat.cast : Nat → Int) ∧
    ∀ w, sums.Sentence c.grammar w → ¬ [1, 1] <+: (w ++ [0]).map (Nat.cast : Nat → Int) := by
  have hrejected : ((Construction.ofGrammar {} sumsGrammar).table.parse 5 [257, 257]).outcome =
      some (.rejected 1 1) := by
    rw [sums_table]
    decide +kernel
  have hshifted : ((Construction.ofGrammar {} sumsGrammar).table.parse 5 [257, 257]).shifted =
      [1] := by
    rw [sums_table]
    decide +kernel
  have hend : ∀ decl ∈ sums.tokens, decl.name ≠ endName := by decide
  obtain ⟨hbegins, hrefused⟩ :=
    parse_prefix_property sums_build sums_isShort sums_productive [257, 257]
  obtain ⟨v, hsentence, hv⟩ := hbegins 5
  rw [hshifted] at hv
  refine ⟨_, v, sums_build, sums_isShort, sums_productive, sums_conflicts, hrejected, hshifted,
    hsentence,
    hv, fun w hw => ?_⟩
  have hw' := hrefused rfl sums_conflicts hend (by decide) sums_occurrences_le 5 1 1 hrejected w hw
  rw [hshifted] at hw'
  exact hw'

end Lalr
