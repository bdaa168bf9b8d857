/-
  The machine accepts only what the grammar derives.

  `Tracks` ties a configuration to the automaton and to a forest:

    * the stack holds the codes of the states on a path, and the forest has a tree for each symbol
      that was crossed;
    * if the machine is to decide, the state on top is no leaf; if it is to reduce, the state on top
      completes the rule;
    * the tokens taken are the yield of the forest and the lookahead.

  Every step keeps this, with the rules reduced as the postorder of the forest and the symbols
  shifted as its yield (`Tracks.step`).  The machine accepts in the state that completes rule 0,
  where the forest is a tree of the start symbol and the end of input (`Tracks.accepted`).

  Dots are counted in 16 bits, so a rule with 65536 symbols or more is never completed, and no run
  reduces it (`parse_reduces_short`).
-/
import Mathlib
import Lalr.Proofs.Codes
import Lalr.Proofs.MachineStep
import Lalr.Proofs.Tree

namespace Lalr

open ParseTree

/-- The symbol of a shift. -/
def Event.shift? : Event → Option Int
  | .shift _ symbol => some symbol
  | .reduce _ => none

/-- The symbols that were shifted, in order. -/
def Run.shifted (r : Run) : List Int :=
  r.events.toList.filterMap Event.shift?

/-! ## The end of input in trees

  Only rule 0 has the end of input on its right, so no other tree has it among its leaves. -/

section

variable {g : Grammar}

mutual

/-- Only rule 0 has the end of input. -/
theorem IsTree.zero_notMem_yield (wf : g.WellFormed) {x : Symbol} {t : ParseTree}
    (hend : x ≠ .terminal 0) (hstart : x ≠ .nonterminal 0) : IsTree g x t → 0 ∉ t.yield
  | .leaf a => by
    rw [yield, List.mem_singleton]
    exact fun h0 => hend (h0 ▸ rfl)
  | @IsTree.node _ r ts hr h => by
    have hpos : 0 < r := by
      refine Nat.pos_of_ne_zero fun h0 => hstart ?_
      rw [h0, wf.lhs_zero]
    rw [yield]
    exact IsForest.zero_notMem_yields wf (wf.rhs_inner hpos hr) h

theorem IsForest.zero_notMem_yields (wf : g.WellFormed) {α : List Symbol} {ts : List ParseTree}
    (hinner : ∀ x ∈ α, x ≠ .terminal 0 ∧ x ≠ .nonterminal 0) : IsForest g α ts → 0 ∉ yields ts
  | .nil => List.not_mem_nil
  | .cons head tail => by
    obtain ⟨hend, hstart⟩ := hinner _ List.mem_cons_self
    rw [yields, List.mem_append]
    rintro (h0 | h0)
    · exact IsTree.zero_notMem_yield wf hend hstart head h0
    · exact IsForest.zero_notMem_yields wf (fun x hx => hinner x (List.mem_cons_of_mem _ hx))
        tail h0

end

end

/-! ## The invariant

  A step decides, and then it takes a token if there is none yet, or it reduces.  Both are shown
  to keep the invariant, and `Tracks.step` puts them together. -/

/-- What is known of the next thing to do in state `p`.  When the machine accepts, it has used its
    lookahead up. -/
def Construction.Ready (c : Construction) (look : Option Int) (p : Nat) : Phase → Prop
  | .deciding => c.isLeaf p = false
  | .reducing rule _ _ => c.Reduction p rule ∧ (rule = 0 → look = none)

/-- The machine stands at the end of a path, with a forest of what it has read; `k` times it was
    told that the input is over. -/
structure Tracks (c : Construction) (input : List Nat) (m : Configuration) (p : Nat) (ps : List Nat)
    (α : List Symbol) (ts : List ParseTree) (k : Nat) : Prop where
  path : Path c.automaton.edge (p :: ps) α
  stack : m.stack = (p :: ps).map c.code
  forest : IsForest c.grammar α ts
  ready : c.Ready m.look p m.phase
  look : ∀ symbol ∈ m.look, ∃ t : Nat, symbol = t
  consumed : m.consumed ≤ input.length
  rest : m.input = input.drop m.consumed
  past : 0 < k → m.input = []
  tokens : (input.take m.consumed).map c.table.symbolOf ++ List.replicate k (c.table.symbolOf 0) =
    (yields ts).map Nat.cast ++ m.look.toList

variable {d : Declarations} {settings : Settings} {c : Construction}
  {input : List Nat} {m : Configuration} {p k : Nat} {ps : List Nat} {α : List Symbol}
  {ts : List ParseTree}

/-- In the beginning nothing has been read. -/
theorem Tracks.start (h : d.build settings = .ok c) (input : List Nat) :
    Tracks c input (Configuration.start input) 0 [] [] [] 0 where
  path := .start
  stack := by
    show [0] = [c.code 0]
    rw [(Construction.code_zero h).1]
  forest := .nil
  ready := (Construction.code_zero h).2
  look := fun _ hs => absurd hs (by simp [Configuration.start])
  consumed := Nat.zero_le _
  rest := rfl
  past := fun h0 => absurd h0 (Nat.lt_irrefl 0)
  tokens := rfl

/-- The state on top is one of the automaton's. -/
theorem Tracks.lt_size (h : d.build settings = .ok c) (ht : Tracks c input m p ps α ts k) :
    p < c.automaton.states.size :=
  (Construction.automaton_inv h).sound.lt_of_leads ht.path.leads

/-- The machine has the code of the state on top. -/
theorem Tracks.top (ht : Tracks c input m p ps α ts k) : m.top = c.code p := by
  rw [Configuration.top, ht.stack]
  rfl

/-- The machine decides only in a state that is no leaf. -/
theorem Tracks.not_leaf (ht : Tracks c input m p ps α ts k) (hphase : m.phase = .deciding) :
    c.isLeaf p = false := by
  have hready := ht.ready
  rwa [hphase] at hready

/-- A machine that decides may get another lookahead, as long as the tokens are accounted for. -/
theorem Tracks.withLook (ht : Tracks c input m p ps α ts k) (hphase : m.phase = .deciding)
    {t k' : Nat} {m' : Configuration} (hstack : m'.stack = m.stack) (hphase' : m'.phase = m.phase)
    (hlook : m'.look = some (t : Int)) (hconsumed : m'.consumed ≤ input.length)
    (hrest : m'.input = input.drop m'.consumed) (hpast : 0 < k' → m'.input = [])
    (htokens : (input.take m'.consumed).map c.table.symbolOf ++
      List.replicate k' (c.table.symbolOf 0) = (yields ts).map Nat.cast ++ [(t : Int)]) :
    Tracks c input m' p ps α ts k' where
  path := ht.path
  stack := hstack.trans ht.stack
  forest := ht.forest
  ready := by
    rw [hphase', hphase]
    exact ht.not_leaf hphase
  look symbol hs := ⟨t, (Option.some.inj (hlook.symm.trans hs)).symm⟩
  consumed := hconsumed
  rest := hrest
  past := hpast
  tokens := by
    rw [htokens, hlook]
    rfl

/-- Taking a token gives the machine a lookahead, and changes nothing else. -/
theorem Tracks.peek (h : d.build settings = .ok c) (ht : Tracks c input m p ps α ts k)
    (hphase : m.phase = .deciding) :
    ∃ k' t, Tracks c input (m.peek c.table).2 p ps α ts k' ∧ (m.peek c.table).1 = (t : Nat) ∧
      (m.peek c.table).2.look = some (t : Int) := by
  unfold Configuration.peek
  split
  · rename_i symbol hlook
    obtain ⟨t, rfl⟩ := ht.look symbol hlook
    exact ⟨k, t, ht, rfl, hlook⟩
  · rename_i hlook
    have htokens := ht.tokens
    rw [hlook, Option.toList_none, List.append_nil] at htokens
    split
    · -- the input is over, and the machine is told so once more
      rename_i hinput
      obtain ⟨t, hsymbol⟩ := Construction.exists_symbolOf h 0
      refine ⟨k + 1, t, ht.withLook hphase rfl rfl (congrArg some hsymbol) ht.consumed ht.rest
        (fun _ => hinput) ?_, hsymbol, congrArg some hsymbol⟩
      rw [List.replicate_succ', ← List.append_assoc, htokens, hsymbol]
    · rename_i raw rest hinput
      obtain ⟨t, hsymbol⟩ := Construction.exists_symbolOf h raw
      have hdrop : input.drop m.consumed = raw :: rest := by rw [← ht.rest, hinput]
      have hlt : m.consumed < input.length := by
        by_contra hge
        rw [List.drop_eq_nil_of_le (Nat.le_of_not_lt hge)] at hdrop
        exact absurd hdrop (by simp)
      have hget : input[m.consumed]? = some raw := by
        rw [← List.head?_drop, hdrop]
        rfl
      -- a token is taken, so the input was not over before
      obtain rfl : k = 0 := by
        by_contra hk
        rw [ht.past (Nat.pos_of_ne_zero hk)] at hinput
        exact absurd hinput (by simp)
      refine ⟨0, t, ht.withLook hphase rfl rfl (congrArg some hsymbol) hlt ?_
        (fun h0 => absurd h0 (Nat.lt_irrefl 0)) ?_, hsymbol, congrArg some hsymbol⟩
      · show rest = input.drop (m.consumed + 1)
        rw [← List.drop_drop, hdrop]
        rfl
      · show (input.take (m.consumed + 1)).map _ ++ _ = _
        rw [List.replicate_zero, List.append_nil] at htokens ⊢
        rw [List.take_add_one, hget, List.map_append, htokens, ← hsymbol]
        rfl

/-- The machine is ready for what it finds in a state that it enters. -/
theorem Construction.ready_enter (h : d.build settings = .ok c) {q : Nat}
    (hq : q < c.automaton.states.size) {look : Option Int}
    (hlook : (c.automaton.state q).Completes c.grammar 0 → look = none) (state : Nat)
    (symbol : Int) : c.Ready look q (c.phaseIn q state symbol) := by
  unfold phaseIn
  cases hleaf : c.isLeaf q with
  | false => exact hleaf
  | true =>
    have hreduction := reduction_fallback h hq
    refine ⟨hreduction, fun hzero => hlook ?_⟩
    rw [hzero] at hreduction
    exact hreduction.completes_zero

/-- A machine that decides takes a token if it has none; then it follows a move on it, or sets about
    a reduction that the state calls for. -/
theorem Tracks.step_deciding (h : d.build settings = .ok c) (ht : Tracks c input m p ps α ts k)
    (hphase : m.phase = .deciding) :
    ∃ m₁ k', ∃ t : Nat, Tracks c input m₁ p ps α ts k' ∧ m₁.look = some (t : Int) ∧
      ((∃ q, c.automaton.edge p (.terminal t) q ∧ m.step c.table = .next
          { m₁ with
            stack := (q :: p :: ps).map c.code, look := none, phase := c.phaseIn q (c.code p) t }
          (some (.shift (c.code p) t))) ∨
        ∃ rule, c.Reduction p rule ∧ rule ≠ 0 ∧
          m.step c.table = .next { m₁ with phase := .reducing rule (c.code p) t } none) := by
  obtain ⟨k', t, hpeek, hsymbol, hlook⟩ := ht.peek h hphase
  have hw := (Construction.automaton_inv h).sound
  have hp := ht.lt_size h
  have hleaf := ht.not_leaf hphase
  obtain ⟨found, hfound, hcases⟩ := Construction.explicitAction_spec h hp hleaf t
  refine ⟨_, k', t, hpeek, hlook, ?_⟩
  rw [Configuration.step_deciding hphase]
  unfold Configuration.act
  simp only [hpeek.top, hsymbol, hfound, hpeek.stack, Construction.defaultRule_eq h hp hleaf]
  cases found with
  | some code =>
    dsimp only
    rcases hcases code rfl with ⟨q, he, rfl⟩ | ⟨hneg, hreduction⟩
    · refine Or.inl ⟨q, he, ?_⟩
      have hq := hw.edge_lt he
      rw [if_pos (Construction.stateCode_pos h hq (hw.edge_pos he)), Construction.phase_enter h hq]
      rfl
    · exact Or.inr ⟨-code, hreduction, by omega, if_neg (by omega)⟩
  | none =>
    have hreduction := Construction.reduction_fallback h hp
    refine Or.inr ⟨_, hreduction, fun h0 => ?_, rfl⟩
    -- in the final state, which is a leaf, nothing is decided
    rw [h0] at hreduction
    rw [(Construction.isLeaf_of_final h hp hreduction.completes_zero).1] at hleaf
    exact absurd hleaf (by decide)

/-- What is done when a terminal is shifted: the path follows the move, and the terminal is a leaf
    of the forest. -/
theorem Tracks.shift (h : d.build settings = .ok c) (ht : Tracks c input m p ps α ts k) {t q : Nat}
    (hlook : m.look = some (t : Int)) (he : c.automaton.edge p (.terminal t) q) (state : Nat)
    (symbol : Int) :
    Tracks c input
        { m with
          stack := (q :: p :: ps).map c.code, look := none, phase := c.phaseIn q state symbol }
        q (p :: ps) (α ++ [.terminal t]) (ts ++ [.leaf t]) k ∧
      postorders (ts ++ [.leaf t]) = postorders ts ∧
        yields (ts ++ [.leaf t]) = yields ts ++ [t] := by
  have hw := (Construction.automaton_inv h).sound
  have hyields : yields (ts ++ [.leaf t]) = yields ts ++ [t] := by
    rw [yields_append, yields_singleton, yield]
  refine ⟨⟨.cross ht.path he, rfl, ht.forest.append (IsForest.singleton.mpr (.leaf t)),
    Construction.ready_enter h (hw.edge_lt he) (fun _ => rfl) _ _, fun _ hs => absurd hs (by simp),
    ht.consumed, ht.rest, ht.past, ?_⟩, ?_, hyields⟩
  · rw [ht.tokens, hlook, hyields, List.map_append]
    exact (List.append_nil _).symm
  · rw [postorders_append, postorders_singleton, postorder, List.append_nil]

/-- What is done when a reduction is set about. -/
theorem Tracks.decide (ht : Tracks c input m p ps α ts k) {rule : Int}
    (hreduction : c.Reduction p rule) (hne : rule ≠ 0) (state : Nat) (symbol : Int) :
    Tracks c input { m with phase := .reducing rule state symbol } p ps α ts k :=
  { ht with ready := ⟨hreduction, fun h0 => absurd h0 hne⟩ }

/-- A machine that is to reduce refuses a symbol, or accepts, or it has the right side of a rule at
    the end of its path and follows the move on the left side. -/
theorem Tracks.step_reducing (h : d.build settings = .ok c) (ht : Tracks c input m p ps α ts k)
    {rule : Int} {state : Nat} {symbol : Int} (hphase : m.phase = .reducing rule state symbol) :
    m.step c.table = .halt (.rejected state symbol) ∨ m.step c.table = .halt .accepted ∨
      ∃ r β q qs q', r < c.grammar.rules.size ∧ α = β ++ (c.grammar.rule r).rhs ∧
        Path c.automaton.edge (q :: qs) β ∧
        c.automaton.edge q (.nonterminal (c.grammar.rule r).lhs) q' ∧
        m.step c.table = .next
          { m with stack := (q' :: q :: qs).map c.code, phase := c.phaseIn q' state symbol }
          (some (.reduce r)) := by
  -- the number of a reduction is that of a rule the state completes, or the one for errors
  have hready := ht.ready
  rw [hphase] at hready
  rcases hready.1.cases with rfl | ⟨r, rfl, hne, hcompletes⟩
  · exact Or.inl (Construction.step_reject h hphase)
  · rcases Nat.eq_zero_or_pos r with rfl | hpos
    · exact Or.inr (Or.inl (Configuration.step_accept hphase))
    · have hr := Nat.ne_of_gt hpos
      obtain ⟨hrule, β, q, qs, q', hdrop, hα, hpath, he⟩ :=
        Construction.uncover h ht.path hr hcompletes
      -- the states of the right-hand side come off, and the goto is from the one below
      have hstack : m.stack.drop (c.grammar.rule r).rhs.length = (q :: qs).map c.code := by
        rw [ht.stack, ← List.map_drop, hdrop]
      refine Or.inr (Or.inr ⟨r, β, q, qs, q', hrule, hα, hpath, he, ?_⟩)
      rw [Construction.step_reduce h hphase hr hne]
      exact Construction.reduce_eq h hrule hstack he state symbol

/-- What is done when a rule is reduced: its right side is taken off the path and the forest, and
    its left side is put there. -/
theorem Tracks.reduce (h : d.build settings = .ok c) {r q q' : Nat} {qs : List Nat}
    {β : List Symbol} (ht : Tracks c input m p ps (β ++ (c.grammar.rule r).rhs) ts k)
    (hrule : r < c.grammar.rules.size) (hpath : Path c.automaton.edge (q :: qs) β)
    (he : c.automaton.edge q (.nonterminal (c.grammar.rule r).lhs) q') (state : Nat)
    (symbol : Int) :
    ∃ ts', Tracks c input
        { m with stack := (q' :: q :: qs).map c.code, phase := c.phaseIn q' state symbol } q'
          (q :: qs)
        (β ++ [.nonterminal (c.grammar.rule r).lhs]) ts' k ∧
      postorders ts' = postorders ts ++ [r] ∧ yields ts' = yields ts := by
  have wf := Construction.wellFormed h
  have hw := (Construction.automaton_inv h).sound
  obtain ⟨hleft, hright⟩ := ht.forest.split
  refine ⟨ts.take β.length ++ [.node r (ts.drop β.length)], ⟨.cross hpath he, rfl,
    hleft.append (IsForest.singleton.mpr (.node hrule hright)), ?_, ht.look, ht.consumed, ht.rest,
    ht.past, ?_⟩, ?_, ?_⟩
  · refine Construction.ready_enter h (hw.edge_lt he) (fun hzero => ?_) _ _
    -- the final state is entered by the end of input
    have hentry := (hw.final wf (hw.edge_lt he) hzero).2.1
    rw [hw.edge_entry he] at hentry
    exact absurd hentry (by simp)
  · rw [ht.tokens, yields_append, yields_singleton, yield, ← yields_append, List.take_append_drop]
  · rw [postorders_append, postorders_singleton, postorder, ← List.append_assoc,
      ← postorders_append, List.take_append_drop]
  · rw [yields_append, yields_singleton, yield, ← yields_append, List.take_append_drop]

/-- Every step keeps the invariant; it adds to the postorder what it reduces, and to the yield what
    it shifts. -/
theorem Tracks.step (h : d.build settings = .ok c) (ht : Tracks c input m p ps α ts k)
    {m' : Configuration} {event : Option Event} (hstep : m.step c.table = .next m' event) :
    ∃ p' ps' α' ts' k', Tracks c input m' p' ps' α' ts' k' ∧
      postorders ts' = postorders ts ++ event.toList.filterMap Event.reduction? ∧
      (yields ts').map Nat.cast =
        (yields ts).map Nat.cast ++ event.toList.filterMap Event.shift? := by
  cases hphase : m.phase with
  | deciding =>
    obtain ⟨m₁, k', t, ht₁, hlook, ⟨q, he, hnext⟩ | ⟨rule, hreduction, hne, hnext⟩⟩ :=
      ht.step_deciding h hphase
    · obtain ⟨hm, hevent⟩ := Step.next.inj (hnext.symm.trans hstep)
      subst hm hevent
      obtain ⟨ht', hpost, hyield⟩ := ht₁.shift h hlook he (c.code p) t
      refine ⟨q, p :: ps, _, _, k', ht', ?_, ?_⟩
      · rw [hpost]
        exact (List.append_nil _).symm
      · rw [hyield, List.map_append]
        rfl
    · obtain ⟨hm, hevent⟩ := Step.next.inj (hnext.symm.trans hstep)
      subst hm hevent
      exact ⟨p, ps, α, ts, k', ht₁.decide hreduction hne _ _, (List.append_nil _).symm,
        (List.append_nil _).symm⟩
  | reducing rule state symbol =>
    -- a step that ends the run is not meant
    rcases ht.step_reducing h hphase with
      hhalt | hhalt | ⟨r, β, q, qs, q', hrule, rfl, hpath, he, hnext⟩
    · exact absurd (hhalt.symm.trans hstep) (by simp)
    · exact absurd (hhalt.symm.trans hstep) (by simp)
    · obtain ⟨hm, hevent⟩ := Step.next.inj (hnext.symm.trans hstep)
      subst hm hevent
      obtain ⟨ts', ht', hpost, hyield⟩ := ht.reduce h hrule hpath he state symbol
      refine ⟨q', q :: qs, _, ts', k, ht', hpost, ?_⟩
      rw [hyield]
      exact (List.append_nil _).symm

/-- So do all steps together. -/
theorem Tracks.steps (h : d.build settings = .ok c) (ht : Tracks c input m p ps α ts k)
    {m' : Configuration} {events : List Event} (hsteps : Steps c.table m events m') :
    ∃ p' ps' α' ts' k', Tracks c input m' p' ps' α' ts' k' ∧
      postorders ts' = postorders ts ++ events.filterMap Event.reduction? ∧
      (yields ts').map Nat.cast = (yields ts).map Nat.cast ++ events.filterMap Event.shift? := by
  induction hsteps generalizing p ps α ts k with
  | done => exact ⟨p, ps, α, ts, k, ht, (List.append_nil _).symm, (List.append_nil _).symm⟩
  | step hstep _ ih =>
    obtain ⟨p₁, ps₁, α₁, ts₁, k₁, ht₁, hpost₁, hyield₁⟩ := ht.step h hstep
    obtain ⟨p', ps', α', ts', k', ht', hpost', hyield'⟩ := ih ht₁
    refine ⟨p', ps', α', ts', k', ht', ?_, ?_⟩
    · rw [hpost', hpost₁, List.filterMap_append, List.append_assoc]
    · rw [hyield', hyield₁, List.filterMap_append, List.append_assoc]

/-! ## Acceptance

  When the machine accepts, it stands in the state that completes rule 0, and the whole path is
  the right side of this rule. -/

/-- When the machine accepts, it has read a tree of the start symbol and the end of input. -/
theorem Tracks.accepted (h : d.build settings = .ok c) (ht : Tracks c input m p ps α ts k)
    (hstep : m.step c.table = .halt .accepted) :
    ∃ tree, IsTree c.grammar c.grammar.start tree ∧ ts = [tree, .leaf 0] ∧ m.look = none := by
  have wf := Construction.wellFormed h
  have hw := (Construction.automaton_inv h).sound
  obtain ⟨state, symbol, hphase⟩ := Configuration.phase_of_accepted hstep
  have hready := ht.ready
  rw [hphase] at hready
  have hhas := (hw.final wf (ht.lt_size h) hready.1.completes_zero).1
  obtain ⟨β, q, qs, -, hα, hpath, hfront⟩ := ht.path.pop wf hw hhas
  -- only the first state has rule 0 with the dot in front
  have hβ : β = [] := by
    cases hpath with
    | start => rfl
    | cross hpath he =>
      have hzero := hw.eq_zero_of_has wf (hw.edge_lt he) hfront
      exact absurd hzero (Nat.ne_of_gt (hw.edge_pos he))
  have hforest := ht.forest
  rw [hα, hβ, wf.rhs_zero] at hforest
  obtain ⟨tree, htree, hts⟩ := hforest.of_pair
  exact ⟨tree, htree, hts, hready.2 rfl⟩

/-- A run that ends does so in a configuration that halts, and it has noted the postorder and the
    yield of the forest. -/
theorem Tracks.run (h : d.build settings = .ok c) {limit : Nat} {events : Array Event}
    {outcome : Outcome} (ht : Tracks c input m p ps α ts k)
    (hpost : postorders ts = events.toList.filterMap Event.reduction?)
    (hyield : (yields ts).map Nat.cast = events.toList.filterMap Event.shift?)
    (hhalt : (Run.extend c.table limit events m).outcome = some outcome) :
    ∃ m' p' ps' α' ts' k', Tracks c input m' p' ps' α' ts' k' ∧
      m'.step c.table = .halt outcome ∧
      (Run.extend c.table limit events m).consumed = m'.consumed ∧
      (Run.extend c.table limit events m).reduced = postorders ts' ∧
      (Run.extend c.table limit events m).shifted = (yields ts').map Nat.cast := by
  obtain ⟨m', more, hsteps, hevents, hconsumed, hend⟩ := Run.extend_steps c.table limit events m
  obtain ⟨p', ps', α', ts', k', ht', hpost', hyield'⟩ := ht.steps h hsteps
  refine ⟨m', p', ps', α', ts', k', ht', hend outcome hhalt, hconsumed, ?_, ?_⟩
  · rw [Run.reduced, hevents, Array.toList_append, List.filterMap_append, hpost', hpost]
  · rw [Run.shifted, hevents, Array.toList_append, List.filterMap_append, hyield', hyield]

/-- If the yield ends with the only end of input, this stands for the last token, or for none if all
    were taken. -/
theorem Tracks.taken {tree : ParseTree} (ht : Tracks c input m p ps α [tree, .leaf 0] k)
    (hlook : m.look = none) (hzero : 0 ∉ tree.yield) :
    (input.take m.consumed).map c.table.symbolOf = tree.yield.map Nat.cast ++ [0] ∨
      (m.consumed = input.length ∧ input.map c.table.symbolOf = tree.yield.map Nat.cast ∧
        c.table.symbolOf 0 = 0) := by
  have htokens := ht.tokens
  rw [hlook, Option.toList_none, List.append_nil, yields, yields_singleton, yield,
    List.map_append] at htokens
  cases k with
  | zero =>
    rw [List.replicate_zero, List.append_nil] at htokens
    exact Or.inl htokens
  | succ k =>
    have hover := ht.past (Nat.succ_pos k)
    rw [ht.rest, List.drop_eq_nil_iff] at hover
    have hall : m.consumed = input.length := Nat.le_antisymm ht.consumed hover
    rw [hall, List.take_length, List.replicate_succ', ← List.append_assoc] at htokens
    obtain ⟨hfront, hlast⟩ := List.append_inj' htokens rfl
    injection hlast with hlast
    have hlast : c.table.symbolOf 0 = 0 := hlast
    refine Or.inr ⟨hall, ?_, hlast⟩
    -- a second end of input would be in the yield
    cases k with
    | zero => rwa [List.replicate_zero, List.append_nil] at hfront
    | succ k =>
      have hmem : (0 : Int) ∈ tree.yield.map (Nat.cast : Nat → Int) := by
        rw [← hfront, hlast]
        exact List.mem_append_right _ (List.mem_replicate.mpr ⟨Nat.succ_ne_zero k, rfl⟩)
      obtain ⟨t, ht0, hcast⟩ := List.mem_map.mp hmem
      obtain rfl : t = 0 := Int.ofNat_eq_zero.mp hcast
      exact absurd ht0 hzero

/-- If the machine accepts, the rules that it reduced are the postorder of a tree of the start
    symbol, and so, read backwards, a rightmost derivation of the tree's yield. What it shifted is
    the yield and, at last, the end of input.  These are the translations of the tokens taken; the
    end of input may stand for no token, if all were taken. -/
theorem parse_sound (h : d.build settings = .ok c) {limit : Nat}
    (hacc : (c.table.parse limit input).outcome = some .accepted) :
    ∃ tree, IsTree c.grammar (.nonterminal (c.grammar.alphabet.lhs d.startSymbol)) tree ∧
      tree.postorder = (c.table.parse limit input).reduced ∧
      Rightmost c.grammar (c.table.parse limit input).reduced.reverse
        [.nonterminal (c.grammar.alphabet.lhs d.startSymbol)] (tree.yield.map .terminal) ∧
      (c.table.parse limit input).shifted = tree.yield.map Nat.cast ++ [0] ∧ 0 ∉ tree.yield ∧
      ((input.take (c.table.parse limit input).consumed).map c.table.symbolOf =
          tree.yield.map Nat.cast ++ [0] ∨
        ((c.table.parse limit input).consumed = input.length ∧
          input.map c.table.symbolOf = tree.yield.map Nat.cast ∧ c.table.symbolOf 0 = 0)) := by
  have wf := Construction.wellFormed h
  obtain ⟨m, p, ps, α, ts, k, ht, hstep, hconsumed, hreduced, hshifted⟩ :=
    (Tracks.start h input).run h rfl rfl hacc
  obtain ⟨tree, htree, rfl, hlook⟩ := ht.accepted h hstep
  -- no declared rule has the end of input on its right side
  have hzero : 0 ∉ tree.yield := by
    obtain ⟨a, ha, hpos⟩ := wf.start_inner
    refine htree.zero_notMem_yield wf ?_ ?_
    · rw [ha]
      simp
    · rw [ha]
      exact fun heq => Nat.ne_of_gt hpos (Symbol.nonterminal.inj heq)
  have hpost : (c.table.parse limit input).reduced = tree.postorder :=
    hreduced.trans (List.append_nil _)
  have hstart := (Declarations.build_spec h).1.start_eq
  rw [hstart] at htree
  refine ⟨tree, htree, hpost.symm, ?_, ?_, hzero, ?_⟩
  · rw [hpost]
    exact htree.rightmost
  · refine hshifted.trans ?_
    rw [yields, yields_singleton, yield, List.map_append]
    rfl
  · have htaken := ht.taken hlook hzero
    rw [← hconsumed] at htaken
    exact htaken

/-- The theorem for sums: two identifiers are added. -/
theorem parse_sound_sums : ∃ c tree, sums.build = .ok c ∧
    (c.table.parse 20 [257, 43, 257]).outcome = some .accepted ∧
    IsTree c.grammar (.nonterminal (c.grammar.alphabet.lhs sums.startSymbol)) tree ∧
    tree.postorder = [3, 2, 3, 1] ∧
    (c.table.parse 20 [257, 43, 257]).shifted = tree.yield.map Nat.cast ++ [0] := by
  have hacc : ((Construction.ofGrammar {} sumsGrammar).table.parse 20 [257, 43, 257]).outcome =
      some .accepted := by
    rw [sums_table]
    decide +kernel
  have hreduced : ((Construction.ofGrammar {} sumsGrammar).table.parse 20 [257, 43, 257]).reduced =
      [3, 2, 3, 1] := by
    rw [sums_table]
    decide +kernel
  obtain ⟨tree, htree, hpost, -, hshifted, -⟩ := parse_sound sums_build hacc
  exact ⟨_, tree, sums_build, hacc, htree, hpost.trans hreduced, hshifted⟩

/-! ## Long rules

  The count of the dot does not get to the end of a rule with 65536 symbols or more.  What the
  machine reduces is completed by some state, so it is no such rule. -/

/-- A rule that is reduced is completed by the state on top, and so it is short. -/
theorem Tracks.reduces_short (h : d.build settings = .ok c) (ht : Tracks c input m p ps α ts k)
    {m' : Configuration} {r : Nat} (hstep : m.step c.table = .next m' (some (.reduce r))) :
    (c.grammar.rule r).rhs.length < 65536 := by
  have hgoes := m.goes_step c.table
  rw [hstep] at hgoes
  cases hgoes with
  | reduce hphase =>
    have hready := ht.ready
    rw [hphase] at hready
    rcases hready.1.cases with rfl | ⟨r, rfl, -, hcompletes⟩
    · exact absurd ((Construction.step_reject h hphase).symm.trans hstep) (by simp)
    · exact Construction.short_of_completes h (ht.lt_size h) hcompletes

/-- So are all rules that the steps of a run reduce. -/
theorem Tracks.steps_reduce_short (h : d.build settings = .ok c)
    (ht : Tracks c input m p ps α ts k) {m' : Configuration} {events : List Event}
    (hsteps : Steps c.table m events m') :
    ∀ r ∈ events.filterMap Event.reduction?, (c.grammar.rule r).rhs.length < 65536 := by
  induction hsteps generalizing p ps α ts k with
  | done => exact fun r hr => absurd hr List.not_mem_nil
  | @step m m₁ m₂ event events hstep _ ih =>
    intro r hr
    rw [List.filterMap_append, List.mem_append] at hr
    rcases hr with hr | hr
    · obtain ⟨event, hevent, hreduction⟩ := List.mem_filterMap.mp hr
      obtain rfl := Option.mem_toList.mp hevent
      cases event with
      | shift state symbol => exact absurd hreduction (by simp [Event.reduction?])
      | reduce r' =>
        obtain rfl := Option.some.inj hreduction
        exact ht.reduces_short h hstep
    · obtain ⟨_, _, _, _, _, ht₁, -, -⟩ := ht.step h hstep
      exact ih ht₁ r hr

/-- No run reduces a rule with 65536 symbols or more on its right side.  So no tree with such a rule
    is what the machine reads, whether its yield is accepted or not. -/
theorem parse_reduces_short (h : d.build settings = .ok c) (limit : Nat) (input : List Nat) :
    ∀ r ∈ (c.table.parse limit input).reduced, (c.grammar.rule r).rhs.length < 65536 := by
  obtain ⟨m', events, hsteps, hevents, -, -⟩ :=
    Run.extend_steps c.table limit #[] (Configuration.start input)
  intro r hr
  refine (Tracks.start h input).steps_reduce_short h hsteps r ?_
  rw [Run.reduced, ParseTable.parse, hevents, Array.empty_append, List.toList_toArray] at hr
  exact hr

end Lalr
