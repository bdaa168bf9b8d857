/-
  Steps of the machine, and runs as sequences of steps.

  `Goes` lists the ways that a step can go, with what is looked up on each; what all steps have in
  common is proved from it (`Configuration.goes_step`).

  A run counts down a limit.  `Steps` is the same without one: the machine takes steps, and the
  events among them show.  The two belong together:

    * a run with a limit that is large enough passes through every configuration that steps lead to
      (`Steps.extend`), and if the machine halts there, it ends there (`Steps.extend_halt`);
    * a run was made by steps, however it was cut short, and if it ended, the step after them halts
      (`Run.extend_steps`).
-/
import Mathlib
import Lalr.Machine

namespace Lalr

/-! ## One step

  The cases of a step are told apart by what is looked up.  Where nothing else matters, `Goes`
  takes the place of the definition. -/

namespace Configuration

variable (t : ParseTable) (m : Configuration)

/-- Taking a token changes neither the stack nor the phase. -/
theorem peek_stack : (m.peek t).2.stack = m.stack ∧ (m.peek t).2.phase = m.phase := by
  unfold peek
  split
  · exact ⟨rfl, rfl⟩
  · split <;> exact ⟨rfl, rfl⟩

/-- The token that was taken is the lookahead. -/
theorem peek_look : (m.peek t).2.look = some (m.peek t).1 := by
  unfold peek
  split
  · assumption
  · split <;> rfl

variable {t m} {rule state : Nat} {symbol : Int}

/-- Reducing the start rule accepts. -/
theorem step_accept (hphase : m.phase = .reducing 0 state symbol) :
    m.step t = .halt .accepted := by
  rw [step, hphase]
  rfl

/-- Deciding means to act on the lookahead. -/
theorem step_deciding (hphase : m.phase = .deciding) : m.step t = m.act t := by
  rw [step, hphase]

/-- The ways that a step can go.  Why it ends in a fault is left out. -/
inductive Goes (t : ParseTable) (m : Configuration) : Step → Prop
  | shift {code : Int} {phase : Phase} (hphase : m.phase = .deciding)
      (hfound : t.explicitAction m.top (m.peek t).1 = .ok (some code)) (hpos : 0 < code)
      (henter : phase = if code < t.nonLeafCount then .deciding
        else .reducing (code - t.nonLeafCount) m.top (m.peek t).1) :
      Goes t m (.next { (m.peek t).2 with stack := code.toNat :: m.stack, look := none, phase }
        (some (.shift m.top (m.peek t).1)))
  | explicit {code : Int} (hphase : m.phase = .deciding)
      (hfound : t.explicitAction m.top (m.peek t).1 = .ok (some code)) (hle : code ≤ 0) :
      Goes t m (.next { (m.peek t).2 with phase := .reducing (-code) m.top (m.peek t).1 } none)
  | default {rule : Int} (hphase : m.phase = .deciding)
      (hfound : t.explicitAction m.top (m.peek t).1 = .ok none)
      (hrule : t.defaultRule m.top = .ok rule) :
      Goes t m (.next { (m.peek t).2 with phase := .reducing rule m.top (m.peek t).1 } none)
  | reduce {rule : Int} {length nonterminal code : Int} {state : Nat} {symbol : Int} {phase : Phase}
      (hphase : m.phase = .reducing rule state symbol) (hpos : 0 < rule)
      (hlength : t.ruleToLength[rule.toNat]? = some length)
      (hnonterminal : t.ruleToNonterminal[rule.toNat]? = some nonterminal)
      (hcode : t.gotoAt nonterminal.toNat ((m.stack.drop length.toNat).headD 0 : Nat) = .ok code)
      (henter : phase = if code < t.nonLeafCount then .deciding
        else .reducing (code - t.nonLeafCount) state symbol) :
      Goes t m (.next { m with stack := code.toNat :: m.stack.drop length.toNat, phase }
        (some (.reduce rule.toNat)))
  | accept {state : Nat} {symbol : Int} (hphase : m.phase = .reducing 0 state symbol) :
      Goes t m (.halt .accepted)
  | reject {state : Nat} {symbol : Int}
      (hphase : m.phase = .reducing t.unexpectedRule state symbol) :
      Goes t m (.halt (.rejected state symbol))
  | fault : Goes t m (.halt .fault)

variable (t m)

/-- Taking the next token leaves the stack. -/
theorem top_peek : (m.peek t).2.top = m.top := by
  rw [top, (m.peek_stack t).1]
  rfl

/-- Deciding goes one of the ways. -/
theorem goes_act (hphase : m.phase = .deciding) : Goes t m (m.act t) := by
  unfold act
  simp only [top_peek]
  cases hfound : t.explicitAction m.top (m.peek t).1 with
  | error e => exact .fault
  | ok found =>
    cases found with
    | some code =>
      show Goes t m (if 0 < code then _ else _)
      split
      · rename_i hpos
        rw [(m.peek_stack t).1]
        exact .shift hphase hfound hpos rfl
      · rename_i hnot
        exact .explicit hphase hfound (Int.not_lt.mp hnot)
    | none =>
      dsimp only
      cases hrule : t.defaultRule m.top with
      | error e => exact .fault
      | ok rule => exact .default hphase hfound hrule

/-- Every step goes one of these ways. -/
theorem goes_step : Goes t m (m.step t) := by
  unfold step
  split
  · rename_i hphase
    exact goes_act t m hphase
  · rename_i rule state symbol hphase
    split
    · rename_i hzero
      exact .accept (hzero ▸ hphase)
    · rename_i hzero
      split
      · rename_i hunexpected
        exact .reject (hunexpected ▸ hphase)
      · split
        · exact .fault
        · rename_i hneg
          have hpos : 0 < rule := by omega
          unfold reduce
          split
          · rename_i length nonterminal hlength hnonterminal
            dsimp only
            generalize hcode :
              t.gotoAt nonterminal.toNat ((m.stack.drop length.toNat).headD 0 : Nat) = target
            cases target with
            | error e => exact .fault
            | ok code => exact .reduce hphase hpos hlength hnonterminal hcode rfl
          · exact .fault

variable {t m}

/-- On the table the machine halts only where it is to reduce by rule 0 or by the unexpected one. -/
theorem phase_of_accepted (hstep : m.step t = .halt .accepted) :
    ∃ state symbol, m.phase = .reducing 0 state symbol := by
  have hgoes := m.goes_step t
  rw [hstep] at hgoes
  cases hgoes with
  | accept hphase => exact ⟨_, _, hphase⟩

/-- Tokens are rejected by the rule of an error. -/
theorem phase_of_rejected {state : Nat} {symbol : Int}
    (hstep : m.step t = .halt (.rejected state symbol)) :
    m.phase = .reducing t.unexpectedRule state symbol := by
  have hgoes := m.goes_step t
  rw [hstep] at hgoes
  cases hgoes with
  | reject hphase => exact hphase

/-- A step that does not show sets about a reduction. -/
theorem phase_of_silent {m' : Configuration} (hstep : m.step t = .next m' none) :
    m.phase = .deciding ∧ m'.phase ≠ .deciding := by
  have hgoes := m.goes_step t
  rw [hstep] at hgoes
  cases hgoes with
  | explicit hphase => exact ⟨hphase, by simp⟩
  | default hphase => exact ⟨hphase, by simp⟩

end Configuration

/-! ## Sequences of steps

  The limit of a run counts steps, and only some of them show.  Without a limit, runs can be put
  together and taken apart. -/

/-- The machine takes steps, which show as the given events. -/
inductive Steps (t : ParseTable) : Configuration → List Event → Configuration → Prop
  | done (m : Configuration) : Steps t m [] m
  | step {m m' m'' : Configuration} {event : Option Event} {events : List Event}
      (hstep : m.step t = .next m' event) (rest : Steps t m' events m'') :
      Steps t m (event.toList ++ events) m''

variable {t : ParseTable} {m m' m'' : Configuration} {events events' : List Event}

/-- Runs one after the other. -/
theorem Steps.trans (hfirst : Steps t m events m') (hthen : Steps t m' events' m'') :
    Steps t m (events ++ events') m'' := by
  induction hfirst with
  | done => exact hthen
  | step hstep _ ih =>
    rw [List.append_assoc]
    exact .step hstep (ih hthen)

/-- A run with a limit that is large enough passes through the configuration that the steps
    lead to. -/
theorem Steps.extend (h : Steps t m events m') : ∃ n, ∀ limit (before : Array Event),
    Run.extend t (n + limit) before m = Run.extend t limit (before ++ events.toArray) m' := by
  induction h with
  | done => exact ⟨0, fun limit before => by rw [Nat.zero_add, Array.append_empty]⟩
  | @step m m' m'' event events hstep _ ih =>
    obtain ⟨n, hn⟩ := ih
    refine ⟨n + 1, fun limit before => ?_⟩
    rw [Nat.add_right_comm, Run.extend, hstep]
    show Run.extend t (n + limit) (before ++ event.toArray) m' = _
    rw [hn, Array.append_assoc]
    congr 2
    cases event <;> simp

/-- Where the machine halts, every run ends whose limit is large enough. -/
theorem Steps.extend_halt (h : Steps t m events m') {outcome : Outcome}
    (hhalt : m'.step t = .halt outcome) : ∃ n, ∀ limit, n ≤ limit → ∀ before : Array Event,
      Run.extend t limit before m = ⟨before ++ events.toArray, m'.consumed, some outcome⟩ := by
  obtain ⟨n, hn⟩ := h.extend
  refine ⟨n + 1, fun limit hlimit before => ?_⟩
  obtain ⟨more, rfl⟩ := Nat.exists_eq_add_of_le hlimit
  rw [Nat.add_assoc, hn, Nat.add_comm 1 more, Run.extend, hhalt]

/-- A run was made by steps; if it ended, the machine halts after them. -/
theorem Run.extend_steps (t : ParseTable) (limit : Nat) (before : Array Event) (m : Configuration) :
    ∃ m' events, Steps t m events m' ∧
      (Run.extend t limit before m).events = before ++ events.toArray ∧
      (Run.extend t limit before m).consumed = m'.consumed ∧
      ∀ outcome, (Run.extend t limit before m).outcome = some outcome →
        m'.step t = .halt outcome := by
  induction limit generalizing before m with
  | zero => exact ⟨m, [], .done m, by simp [Run.extend], rfl,
    fun _ h => absurd h (by simp [Run.extend])⟩
  | succ limit ih =>
    cases hstep : m.step t with
    | halt outcome =>
      simp only [Run.extend, hstep]
      exact ⟨m, [], .done m, by simp, rfl, fun _ h => by rw [← Option.some.inj h]; exact hstep⟩
    | next m' event =>
      simp only [Run.extend, hstep]
      obtain ⟨m'', events, hsteps, hevents, hconsumed, hhalt⟩ := ih (before ++ event.toArray) m'
      refine ⟨m'', _, .step hstep hsteps, ?_, hconsumed, hhalt⟩
      rw [hevents, Array.append_assoc]
      cases event <;> simp

end Lalr
