/-
  The machine knows the tokens only as far as it has asked for them.

  `ahead` lists the symbols that a machine is going to be given: its lookahead, the tokens that are
  left, and the end of input over and over.  A shift uses the first of them up, and nothing else
  does (`Steps.ahead`).

  Two machines stand abreast if they have the same stack and are about to do the same.  If they are
  given the same symbol they stand abreast after the next step as well (`Abreast.step`).  So two
  inputs that begin with the same symbols make the machine do the same, until it asks for the first
  symbol in which they differ (`Steps.abreast`).
-/
import Mathlib
import Lalr.Proofs.Soundness

namespace Lalr

variable {t : ParseTable} {m m' m₁ : Configuration}

/-! ## The symbols that are to come

  Behind the last token the end of input comes again and again, so there is always a next symbol,
  and `ahead` tells one for every number. -/

namespace Configuration

/-- The symbol that the machine is given after `i` others. -/
def ahead (t : ParseTable) (m : Configuration) (i : Nat) : Int :=
  (m.look.toList ++ m.input.map t.symbolOf).getD i (t.symbolOf 0)

/-- Taking a token gives the machine the next symbol, which stays the next. -/
theorem peek_ahead (t : ParseTable) (m : Configuration) :
    (m.peek t).1 = m.ahead t 0 ∧ (m.peek t).2.ahead t = m.ahead t := by
  obtain ⟨stack, look, input, consumed, phase⟩ := m
  cases look with
  | some symbol => exact ⟨rfl, rfl⟩
  | none =>
    cases input with
    | nil =>
      refine ⟨rfl, funext fun i => ?_⟩
      show [t.symbolOf 0].getD i (t.symbolOf 0) = [].getD i (t.symbolOf 0)
      cases i <;> simp
    | cons raw rest => exact ⟨rfl, rfl⟩

theorem ahead_start_cons (t : ParseTable) (raw : Nat) (input : List Nat) :
    (start (raw :: input)).ahead t 0 = t.symbolOf raw :=
  rfl

/-- Behind its input a machine is given the end of input, again and again. -/
theorem ahead_start_of_le {input : List Nat} {i : Nat} (hi : input.length ≤ i) :
    (start input).ahead t i = t.symbolOf 0 := by
  show (input.map t.symbolOf).getD i (t.symbolOf 0) = t.symbolOf 0
  rw [List.getD_eq_getElem?_getD, List.getElem?_eq_none (by rw [List.length_map]; exact hi),
    Option.getD_none]

/-- When the lookahead is used up, the others move to the front. -/
theorem ahead_succ {symbol : Int} (hlook : m.look = some symbol) (hlook' : m'.look = none)
    (hinput : m'.input = m.input) (i : Nat) : m'.ahead t i = m.ahead t (i + 1) := by
  unfold ahead
  rw [hlook, hlook', hinput]
  rfl

/-- A step shifts the next symbol or none. -/
theorem step_ahead {event : Option Event} (hstep : m.step t = .next m₁ event) :
    (event.toList.filterMap Event.shift? = [] ∧ m₁.ahead t = m.ahead t) ∨
      (event.toList.filterMap Event.shift? = [m.ahead t 0] ∧
        ∀ i, m₁.ahead t i = m.ahead t (i + 1)) := by
  obtain ⟨hnext, hsame⟩ := m.peek_ahead t
  have hgoes := m.goes_step t
  rw [hstep] at hgoes
  cases hgoes with
  | shift =>
    refine Or.inr ⟨?_, fun i => ?_⟩
    · show [(m.peek t).1] = _
      rw [hnext]
    · rw [← hsame]
      refine ahead_succ (m.peek_look t) ?_ ?_ i
      · rfl
      · rfl
  | explicit => exact Or.inl ⟨rfl, hsame⟩
  | default => exact Or.inl ⟨rfl, hsame⟩
  | reduce => exact Or.inl ⟨rfl, rfl⟩

end Configuration

/-- The symbols that are shifted are those that were ahead, and the others are still ahead. -/
theorem Steps.ahead {events : List Event} (h : Steps t m events m₁) :
    (∀ i symbol, (events.filterMap Event.shift?)[i]? = some symbol → m.ahead t i = symbol) ∧
      ∀ i, m₁.ahead t i = m.ahead t ((events.filterMap Event.shift?).length + i) := by
  induction h with
  | done m =>
    constructor
    · intro i symbol hget
      exact absurd hget (by simp)
    · intro i
      rw [List.filterMap_nil, List.length_nil, Nat.zero_add]
  | step hstep _ ih =>
    obtain ⟨hshifted, hrest⟩ := ih
    rw [List.filterMap_append]
    -- a step shifts the token ahead, or none at all
    rcases Configuration.step_ahead hstep with ⟨hnone, hsame⟩ | ⟨hone, hmoved⟩
    · rw [hnone, List.nil_append, ← hsame]
      exact ⟨hshifted, hrest⟩
    · rw [hone]
      constructor
      · intro i symbol hget
        cases i with
        | zero => exact Option.some.inj hget
        | succ i =>
          rw [← hmoved]
          exact hshifted i symbol hget
      · intro i
        rw [hrest, hmoved, List.length_append, List.length_singleton]
        congr 1
        omega

/-! ## Two machines

  Machines that stand abreast may differ in what is ahead of them.  A step asks for at most one
  symbol of that. -/

/-- The machines have the same stack and are about to do the same. -/
structure Abreast (m m' : Configuration) : Prop where
  stack : m'.stack = m.stack
  phase : m'.phase = m.phase

/-- Both steps end in the same way, or both show the same and lead to machines that stand abreast.
    -/
inductive Step.Abreast : Step → Step → Prop
  | halt (outcome : Outcome) : Abreast (.halt outcome) (.halt outcome)
  | next {m m' : Configuration} (h : Lalr.Abreast m m') (event : Option Event) :
      Abreast (.next m event) (.next m' event)

theorem Abreast.act (h : Abreast m m') (hahead : m'.ahead t 0 = m.ahead t 0) :
    (m.act t).Abreast (m'.act t) := by
  -- both see the same symbol on the same stack, and the table answers by those two
  have hsymbol : (m'.peek t).1 = (m.peek t).1 := by
    rw [(m'.peek_ahead t).1, (m.peek_ahead t).1, hahead]
  have hstack : (m'.peek t).2.stack = (m.peek t).2.stack := by
    rw [(m'.peek_stack t).1, (m.peek_stack t).1, h.stack]
  have htop : (m'.peek t).2.top = (m.peek t).2.top := congrArg (List.headD · 0) hstack
  unfold Configuration.act
  simp only [hsymbol, htop, hstack]
  cases t.explicitAction (m.peek t).2.top (m.peek t).1 with
  | error e => exact .halt .fault
  | ok found =>
    cases found with
    | some code =>
      show Step.Abreast (if 0 < code then _ else _) (if 0 < code then _ else _)
      split
      · refine .next ?_ _
        exact ⟨rfl, rfl⟩
      · refine .next ?_ _
        exact ⟨rfl, rfl⟩
    | none =>
      dsimp only
      cases t.defaultRule (m.peek t).2.top with
      | error e => exact .halt .fault
      | ok rule =>
        refine .next ?_ _
        exact ⟨rfl, rfl⟩

theorem Abreast.reduce (h : Abreast m m') (rule state : Nat) (symbol : Int) :
    (m.reduce t rule state symbol).Abreast (m'.reduce t rule state symbol) := by
  unfold Configuration.reduce
  rw [h.stack]
  split
  · simp only
    split
    · exact .halt .fault
    · refine .next ?_ _
      exact ⟨rfl, rfl⟩
  · exact .halt .fault

/-- Machines that stand abreast and are given the same symbol take the same step. -/
theorem Abreast.step (h : Abreast m m') (hahead : m'.ahead t 0 = m.ahead t 0) :
    (m.step t).Abreast (m'.step t) := by
  unfold Configuration.step
  rw [h.phase]
  split
  · exact h.act hahead
  · split
    · exact .halt .accepted
    · split
      · exact .halt _
      · split
        · exact .halt .fault
        · exact h.reduce _ _ _

/-- Machines that stand abreast take the same steps, as long as they are given the same symbols; the
    symbol behind those that are shifted counts, for it may have been asked for. -/
theorem Steps.abreast {events : List Event} (hsteps : Steps t m events m₁) (h : Abreast m m')
    (hahead : ∀ i ≤ (events.filterMap Event.shift?).length, m'.ahead t i = m.ahead t i) :
    ∃ m₁', Steps t m' events m₁' ∧ Abreast m₁ m₁' := by
  -- step by step: both shift or neither does, so both see one token less or as many
  induction hsteps generalizing m' with
  | done m => exact ⟨m', .done m', h⟩
  | @step m m₂ m₃ event events hstep hrest ih =>
    have hnext := h.step (hahead 0 (Nat.zero_le _))
    rw [hstep] at hnext
    generalize hstep' : m'.step t = s at hnext
    cases hnext with
    | @next _ m₂' habreast =>
      rw [List.filterMap_append, List.length_append] at hahead
      have hahead₂ : ∀ i ≤ (events.filterMap Event.shift?).length,
          m₂'.ahead t i = m₂.ahead t i := by
        intro i hi
        rcases Configuration.step_ahead hstep with ⟨hnone, hsame⟩ | ⟨hone, hmoved⟩
        · rcases Configuration.step_ahead hstep' with ⟨-, hsame'⟩ | ⟨hone', -⟩
          · rw [hsame, hsame']
            exact hahead i (by omega)
          · exact absurd (hnone.symm.trans hone') (by simp)
        · rcases Configuration.step_ahead hstep' with ⟨hnone', -⟩ | ⟨-, hmoved'⟩
          · exact absurd (hone.symm.trans hnone') (by simp)
          · rw [hmoved, hmoved']
            refine hahead (i + 1) ?_
            rw [hone, List.length_singleton]
            omega
      obtain ⟨m₁', hsteps', habreast'⟩ := ih habreast hahead₂
      exact ⟨m₁', .step hstep' hsteps', habreast'⟩

end Lalr
