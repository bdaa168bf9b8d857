/-
  The work on the automaton, one crossing after the other.

  `Worklist.work` does a whole piece of work: it follows all crossings of a state.  A `Stage` is a
  moment in between, with the crossings that are still left; `Stage.next` follows one of them, or
  begins the next piece of work if none is left.

    1. Pieces of work are runs of stages (`reaches_of_work`), so the stages end where the worklist
       does, in the states of the automaton (`exists_final`).
    2. In every stage the states are sound (`Stage.Inv`), and from one stage to the next they keep
       their items and signatures (`Stage.Inv.alike`).
-/
import Mathlib
import Lalr.Proofs.Build

namespace Lalr

open State Worklist

variable {g : Grammar}

/-- A moment of the work: `left` are the crossings of state `origin` that are still to be followed,
    for the first time or `again`. -/
structure Stage where
  work : Worklist
  again : Bool
  origin : Nat
  left : List (Symbol × Kernel)

namespace Stage

/-- The first state is made, and nothing is begun. -/
def start (a : Analysis) : Stage where
  work := Worklist.start a
  again := false
  origin := 0
  left := []

/-- Begins the next piece of work, if there is one. -/
def begin? (a : Analysis) (w : Worklist) : Option Stage :=
  if w.explored < w.states.size then
    some {
      work := { w with explored := w.explored + 1 }
      again := false
      origin := w.explored
      left := ((w.state w.explored).crossings a.grammar).toList }
  else
    match w.grown with
    | p :: others =>
      some {
        work := { w with grown := others }
        again := true
        origin := p
        left := ((w.state p).crossings a.grammar).toList }
    | [] => none

/-- The next stage, `none` when the work is done. -/
def next (a : Analysis) (s : Stage) : Option Stage :=
  match s.left with
  | crossing :: left =>
    some { s with work := follow a s.again s.origin s.work crossing, left }
  | [] => begin? a s.work

/-- The work is done when nothing is left to follow, to explore or to hand on. -/
theorem next_eq_none {a : Analysis} {s : Stage} : s.next a = none ↔
    s.left = [] ∧ s.work.states.size ≤ s.work.explored ∧ s.work.grown = [] := by
  unfold next begin?
  split
  · rename_i hleft
    simp [hleft]
  · rename_i hleft
    split
    · rename_i hlt
      simp [Nat.not_le.mpr hlt]
    · rename_i hge
      split <;> rename_i hgrown <;> simp [hleft, hgrown, Nat.le_of_not_lt hge]

/-! The next stage, case by case. -/

section

variable {a : Analysis} {s : Stage} {x : Symbol} {k : Kernel} {left : List (Symbol × Kernel)}

/-- A crossing to an unknown state makes it. -/
theorem next_make (hleft : s.left = (x, k) :: left) (hagain : s.again = false)
    (hnone : s.work.lookup? a x k = none) : s.next a = some
      { s with work := (s.work.addState a x k).addMove s.origin x s.work.states.size, left } := by
  simp only [next, hleft, follow, hagain, Bool.false_eq_true, if_false, Worklist.enter, hnone]

/-- A crossing to a known state adds its lookaheads. -/
theorem next_enter (hleft : s.left = (x, k) :: left) (hagain : s.again = false) {t : Nat}
    (hfound : s.work.lookup? a x k = some t) : s.next a = some
      { s with work := (s.work.enrich a t k).addMove s.origin x t, left } := by
  simp only [next, hleft, follow, hagain, Bool.false_eq_true, if_false, Worklist.enter, hfound]

/-- A crossing that is followed again adds its lookaheads where it led. -/
theorem next_handOn (hleft : s.left = (x, k) :: left) (hagain : s.again = true) {y : Symbol}
    {t : Nat} (hfound : (s.work.state s.origin).moves.find? (·.1 == x) = some (y, t)) :
    s.next a = some { s with work := s.work.enrich a t k, left } := by
  simp only [next, hleft, follow, hagain, if_true, Worklist.handOn, hfound]

/-- If it led nowhere it is passed over. -/
theorem next_pass (hleft : s.left = (x, k) :: left) (hagain : s.again = true)
    (hnone : (s.work.state s.origin).moves.find? (·.1 == x) = none) :
    s.next a = some { s with left } := by
  simp only [next, hleft, follow, hagain, if_true, Worklist.handOn, hnone]

end

/-- Some number of steps leads from one stage to the other. -/
def Reaches (a : Analysis) : Stage → Stage → Prop :=
  Relation.ReflTransGen fun s s' => s.next a = some s'

/-! ## Stages and steps

  A piece of work follows the crossings of a state one after the other.  Its stages are counted
  down by what is left. -/

variable {a : Analysis}

/-- Induction on the crossings that are left. -/
theorem reaches_done (s : Stage) : Reaches a s
    { s with work := s.left.foldl (follow a s.again s.origin) s.work, left := [] } := by
  obtain ⟨w, again, p, left⟩ := s
  induction left generalizing w with
  | nil => exact .refl
  | cons crossing left ih => exact .head rfl (ih (follow a again p w crossing))

/-- A piece of work is the run of stages that begins and ends with no crossing left. -/
theorem reaches_of_work {s : Stage} (hleft : s.left = []) (hwork : ¬ s.work.isDone = true) :
    ∃ s', Reaches a s s' ∧ s'.left = [] ∧ s'.work = s.work.work a := by
  -- once begun, the crossings are followed until none is left
  have hnext : ∀ {t : Stage}, begin? a s.work = some t → Reaches a s
      { t with work := t.left.foldl (follow a t.again t.origin) t.work, left := [] } := by
    intro t ht
    refine .head ?_ t.reaches_done
    rw [next, hleft]
    exact ht
  rw [Worklist.work]
  split
  · rename_i hlt
    refine ⟨_, hnext (if_pos hlt), rfl, ?_⟩
    rw [explore, ← Array.foldl_toList]
    rfl
  · rename_i hlt
    split
    · rename_i p others hgrown
      have hbegin : begin? a s.work = some ⟨{ s.work with grown := others }, true, p,
          ((s.work.state p).crossings a.grammar).toList⟩ := by
        rw [begin?, if_neg hlt, hgrown]
      refine ⟨_, hnext hbegin, rfl, ?_⟩
      rw [handOnAll, ← Array.foldl_toList]
      rfl
    · rename_i hgrown
      exact absurd (isDone_iff.mpr ⟨Nat.le_of_not_lt hlt, hgrown⟩) hwork

/-- A run of the worklist is a run of stages. -/
theorem reaches_run (limit : Nat) {s : Stage} (hleft : s.left = []) :
    ∃ s', Reaches a s s' ∧ s'.left = [] ∧ s'.work = Worklist.run a limit s.work := by
  induction limit generalizing s with
  | zero => exact ⟨s, .refl, hleft, rfl⟩
  | succ limit ih =>
    rw [Worklist.run]
    split
    · exact ⟨s, .refl, hleft, rfl⟩
    · rename_i hwork
      obtain ⟨s₁, hreach, hleft₁, hwork₁⟩ := reaches_of_work hleft hwork
      obtain ⟨s₂, hreach', hleft₂, hwork₂⟩ := ih hleft₁
      exact ⟨s₂, hreach.trans hreach', hleft₂, hwork₁ ▸ hwork₂⟩

/-- If the automaton is finished, the stages come to an end, in its states. -/
theorem exists_final {automaton : Automaton} (ha : automaton = Automaton.ofAnalysis a)
    (hfinished : automaton.finished = true) :
    ∃ s, Reaches a (start a) s ∧ s.next a = none ∧ s.work.states = automaton.states := by
  subst ha
  obtain ⟨s, hreach, hleft, hwork⟩ := reaches_run (stepLimit a.grammar) (s := start a) rfl
  have hdone : s.work.isDone = true := by
    rw [hwork]
    exact hfinished
  refine ⟨s, hreach, next_eq_none.mpr ⟨hleft, isDone_iff.mp hdone⟩, ?_⟩
  rw [hwork]
  rfl

/-! ## The invariant

  Between two pieces of work the invariant is that of `Exploration`.  Within one it is that of a
  piece of work underway, with what is left of the crossings. -/

/-- Either no piece of work is begun, or one is underway. -/
def Inv (g : Grammar) (s : Stage) : Prop :=
  (s.left = [] ∧ Worklist.Inv g s.work) ∨
    ∃ w₀ done, Underway g s.again s.origin w₀ s.work done s.left

variable {s s' : Stage}

/-- Whatever is left to follow, the worklist is in order. -/
theorem Inv.sound (h : s.Inv g) : Worklist.Sound g s.work.edges s.work := by
  rcases h with ⟨-, h⟩ | ⟨w₀, done, h⟩
  · exact h.sound
  · exact h.following.sound

/-- When no crossing is left, what holds between two pieces of work holds. -/
theorem Inv.worklist (h : s.Inv g) (hleft : s.left = []) : Worklist.Inv g s.work := by
  rcases h with ⟨-, h⟩ | ⟨w₀, done, h⟩
  · exact h
  · exact (hleft ▸ h).finish

/-- The crossing that comes next is one of the state that is followed. -/
theorem Inv.isCrossing (wf : g.WellFormed) (h : s.Inv g) {x : Symbol} {k : Kernel}
    {left : List (Symbol × Kernel)} (hleft : s.left = (x, k) :: left) :
    s.origin < s.work.explored ∧ IsCrossing g (s.work.state s.origin) x k := by
  rcases h with ⟨hnil, -⟩ | ⟨w₀, done, h⟩
  · rw [hleft] at hnil
    exact absurd hnil (by simp)
  · refine ⟨?_, h.following.isCrossing wf h.base
      (Nat.lt_of_lt_of_le h.origin_lt h.base.explored_le)
      (h.mem_crossings (hleft ▸ List.mem_cons_self))⟩
    rw [h.following.progress.explored]
    exact h.origin_lt

/-- Its kernel can be closed, or absorbed. -/
theorem Inv.kernel_sound (wf : g.WellFormed) (h : s.Inv g) {x : Symbol} {k : Kernel}
    {left : List (Symbol × Kernel)} (hleft : s.left = (x, k) :: left) : k.Sound g := by
  obtain ⟨horigin, hcross⟩ := h.isCrossing wf hleft
  have hclosed := h.sound.closed (Nat.lt_of_lt_of_le horigin h.sound.explored_le)
  exact crossing_sound wf hclosed hcross

/-- Beginning with a state keeps the invariant. -/
theorem Inv.begin (h : Worklist.Inv g s.work)
    (hbegin : begin? (Analysis.ofGrammar g) s.work = some s') : s'.Inv g := by
  unfold begin? at hbegin
  split at hbegin
  · rename_i hlt
    injection hbegin with hbegin
    subst hbegin
    exact Or.inr ⟨_, [], h.underway_explore hlt⟩
  · split at hbegin
    · rename_i p others hgrown
      injection hbegin with hbegin
      subst hbegin
      exact Or.inr ⟨_, [], h.underway_handOn hgrown⟩
    · exact absurd hbegin (by simp)

/-- Every stage keeps the invariant. -/
theorem Inv.next (wf : g.WellFormed) (h : s.Inv g)
    (hnext : s.next (Analysis.ofGrammar g) = some s') : s'.Inv g := by
  unfold Stage.next at hnext
  split at hnext
  · rename_i crossing left hleft
    injection hnext with hnext
    subst hnext
    rcases h with ⟨hnil, -⟩ | ⟨w₀, done, h⟩
    · rw [hleft] at hnil
      exact absurd hnil (by simp)
    · exact Or.inr ⟨w₀, _, (hleft ▸ h).tail wf⟩
  · rename_i hleft
    exact .begin (h.worklist hleft) hnext

/-- The invariant holds of the first stage. -/
theorem Inv.start (wf : g.WellFormed) : (Stage.start (Analysis.ofGrammar g)).Inv g :=
  Or.inl ⟨rfl, Worklist.Inv.start wf⟩

/-- The invariant holds of all stages that are reached. -/
theorem Inv.reaches (wf : g.WellFormed) (h : s.Inv g)
    (hreach : Reaches (Analysis.ofGrammar g) s s') : s'.Inv g := by
  induction hreach with
  | refl => exact h
  | tail _ hnext ih => exact ih.next wf hnext

/-! ## What a stage changes

  A state that is there keeps its items, from one stage to the next and so for good. -/

/-- A stage is followed by one in which some crossing was followed, or by one with the same
    states. -/
theorem next_cases (hnext : s.next a = some s') :
    (∃ x k left, s.left = (x, k) :: left ∧
        s'.work = follow a s.again s.origin s.work (x, k)) ∨
      (s.left = [] ∧ s'.work.states = s.work.states) := by
  unfold next at hnext
  split at hnext
  · rename_i crossing left hleft
    injection hnext with hnext
    subst hnext
    exact Or.inl ⟨crossing.1, crossing.2, left, hleft, rfl⟩
  · rename_i hleft
    refine Or.inr ⟨hleft, ?_⟩
    unfold begin? at hnext
    split at hnext
    · injection hnext with hnext
      subst hnext
      rfl
    · split at hnext
      · injection hnext with hnext
        subst hnext
        rfl
      · exact absurd hnext (by simp)

/-- The states that are there keep their items and signatures. -/
theorem Inv.alike (wf : g.WellFormed) (h : s.Inv g)
    (hnext : s.next (Analysis.ofGrammar g) = some s') {p : Nat} (hp : p < s.work.states.size) :
    p < s'.work.states.size ∧ Alike (s.work.state p) (s'.work.state p) := by
  rcases next_cases hnext with ⟨x, k, left, hleft, hwork⟩ | ⟨-, hstates⟩
  · rcases h with ⟨hnil, -⟩ | ⟨w₀, done, h⟩
    · rw [hleft] at hnil
      exact absurd hnil (by simp)
    · have hprogress := ((hleft ▸ h).follow_next wf).progress
      rw [← hwork] at hprogress
      exact ⟨Nat.lt_of_lt_of_le hp hprogress.size_le, hprogress.alike hp⟩
  · rw [state, state, hstates]
    exact ⟨hp, .refl _⟩

end Stage

/-- The stages of a construction come to an end, in the states of its automaton. -/
theorem Construction.exists_final {d : Declarations} {settings : Settings} {c : Construction}
    (h : d.build settings = .ok c) : ∃ s, Stage.Reaches c.analysis (Stage.start c.analysis) s ∧
      s.next c.analysis = none ∧ s.work.states = c.automaton.states := by
  rw [analysis_eq h]
  exact Stage.exists_final (automaton_eq h) (finished_and_isNarrow h).1

end Lalr
