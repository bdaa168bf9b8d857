/-
  The work on the automaton comes to an end, and then nothing is missing.

  `Stage.Follows` leads from one stage to the next by runs of the loops inside that have ended, with
  no bound on their steps.

    1. What a stage closes is the kernel of a crossing, or a state that absorbed one; the loops that
       close it end, so a stage is followed by the next one (`Stage.Inv.follows_iff`).
    2. If all rules are short, the stages end, since the pieces of work do (`Stage.exists_final`).
    3. Then in the last stage all lookaheads have arrived: what a state leads to has its crossings'
       lookaheads already, and absorbs nothing (`Stage.absorb_final`).
-/
import Mathlib
import Lalr.Proofs.Decision
import Lalr.Proofs.Loops
import Lalr.Proofs.Stages

namespace Lalr

open State Worklist

variable {g : Grammar}

/-! ## Steps without bounds

  What the definitions of a stage do within limits is written down without them, and then the two
  are shown to be the same.  A derivation of `Follows` contains a run of every loop that the
  stage takes. -/

namespace Worklist

/-- Adds a state that was closed, with the number of empty rules that it took. -/
def append (a : Analysis) (w : Worklist) (x : Symbol) (r : State × Nat) : Worklist :=
  { w with
    states := w.states.push r.1
    emptyItems := w.emptyItems + r.2
    entered := w.entered.modify (a.grammar.alphabet.code x) (·.push w.states.size) }

/-- State `t` absorbs a kernel, and is closed again if anything grew. -/
inductive Enriches (a : Analysis) (w : Worklist) (t : Nat) (k : Kernel) : Worklist → Prop
  | stays (h : ((w.state t).absorb a.grammar k).2 = false) : Enriches a w t k w
  | grows {r : State × Nat} (h : ((w.state t).absorb a.grammar k).2 = true)
      (hclosing : Closing a ((w.state t).absorb a.grammar k).1 r) : Enriches a w t k (w.putBack t r)

theorem enriches_iff (wf : g.WellFormed) {w w' : Worklist} {t : Nat} {k : Kernel}
    (h : Closed g (w.state t)) (hk : ∀ e ∈ k, ∀ u ∈ e.2, u < g.terminalCount) :
    w.Enriches (Analysis.ofGrammar g) t k w' ↔ w' = w.enrich (Analysis.ofGrammar g) t k := by
  have hproper := proper_absorb h hk
  rw [enrich_eq]
  -- what brings nothing new stays; else the closing is the one that the state gets
  cases hgrew : ((w.state t).absorb g k).2 with
  | false =>
    rw [if_neg Bool.false_ne_true]
    constructor
    · rintro (- | ⟨hgrew', -⟩)
      · rfl
      · exact absurd (hgrew.symm.trans hgrew') (by decide)
    · rintro rfl
      exact .stays hgrew
  | true =>
    rw [if_pos rfl]
    constructor
    · rintro (hstay | ⟨-, hclosing⟩)
      · exact absurd (hgrew.symm.trans hstay) (by decide)
      · rw [(closing_iff wf hproper).mp hclosing]
    · rintro rfl
      exact .grows hgrew ((closing_iff wf hproper).mpr rfl)

end Worklist

namespace Stage

/-- The next stage, with the loops inside run to their ends. -/
inductive Follows (a : Analysis) (s : Stage) : Stage → Prop
  | begin {s' : Stage} (hleft : s.left = []) (hbegin : begin? a s.work = some s') : Follows a s s'
  | make {x : Symbol} {k : Kernel} {left : List (Symbol × Kernel)} {r : State × Nat}
      (hleft : s.left = (x, k) :: left) (hagain : s.again = false)
      (hnone : s.work.lookup? a x k = none) (hclosing : Closing a (unclosed (some x) k) r) :
      Follows a s
        { s with work := (s.work.append a x r).addMove s.origin x s.work.states.size, left }
  | enter {x : Symbol} {k : Kernel} {left : List (Symbol × Kernel)} {t : Nat} {w : Worklist}
      (hleft : s.left = (x, k) :: left) (hagain : s.again = false)
      (hfound : s.work.lookup? a x k = some t) (henriches : s.work.Enriches a t k w) :
      Follows a s { s with work := w.addMove s.origin x t, left }
  | handOn {x y : Symbol} {k : Kernel} {left : List (Symbol × Kernel)} {t : Nat} {w : Worklist}
      (hleft : s.left = (x, k) :: left) (hagain : s.again = true)
      (hfound : (s.work.state s.origin).moves.find? (·.1 == x) = some (y, t))
      (henriches : s.work.Enriches a t k w) : Follows a s { s with work := w, left }
  | pass {x : Symbol} {k : Kernel} {left : List (Symbol × Kernel)}
      (hleft : s.left = (x, k) :: left) (hagain : s.again = true)
      (hnone : (s.work.state s.origin).moves.find? (·.1 == x) = none) : Follows a s { s with left }

variable {s s' : Stage}

section

variable (wf : g.WellFormed) (hs : s.Inv g)
include wf hs

/-- The kernel of the next crossing can be closed. -/
theorem Inv.closing_iff {x : Symbol} {k : Kernel} {left : List (Symbol × Kernel)}
    (hleft : s.left = (x, k) :: left) {r : State × Nat} :
    Closing (Analysis.ofGrammar g) (unclosed (some x) k) r ↔
      r = State.ofKernel (Analysis.ofGrammar g) (some x) k :=
  State.closing_iff wf (proper_unclosed (hs.kernel_sound wf hleft))

/-- A state that is there can absorb the kernel of the next crossing. -/
theorem Inv.enriches_iff {x : Symbol} {k : Kernel} {left : List (Symbol × Kernel)}
    (hleft : s.left = (x, k) :: left) {t : Nat} (ht : t < s.work.states.size) {w : Worklist} :
    s.work.Enriches (Analysis.ofGrammar g) t k w ↔
      w = s.work.enrich (Analysis.ofGrammar g) t k :=
  Worklist.enriches_iff wf (hs.sound.closed ht) (hs.kernel_sound wf hleft).look_lt

omit wf in
theorem Inv.move_lt {x y : Symbol} {t : Nat}
    (hfind : (s.work.state s.origin).moves.find? (·.1 == x) = some (y, t)) :
    t < s.work.states.size :=
  hs.sound.edge_lt (Array.mem_of_find?_eq_some hfind)

/-- What follows is the next stage. -/
theorem Inv.next_of_follows (h : s.Follows (Analysis.ofGrammar g) s') :
    s.next (Analysis.ofGrammar g) = some s' := by
  cases h with
  | begin hleft hbegin =>
    rw [Stage.next, hleft]
    exact hbegin
  | make hleft hagain hnone hclosing =>
    rw [(hs.closing_iff wf hleft).mp hclosing]
    exact next_make hleft hagain hnone
  | enter hleft hagain hlookup hen =>
    rw [(hs.enriches_iff wf hleft (lookup?_eq_some hlookup).1).mp hen]
    exact next_enter hleft hagain hlookup
  | handOn hleft hagain hfind hen =>
    rw [(hs.enriches_iff wf hleft (hs.move_lt hfind)).mp hen]
    exact next_handOn hleft hagain hfind
  | pass hleft hagain hnone => exact next_pass hleft hagain hnone

/-- The next stage follows: the loops that it takes come to their ends. -/
theorem Inv.follows_of_next (h : s.next (Analysis.ofGrammar g) = some s') :
    s.Follows (Analysis.ofGrammar g) s' := by
  -- the order in which a stage goes on: nothing left, then which pass, then what is found
  cases hleft : s.left with
  | nil =>
    rw [Stage.next, hleft] at h
    exact .begin hleft h
  | cons crossing left =>
    obtain ⟨x, k⟩ := crossing
    cases hagain : s.again with
    | false =>
      cases hlookup : s.work.lookup? (Analysis.ofGrammar g) x k with
      | none =>
        obtain rfl := Option.some.inj ((next_make hleft hagain hlookup).symm.trans h)
        exact .make hleft hagain hlookup ((hs.closing_iff wf hleft).mpr rfl)
      | some t =>
        obtain rfl := Option.some.inj ((next_enter hleft hagain hlookup).symm.trans h)
        exact .enter hleft hagain hlookup
          ((hs.enriches_iff wf hleft (lookup?_eq_some hlookup).1).mpr rfl)
    | true =>
      cases hfind : (s.work.state s.origin).moves.find? (·.1 == x) with
      | none =>
        obtain rfl := Option.some.inj ((next_pass hleft hagain hfind).symm.trans h)
        exact .pass hleft hagain hfind
      | some move =>
        obtain ⟨y, t⟩ := move
        obtain rfl := Option.some.inj ((next_handOn hleft hagain hfind).symm.trans h)
        exact .handOn hleft hagain hfind
          ((hs.enriches_iff wf hleft (hs.move_lt hfind)).mpr rfl)

theorem Inv.follows_iff :
    s.Follows (Analysis.ofGrammar g) s' ↔ s.next (Analysis.ofGrammar g) = some s' :=
  ⟨hs.next_of_follows wf, hs.follows_of_next wf⟩

end

/-- When the work is done, a crossing leads to one state, and that has all of its lookaheads. -/
theorem absorb_final (hg : g.IsShort) {s : Stage} (hs : s.Inv g)
    (hdone : s.next (Analysis.ofGrammar g) = none) {p : Nat} (hp : p < s.work.states.size)
    {x : Symbol} {k : Kernel} (hmem : (x, k) ∈ (s.work.state p).crossings g) :
    ∃ t, (∀ q, s.work.edges p x q ↔ q = t) ∧
      (s.work.state t).absorb g k = (s.work.state t, false) := by
  obtain ⟨hleft, hexplored, hgrown⟩ := next_eq_none.mp hdone
  have hw := hs.worklist hleft
  -- all states are explored, so this one has its moves
  have hlt := Nat.lt_of_lt_of_le hp hexplored
  obtain ⟨hcross, -⟩ := mem_crossings hmem
  -- some item is moved over the symbol
  obtain ⟨e, he⟩ := hcross.nonempty
  obtain ⟨b, hb, hnext, -⟩ := hcross.mem_iff.mp ⟨e, he, rfl⟩
  obtain ⟨t, ht⟩ := hw.moved hlt hb hnext
  refine ⟨t, fun q => ⟨fun hq => hw.sound.edge_unique hq ht, fun hq => hq ▸ ht⟩, ?_⟩
  -- it has not grown since its lookaheads were handed on
  refine absorb_of_kernelLook hg (hw.sound.closed (hw.sound.edge_lt ht)) fun e he hhas u hu => ?_
  obtain ⟨b, hlook, hnext, heq⟩ := hcross.look he hu
  rw [heq] at hhas ⊢
  exact hw.handedOn hg hlt (by rw [hgrown]; exact List.not_mem_nil) ht hlook hnext hhas

end Stage

namespace Declarations

/-- The work on the automaton comes to an end, and so do the loops inside.

    The first state is closed by loops that end.  From every stage that is reached there is one
    stage that follows when the loops inside have ended, or none.  If all rules are short, the
    stages end in the states of the automaton; then every state is explored, and following its
    crossings once more changes no lookahead. -/
theorem work_ends {d : Declarations} (hres : d.resolve = .ok g) :
    (∀ r, Closing (Analysis.ofGrammar g) (unclosed none #[(⟨0, 0⟩, ∅)]) r ↔
      Stage.start (Analysis.ofGrammar g) =
        ⟨⟨#[r.1], 0, [], r.2, Array.replicate g.alphabet.size #[]⟩, false, 0, []⟩) ∧
    (∀ s, Stage.Reaches (Analysis.ofGrammar g) (Stage.start (Analysis.ofGrammar g)) s →
      ∀ s', s.Follows (Analysis.ofGrammar g) s' ↔ s.next (Analysis.ofGrammar g) = some s') ∧
    (g.IsShort → ∃ s,
      Stage.Reaches (Analysis.ofGrammar g) (Stage.start (Analysis.ofGrammar g)) s ∧
      s.next (Analysis.ofGrammar g) = none ∧
      s.work.states = (Automaton.ofAnalysis (Analysis.ofGrammar g)).states ∧
      s.work.explored = s.work.states.size ∧
      ∀ p < s.work.states.size, ∀ x k, (x, k) ∈ (s.work.state p).crossings g →
        ∃ t, (∀ q, (x, q) ∈ (s.work.state p).moves ↔ q = t) ∧
          (s.work.state t).absorb g k = (s.work.state t, false)) := by
  have wf := (Declarations.resolved hres).wellFormed
  have hinv : ∀ {s}, Stage.Reaches (Analysis.ofGrammar g) (Stage.start (Analysis.ofGrammar g)) s →
      s.Inv g := fun hreach => (Stage.Inv.start wf).reaches wf hreach
  refine ⟨fun r => ?_, fun s hreach s' => (hinv hreach).follows_iff wf, fun hg => ?_⟩
  · rw [closing_iff wf (proper_unclosed (sound_first wf))]
    refine ⟨fun heq => heq ▸ rfl, fun hstart => ?_⟩
    -- the first worklist shows the state and the number
    have hwork := congrArg Stage.work hstart
    have hstate := congrArg (Worklist.state · 0) hwork
    exact (Prod.ext hstate (congrArg Worklist.emptyItems hwork)).symm
  · obtain ⟨s, hreach, hdone, hstates⟩ :=
      Stage.exists_final rfl (Automaton.finished_of_isShort wf hg)
    refine ⟨s, hreach, hdone, hstates, ?_,
      fun p hp x k hmem => Stage.absorb_final hg (hinv hreach) hdone hp hmem⟩
    exact Nat.le_antisymm (hinv hreach).sound.explored_le (Stage.next_eq_none.mp hdone).2.1

/-- The theorem for sums. -/
theorem work_ends_sums : ∃ s, sums.resolve = .ok sumsGrammar ∧ sumsGrammar.IsShort ∧
    Stage.Reaches (Analysis.ofGrammar sumsGrammar)
      (Stage.start (Analysis.ofGrammar sumsGrammar)) s ∧
    (∀ s', ¬ s.Follows (Analysis.ofGrammar sumsGrammar) s') ∧ s.work.states = sumsStates := by
  have hres := (Declarations.resolve_of_build sums_build).1
  obtain ⟨-, hfollows, hends⟩ := work_ends hres
  obtain ⟨s, hreach, hdone, hstates, -⟩ := hends sums_isShort
  refine ⟨s, hres, sums_isShort, hreach, fun s' hs' => ?_, hstates.trans sums_states⟩
  have hnext := (hfollows s hreach s').mp hs'
  rw [hdone] at hnext
  exact absurd hnext (by simp)

end Declarations

end Lalr
