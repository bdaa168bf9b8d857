/-
  How much of its kernel a state keeps.

  A state is made from a kernel once (`Stage.Made`), and later stages close it again from the items
  that it has.  What is kept is settled when it is made: the signature has all cores of the kernel,
  but the items are those that the kernel's size in 16 bits counts (`Stage.Keeps`).

    * A kernel of fewer than 65536 items is kept whole, each core once, in all later stages.  It has
      so few if no symbol occurs more than 65535 times on right sides.
    * Of a larger kernel items are lost.  65536 rules `D : 'd'` lose all (`kernel_kept_repeated`):
      the state behind `'d'` neither reduces nor shifts.
-/
import Mathlib
import Lalr.Proofs.Decision
import Lalr.Proofs.Repetition
import Lalr.Proofs.Stages

namespace Lalr

open State Worklist

variable {g : Grammar}

/-! ## What a state keeps

  Only the items of a state and its signature matter, so it is enough to know them when the state
  is made. -/

/-- The state has the signature of the kernel, and as many of its items as 16 bits count. -/
structure State.Keeps (g : Grammar) (s : State) (k : Kernel) : Prop where
  signature : s.signature = k.signature
  size : s.kernelSize = kernelLimit k.size
  cores : s.kernel.toList.map (·.core) = (k.toList.map (·.1)).take (kernelLimit k.size)
  distinct : Core.Distinct g (k.toList.map (·.1))

namespace State.Keeps

variable {s : State} {k : Kernel} (h : s.Keeps g k)
include h

/-- What a state keeps does not depend on its lookaheads and moves. -/
theorem alike {s' : State} (halike : Alike s s') : s'.Keeps g k where
  signature := halike.signature.trans h.signature
  size := halike.kernelSize.trans h.size
  cores := halike.kernel ▸ h.cores
  distinct := h.distinct

/-- The signature counts the cores of the kernel. -/
theorem length_signature : s.signature.length = k.size := by
  rw [h.signature, Kernel.signature, List.length_mergeSort, Array.length_toList, Array.size_map]

/-- The size in 16 bits is right exactly for kernels that fit. -/
theorem size_eq_iff : s.kernelSize = s.signature.length ↔ k.size < 65536 := by
  rw [h.size, h.length_signature, kernelLimit]
  constructor
  · intro heq
    have hlt := Nat.mod_lt k.size (show 0 < 65536 by decide)
    omega
  · exact Nat.mod_eq_of_lt

/-- All cores are kept exactly of kernels that fit. -/
theorem kernelHas_iff (hg : g.IsShort) :
    (∀ c, s.KernelHas c ↔ ∃ e ∈ k, e.1 = c) ↔ k.size < 65536 := by
  have hhas : ∀ c, s.KernelHas c ↔ c ∈ (k.toList.map (·.1)).take (kernelLimit k.size) := by
    intro c
    rw [← h.cores, List.mem_map]
    exact exists_congr fun item => and_congr_left fun _ => Array.mem_toList_iff.symm
  have hall : ∀ c, (∃ e ∈ k, e.1 = c) ↔ c ∈ k.toList.map (·.1) := by
    intro c
    rw [List.mem_map]
    exact exists_congr fun e => and_congr_left fun _ => Array.mem_toList_iff.symm
  have hlength : (k.toList.map (·.1)).length = k.size := by
    rw [List.length_map, Array.length_toList]
  constructor
  · intro hsame
    have hsub : k.toList.map (·.1) ⊆ (k.toList.map (·.1)).take (kernelLimit k.size) :=
      fun c hc => (hhas c).mp ((hsame c).mpr ((hall c).mpr hc))
    -- the cores differ, so none of them can be missing from the part that is kept
    have hle := ((h.distinct.nodup hg).subperm hsub).length_le
    rw [List.length_take, hlength, kernelLimit] at hle
    have hlt := Nat.mod_lt k.size (show 0 < 65536 by decide)
    omega
  · intro hlt c
    rw [hhas, hall, kernelLimit, Nat.mod_eq_of_lt hlt, ← hlength, List.take_length]

end State.Keeps

/-! ## From the making on

  Every state but the first was made by following a crossing.  Induction on the stages since
  then: none of them changes the items that a state was made with. -/

namespace Stage

/-- In the stage the state is there, and it was made from the kernel. -/
inductive Made (a : Analysis) : Stage → Nat → Kernel → Prop
  | first : Made a (start a) 0 #[(⟨0, 0⟩, ∅)]
  | new {s s' : Stage} {x : Symbol} {k : Kernel} {left : List (Symbol × Kernel)}
      (hreach : Reaches a (start a) s) (hleft : s.left = (x, k) :: left) (hagain : s.again = false)
      (hnone : s.work.lookup? a x k = none) (hnext : s.next a = some s') :
      Made a s' s.work.states.size k
  | later {s s' : Stage} {p : Nat} {k : Kernel} (h : Made a s p k) (hnext : s.next a = some s') :
      Made a s' p k

/-- The state is made on the way. -/
theorem Made.reaches {a : Analysis} {s : Stage} {p : Nat} {k : Kernel} (h : Made a s p k) :
    Reaches a (start a) s := by
  induction h with
  | first => exact .refl
  | new hreach _ _ _ hnext => exact hreach.tail hnext
  | later _ hnext ih => exact ih.tail hnext

/-- Adding lookaheads adds no state. -/
theorem size_enrich (a : Analysis) (w : Worklist) (t : Nat) (k : Kernel) :
    (w.enrich a t k).states.size = w.states.size := by
  unfold enrich
  split
  · rfl
  · dsimp only
    split
    · rw [(noteGrown_spec _ t).1, Array.size_setIfInBounds]
    · rw [Array.size_setIfInBounds]

/-- Only a crossing that leads to no known state makes one. -/
theorem size_follow (a : Analysis) (again : Bool) (p : Nat) (w : Worklist) (x : Symbol)
    (k : Kernel) : (follow a again p w (x, k)).states.size = w.states.size ∨
      (again = false ∧ w.lookup? a x k = none ∧
        (follow a again p w (x, k)).states.size = w.states.size + 1) := by
  unfold follow
  split
  · refine Or.inl ?_
    simp only [handOn]
    split
    · exact size_enrich a w _ k
    · rfl
  · rename_i hagain
    simp only [enter]
    split
    · refine Or.inl ?_
      rw [addMove, Array.size_modify]
      exact size_enrich a w _ k
    · rename_i hnone
      refine Or.inr ⟨by simpa using hagain, hnone, ?_⟩
      rw [addMove, Array.size_modify]
      exact Array.size_push _

/-- Every state was made. -/
theorem exists_made {a : Analysis} {s : Stage} (hreach : Reaches a (start a) s) {p : Nat}
    (hp : p < s.work.states.size) : ∃ k, Made a s p k := by
  induction hreach with
  | refl =>
    obtain rfl : p = 0 := Nat.lt_one_iff.mp hp
    exact ⟨_, .first⟩
  | @tail s s' hreach hnext ih =>
    rcases Nat.lt_or_ge p s.work.states.size with hold | hnew
    · obtain ⟨k, hk⟩ := ih hold
      exact ⟨k, hk.later hnext⟩
    · rcases next_cases hnext with ⟨x, k, left, hleft, hwork⟩ | ⟨-, hstates⟩
      · rw [hwork] at hp
        rcases size_follow a s.again s.origin s.work x k with hsize | ⟨hagain, hnone, hsize⟩
        · omega
        · obtain rfl : p = s.work.states.size := by omega
          exact ⟨k, .new hreach hleft hagain hnone hnext⟩
      · rw [hstates] at hp
        omega

/-- A new state keeps as much of its kernel as 16 bits count. -/
theorem keeps_ofKernel (wf : g.WellFormed) {k : Kernel} (hk : k.Sound g) (entry : Option Symbol) :
    (State.ofKernel (Analysis.ofGrammar g) entry k).1.Keeps g k := by
  obtain ⟨-, -, hsig, -, hsize, hcores, -⟩ := ofKernel_spec wf hk entry rfl
  exact ⟨hsig, hsize, hcores, hk.distinct⟩

/-- Induction on the stages since the state was made. -/
theorem Made.keeps (wf : g.WellFormed) {s : Stage} {p : Nat} {k : Kernel}
    (h : Made (Analysis.ofGrammar g) s p k) :
    p < s.work.states.size ∧ (s.work.state p).Keeps g k := by
  induction h with
  | first => exact ⟨Nat.one_pos, keeps_ofKernel wf (Worklist.sound_first wf) none⟩
  | @new s s' x k left hreach hleft hagain hnone hnext =>
    have hinv := (Inv.start wf).reaches wf hreach
    obtain ⟨horigin, -⟩ := hinv.isCrossing wf hleft
    have hlt := Nat.lt_of_lt_of_le horigin hinv.sound.explored_le
    have hwork : s'.work = (s.work.addState (Analysis.ofGrammar g) x k).addMove s.origin x
        s.work.states.size :=
      congrArg work (Option.some.inj (hnext.symm.trans (next_make hleft hagain hnone)))
    obtain ⟨hsize, -, hself⟩ := addState_spec (Analysis.ofGrammar g) s.work x k
    -- the move that is noted after the making leaves the items alone
    obtain ⟨hsize', halike, -⟩ := addMove_spec (s.work.addState (Analysis.ofGrammar g) x k)
      (p := s.origin) (by omega) x s.work.states.size
    rw [hwork]
    refine ⟨by omega, State.Keeps.alike ?_ (halike _)⟩
    rw [hself]
    exact keeps_ofKernel wf (hinv.kernel_sound wf hleft) (some x)
  | @later s s' p k h hnext ih =>
    obtain ⟨hp, hkeeps⟩ := ih
    obtain ⟨hp', halike⟩ := ((Inv.start wf).reaches wf h.reaches).alike wf hnext hp
    exact ⟨hp', hkeeps.alike halike⟩

end Stage

/-! ## The states of a construction

  How many items a kernel has depends on how often its symbol occurs on right sides.  The example
  has one with just too many. -/

namespace Construction

variable {d : Declarations} {settings : Settings} {c : Construction}

/-- Every state of every stage was made from a kernel, and has its signature ever since; of its
    cores the state has the first ones, as many as the kernel's size in 16 bits says.  If all rules
    are short, these are all of them, each once, exactly if the kernel has fewer than 65536 items,
    as all kernels have if no symbol occurs more than 65535 times on right sides. -/
theorem kernel_kept (h : d.build settings = .ok c) {s : Stage}
    (hs : Stage.Reaches c.analysis (Stage.start c.analysis) s) {p : Nat}
    (hp : p < s.work.states.size) :
    (∃ k, Stage.Made c.analysis s p k) ∧ ∀ k, Stage.Made c.analysis s p k →
      (s.work.state p).signature = k.signature ∧
      (s.work.state p).kernel.toList.map (·.core) = (k.toList.map (·.1)).take (k.size % 65536) ∧
      ((s.work.state p).kernelSize = (s.work.state p).signature.length ↔ k.size < 65536) ∧
      (c.grammar.IsShort → (k.toList.map (·.1)).Nodup ∧
        ((∀ core, (s.work.state p).KernelHas core ↔ ∃ e ∈ k, e.1 = core) ↔ k.size < 65536) ∧
        ((∀ x, c.grammar.occurrences x ≤ 65535) → k.size < 65536)) := by
  have wf := wellFormed h
  refine ⟨Stage.exists_made hs hp, fun k hk => ?_⟩
  rw [analysis_eq h] at hs hk
  have hkeeps := (hk.keeps wf).2
  refine ⟨hkeeps.signature, hkeeps.cores, hkeeps.size_eq_iff, fun hshort =>
    ⟨hkeeps.distinct.nodup hshort, hkeeps.kernelHas_iff hshort, fun hocc => ?_⟩⟩
  rw [← hkeeps.length_signature]
  exact ((Stage.Inv.start wf).reaches wf hs).sound.length_signature_lt hshort hocc hp

/-- The theorem for the last stage of sums. -/
theorem kernel_kept_sums : ∃ c s, sums.build = .ok c ∧
    Stage.Reaches c.analysis (Stage.start c.analysis) s ∧ s.next c.analysis = none ∧
    s.work.states.size = 7 ∧ ∀ p < s.work.states.size, ∃ k, Stage.Made c.analysis s p k ∧
      (s.work.state p).signature = k.signature ∧
      (s.work.state p).kernelSize = (s.work.state p).signature.length ∧
      ∀ core, (s.work.state p).KernelHas core ↔ ∃ e ∈ k, e.1 = core := by
  obtain ⟨s, hreach, hdone, hstates⟩ := exists_final sums_build
  refine ⟨_, s, sums_build, hreach, hdone, ?_, fun p hp => ?_⟩
  · rw [hstates, sums_states]
    rfl
  · obtain ⟨⟨k, hk⟩, hkept⟩ := kernel_kept sums_build hreach hp
    obtain ⟨hsignature, -, hsize, hrest⟩ := hkept k hk
    obtain ⟨-, hhas, hsmall⟩ := hrest sums_isShort
    have hlt := hsmall sums_occurrences_le
    exact ⟨k, hk, hsignature, hsize.mpr hlt, hhas.mpr hlt⟩

/-- Of 65536 items none is kept. -/
theorem kernel_kept_repeated : ∃ c s p, (Declarations.repeated "D" 65536).build = .ok c ∧
    Stage.Reaches c.analysis (Stage.start c.analysis) s ∧ p < s.work.states.size ∧
    (s.work.state p).signature.length = 65536 ∧ (s.work.state p).kernelSize = 0 ∧
    ∀ core, ¬ (s.work.state p).KernelHas core := by
  have hn : 0 < 65536 := by decide
  obtain ⟨c, hc⟩ := Declarations.exists_build_repeated hn (Or.inl rfl)
  have wf := wellFormed hc
  obtain ⟨d, x, hg⟩ := Declarations.isRepeated hn (Declarations.build_spec hc).1
  obtain ⟨s, hreach, hdone, -⟩ := exists_final hc
  rw [analysis_eq hc] at hreach hdone
  have hs := (Stage.Inv.start wf).reaches wf hreach
  have hw := hs.worklist (Stage.next_eq_none.mp hdone).1
  have hexplored := Nat.lt_of_lt_of_le hw.sound.pos (Stage.next_eq_none.mp hdone).2.1
  obtain ⟨q, he⟩ := hg.exists_edge hw hexplored (by rw [hg.size]; decide)
    (hg.lhs Nat.one_pos hn) (hg.rhs Nat.one_pos hn)
  have hq := hw.sound.edge_lt he
  have hlength := hg.length_signature hw.sound rfl hn he
  obtain ⟨k, hk⟩ := Stage.exists_made hreach hq
  have hkeeps := (hk.keeps wf).2
  have hsize : kernelLimit k.size = 0 := by rw [← hkeeps.length_signature, hlength]; rfl
  refine ⟨c, s, q, hc, ?_, hq, hlength, hkeeps.size.trans hsize, fun core hcore => ?_⟩
  · rw [analysis_eq hc]
    exact hreach
  · obtain ⟨item, hitem, -⟩ := hcore
    have hmem := List.mem_map_of_mem (f := (·.core)) (Array.mem_toList_iff.mpr hitem)
    rw [hkeeps.cores, hsize, List.take_zero] at hmem
    exact absurd hmem List.not_mem_nil

end Construction

end Lalr
