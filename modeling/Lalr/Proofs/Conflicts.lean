/-
  What the conflicts of a construction tell.

  For each state and terminal the conflicts come from the contest of the state's offers
  (`Construction.mem_conflicts`), and so does the action that is chosen (`Construction.action_eq`).
  How contests end then says which reductions are lost, and what is said about them:

    1. A reduction that is offered is chosen, or reported, or settled against a shift by precedence;
       the one exception are rules without a level that come after a rule that only tied with the
       shift (`Construction.accounted_iff`).
    2. What is reported was offered, and no report is made twice.  A report of a shift that won is
       outdated if a later rule outranks the shift after all (`Construction.conflicts_warranted`).
-/
import Mathlib
import Lalr.Proofs.Codes
import Lalr.Proofs.Contest
import Lalr.Proofs.Table

namespace Lalr

open Ballot State

/-- Members of a list are told apart by a key and a value if the values of one key are. -/
theorem nodup_map_of_filter {α β γ : Type} [BEq β] [LawfulBEq β] {key : α → β} {value : α → γ}
    {xs : List α} (h : ∀ b, ((xs.filter (key · == b)).map value).Nodup) :
    (xs.map fun x => (key x, value x)).Nodup := by
  induction xs with
  | nil => exact List.nodup_nil
  | cons x xs ih =>
    rw [List.map_cons, List.nodup_cons]
    refine ⟨fun hmem => ?_, ih fun b => (h b).sublist
      (((List.sublist_cons_self x xs).filter _).map _)⟩
    obtain ⟨y, hy, heq⟩ := List.mem_map.mp hmem
    injection heq with hkey hvalue
    have hx := h (key x)
    rw [List.filter_cons_of_pos (by simp), List.map_cons, List.nodup_cons] at hx
    exact hx.1 (List.mem_map.mpr ⟨y, List.mem_filter.mpr ⟨hy, beq_iff_eq.mpr hkey⟩, hvalue⟩)

/-- The states with their numbers. -/
theorem Automaton.mem_zipIdx_states {automaton : Automaton} {s : State} {i : Nat} :
    (s, i) ∈ automaton.states.toList.zipIdx ↔
      i < automaton.states.size ∧ automaton.state i = s := by
  rw [List.mk_mem_zipIdx_iff_getElem?, Array.getElem?_toList, Array.getElem?_eq_some_iff, state]
  constructor
  · rintro ⟨hi, rfl⟩
    exact ⟨hi, by rw [Array.getD_eq_getD_getElem?, Array.getElem?_eq_getElem hi]; rfl⟩
  · rintro ⟨hi, rfl⟩
    exact ⟨hi, by rw [Array.getD_eq_getD_getElem?, Array.getElem?_eq_getElem hi]; rfl⟩

namespace Construction

/-- The action that is chosen in state `p` on terminal `t`. -/
def action (c : Construction) (p t : Nat) : Action :=
  (c.coding.row p).action t

/-- A conflict tells that the reduction by rule `r` was dropped in state `p` on terminal `t`. -/
def Reported (c : Construction) (p t r : Nat) : Prop :=
  ∃ k ∈ c.conflicts, k.state = p ∧
    c.grammar.alphabet.terminalName k.terminal = c.grammar.alphabet.terminalName t ∧ k.rule = r

/-- The contest of the offers of state `p` on terminal `t`. -/
def contestAt (c : Construction) (p t : Nat) : Option Action × List (Conflict.Kind × Nat) :=
  contest c.grammar t (((c.automaton.state p).shifts c.grammar).getD t none)
    ((c.automaton.state p).rivals c.grammar t)

variable {d : Declarations} {settings : Settings} {c : Construction}
  (h : d.build settings = .ok c)
include h

variable {p t r : Nat}

/-! ## The contests of an automaton

  Ballots are counted state by state and terminal by terminal.  What is reported is put together
  from all contests, and each report names the state and the terminal of its contest. -/

/-- Rules are offered on terminals. -/
theorem offers_lt (hp : p < c.automaton.states.size)
    (hr : (c.automaton.state p).Offers c.grammar r t) : t < c.grammar.terminalCount := by
  obtain ⟨-, core, hlook, -⟩ := hr
  exact ((automaton_inv h).sound.closed hp).look_lt (wellFormed h) hlook

/-- Rivals come by their numbers. -/
theorem rivals_sorted (hp : p < c.automaton.states.size) (t : Nat) :
    ((c.automaton.state p).rivals c.grammar t).Pairwise (· < ·) :=
  sorted_rivals (((automaton_inv h).sound.closed hp).distinct (wellFormed h))
    fun hc => ((automaton_inv h).sound.closed hp).fits (wellFormed h) hc

/-- A contest begins with the shift, if there is one. -/
theorem shifts_cases (ht : t < c.grammar.terminalCount) :
    (∃ q, c.automaton.edge p (.terminal t) q ∧
        ((c.automaton.state p).shifts c.grammar).getD t none = some (.shift q)) ∨
      ((¬ ∃ q, c.automaton.edge p (.terminal t) q) ∧
        ((c.automaton.state p).shifts c.grammar).getD t none = none) := by
  by_cases hedge : ∃ q, c.automaton.edge p (.terminal t) q
  · obtain ⟨q, he⟩ := hedge
    exact Or.inl ⟨q, he, shifts_of_move he ht fun he' => (automaton_inv h).sound.edge_unique he' he⟩
  · refine Or.inr ⟨hedge, ?_⟩
    cases hshift : ((c.automaton.state p).shifts c.grammar).getD t none with
    | none => rfl
    | some found =>
      obtain ⟨q, -, hq⟩ := shift_of_shifts hshift
      exact absurd ⟨q, hq⟩ hedge

/-- The conflicts of a construction are those of its contests. -/
theorem mem_conflicts {k : Conflict} : k ∈ c.conflicts ↔
    k.state < c.automaton.states.size ∧ k.terminal < c.grammar.terminalCount ∧
      (k.kind, k.rule) ∈ (c.contestAt k.state k.terminal).2 := by
  rw [conflicts, decisions_eq h, ← Array.mem_toList_iff, Decisions.conflicts_eq, List.mem_flatMap]
  constructor
  · rintro ⟨⟨s, i⟩, hmem, hk⟩
    obtain ⟨hi, rfl⟩ := Automaton.mem_zipIdx_states.mp hmem
    obtain ⟨rfl, r, hr⟩ := mem_conflicts_ballot hk
    have ht := offers_lt h hi hr
    have hk := (List.mem_filter (p := (·.terminal == k.terminal))).mpr
      ⟨hk, beq_self_eq_true k.terminal⟩
    rw [(ballot_on k.state ht).2, List.mem_map] at hk
    obtain ⟨e, he, heq⟩ := hk
    refine ⟨hi, ht, ?_⟩
    rw [← heq]
    exact he
  · rintro ⟨hp, ht, he⟩
    refine ⟨(c.automaton.state k.state, k.state), Automaton.mem_zipIdx_states.mpr ⟨hp, rfl⟩, ?_⟩
    refine ((List.mem_filter (p := (·.terminal == k.terminal))).mp ?_).1
    rw [(ballot_on k.state ht).2]
    exact List.mem_map.mpr ⟨_, he, rfl⟩

/-- A rule is reported if its contest reports it, in one way or the other. -/
theorem reported_iff (hp : p < c.automaton.states.size) (ht : t < c.grammar.terminalCount) :
    c.Reported p t r ↔ ∃ kind, (kind, r) ∈ (c.contestAt p t).2 := by
  constructor
  · rintro ⟨k, hk, rfl, hname, rfl⟩
    obtain ⟨-, hterminal, hmem⟩ := (mem_conflicts h).mp hk
    rw [(Declarations.build_spec h).1.terminalName_injective hterminal ht hname] at hmem
    exact ⟨_, hmem⟩
  · rintro ⟨kind, hmem⟩
    exact ⟨⟨p, t, kind, r⟩, (mem_conflicts h).mpr ⟨hp, ht, hmem⟩, rfl, rfl, rfl⟩

/-- A contest is one that begins with a shift, or one in which the lowest rule wins. -/
theorem contestAt_cases (hp : p < c.automaton.states.size) (ht : t < c.grammar.terminalCount) :
    (∃ q, c.automaton.edge p (.terminal t) q ∧ c.contestAt p t =
        contest c.grammar t (some (.shift q)) ((c.automaton.state p).rivals c.grammar t)) ∨
      (¬ ∃ q, c.automaton.edge p (.terminal t) q) ∧
        (((c.automaton.state p).rivals c.grammar t = [] ∧ c.contestAt p t = (none, [])) ∨
          ∃ first after, (c.automaton.state p).rivals c.grammar t = first :: after ∧
            c.contestAt p t =
              (some (.reduce first), after.map (Conflict.Kind.reduceReduce, ·))) := by
  have hsorted := rivals_sorted h hp t
  rcases shifts_cases h ht (p := p) with ⟨q, he, hstart⟩ | ⟨hnone, hstart⟩
  · exact Or.inl ⟨q, he, by rw [contestAt, hstart]⟩
  · refine Or.inr ⟨hnone, ?_⟩
    rw [contestAt, hstart]
    cases hrivals : (c.automaton.state p).rivals c.grammar t with
    | nil => exact Or.inl ⟨rfl, rfl⟩
    | cons first after => exact Or.inr ⟨first, after, rfl, contest_none (hrivals ▸ hsorted)⟩

/-- What a contest decides is the action that is chosen. -/
theorem contestAt_action (hp : p < c.automaton.states.size)
    (hr : (c.automaton.state p).Offers c.grammar r t) :
    (c.contestAt p t).1 = some (c.action p t) := by
  have ht := offers_lt h hp hr
  obtain ⟨found, hfound⟩ : ∃ found, (c.contestAt p t).1 = some found := by
    rcases contestAt_cases h hp ht with ⟨q, -, hat⟩ | ⟨-, ⟨hrivals, -⟩ | ⟨first, after, -, hat⟩⟩
    · rw [hat]
      exact contest_decides _
    · exact absurd (hrivals ▸ mem_rivals.mpr hr) List.not_mem_nil
    · exact ⟨_, by rw [hat]⟩
  rw [hfound, action, row_eq h hp, action_of_decided]
  rw [(ballot_on p ht).1]
  exact hfound

/-! ## Reductions that are not chosen

  An offer that is neither chosen nor reported was settled by precedence, or met an error.  The
  error comes from a tie, and no report is made of it; that leaves the one way for an offer to
  get lost. -/

omit h in
/-- In state `p` a tie between a lower rule and the shift made terminal `t` an error before rule
    `r`, which has no level there, was looked at. -/
def Silenced (c : Construction) (p t r : Nat) : Prop :=
  (∃ q, c.automaton.edge p (.terminal t) q) ∧ ¬ c.grammar.Ranked r t ∧
    ∃ r' < r, c.grammar.Ties r' t ∧ (c.automaton.state p).Offers c.grammar r' t ∧
      ∀ r'', (c.automaton.state p).Offers c.grammar r'' t → c.grammar.Outranks r'' t → r' ≤ r''

/-- A reduction that a state offers is chosen, or a conflict tells that it was dropped, or it met a
    shift and precedence could settle the two; but if a tie silenced it, it is none of these. -/
theorem accounted_iff (hp : p < c.automaton.states.size)
    (hr : (c.automaton.state p).Offers c.grammar r t) :
    (c.action p t = .reduce r ∨ c.Reported p t r ∨
        ((∃ q, c.automaton.edge p (.terminal t) q) ∧ c.grammar.Ranked r t)) ↔
      ¬ c.Silenced p t r := by
  have ht := offers_lt h hp hr
  have hmem := mem_rivals.mpr hr
  rw [reported_iff h hp ht, ← Option.some_inj, ← contestAt_action h hp hr]
  -- with a shift there is a contest; without rivals nothing to ask; else the first wins
  rcases contestAt_cases h hp ht with
    ⟨q, he, hat⟩ | ⟨hnone, ⟨hrivals, -⟩ | ⟨first, after, hrivals, hat⟩⟩
  -- a shift: the condition over items, said over the rules that compete
  · have hsilenced : c.Silenced p t r ↔ ¬ c.grammar.Ranked r t ∧ ∃ r' < r,
        c.grammar.FirstOutranks ((c.automaton.state p).rivals c.grammar t) r' t ∧
          c.grammar.Ties r' t := by
      constructor
      · rintro ⟨-, hranked, r', hlt, hties, hoffers, hle⟩
        exact ⟨hranked, r', hlt, ⟨mem_rivals.mpr hoffers, hties.outranks,
          fun r'' hr'' => hle r'' (mem_rivals.mp hr'')⟩, hties⟩
      · rintro ⟨hranked, r', hlt, hfirst, hties⟩
        exact ⟨⟨q, he⟩, hranked, r', hlt, hties, mem_rivals.mp hfirst.mem,
          fun r'' hr'' => hfirst.le r'' (mem_rivals.mpr hr'')⟩
    rw [hsilenced, hat, ← contest_accounts q (rivals_sorted h hp t) hmem]
    simp only [show (∃ q, c.automaton.edge p (.terminal t) q) from ⟨q, he⟩, true_and]
  · exact absurd (hrivals ▸ hmem) List.not_mem_nil
  · refine iff_of_true ?_ fun hs => hnone hs.1
    rw [hrivals] at hmem
    rcases List.mem_cons.mp hmem with rfl | hin
    · exact Or.inl (by rw [hat])
    · refine Or.inr (Or.inl ⟨.reduceReduce, ?_⟩)
      rw [hat]
      exact List.mem_map.mpr ⟨r, hin, rfl⟩

omit h

/-- Comparisons, which do not group; rule 3, `R : E`, has no level. -/
def comparisons : Declarations where
  tokens := #[⟨"NUM", none⟩]
  levels := #[⟨.nonassoc, ["'<'"]⟩]
  rules := #[⟨"E", ["E", "'<'", "E"], none, none⟩,
    ⟨"E", ["E", "'<'", "R", "'<'", "NUM"], none, none⟩, ⟨"R", ["E"], none, none⟩,
    ⟨"E", ["NUM"], none, none⟩]

/-- The grammar that they declare. -/
def comparisonsGrammar : Grammar where
  alphabet :=
    { terminals := #[⟨"$end", 0, none⟩, ⟨"NUM", 257, none⟩, ⟨"'<'", 60, some ⟨1, .nonassoc⟩⟩]
      nonterminals := #["$start", "E", "R"] }
  rules := #[⟨0, [.nonterminal 1, .terminal 0], none, none⟩,
    ⟨1, [.nonterminal 1, .terminal 2, .nonterminal 1], some 1, none⟩,
    ⟨1, [.nonterminal 1, .terminal 2, .nonterminal 2, .terminal 2, .terminal 1], some 1, none⟩,
    ⟨2, [.nonterminal 1], none, none⟩, ⟨1, [.terminal 1], none, none⟩]

set_option maxRecDepth 100000 in
/-- What comes of them.  State 5 is the one behind a comparison; on a further `'<'` rule 1 ties with
    the shift there, and no conflict is reported. -/
theorem comparisons_run :
    (Construction.ofGrammar {} comparisonsGrammar).succeeds = true ∧
    (Construction.ofGrammar {} comparisonsGrammar).automaton.states[5]? = some
      { items := #[⟨⟨1, 3⟩, none, 0⟩, ⟨⟨1, 1⟩, none, 1⟩, ⟨⟨2, 1⟩, none, 2⟩, ⟨⟨3, 1⟩, none, 3⟩]
        kernelSize := 4
        lookaheads := #[⟨5⟩, ⟨5⟩, ⟨5⟩, ⟨4⟩]
        entry := some (.nonterminal 1)
        signature := [⟨1, 1⟩, ⟨1, 3⟩, ⟨2, 1⟩, ⟨3, 1⟩]
        moves := #[(.terminal 2, 4)] } ∧
    (Construction.ofGrammar {} comparisonsGrammar).conflicts = #[] ∧
    (Construction.ofGrammar {} comparisonsGrammar).action 5 2 = .error := by cbv

/-- A table for comparisons is built. -/
theorem comparisons_build :
    comparisons.build = .ok (Construction.ofGrammar {} comparisonsGrammar) :=
  Declarations.build_of_succeeds (by cbv) comparisons_run.1

/-- It offers rule 1 and rule 3 on a further `'<'`, which it can cross as well. -/
theorem comparisons_offers {c : Construction}
    (hc : c = Construction.ofGrammar {} comparisonsGrammar) :
    5 < c.automaton.states.size ∧ (c.automaton.state 5).Offers c.grammar 1 2 ∧
      (c.automaton.state 5).Offers c.grammar 3 2 ∧ c.automaton.edge 5 (.terminal 2) 4 := by
  subst hc
  obtain ⟨-, hstate, -⟩ := comparisons_run
  refine ⟨(Array.getElem?_eq_some_iff.mp hstate).1, ?_⟩
  rw [Automaton.edge, Automaton.state, Array.getD_eq_getD_getElem?, hstate, Option.getD_some]
  refine ⟨⟨by decide, ⟨1, 3⟩, ⟨_, Array.mem_of_getElem? (i := 0) rfl, rfl, ?_⟩, rfl,
      Core.isComplete_iff.mpr (Nat.le_refl 3)⟩,
    ⟨by decide, ⟨3, 1⟩, ⟨_, Array.mem_of_getElem? (i := 3) rfl, rfl, ?_⟩, rfl,
      Core.isComplete_iff.mpr (Nat.le_refl 1)⟩,
    Array.mem_of_getElem? (i := 0) rfl⟩
  · decide
  · decide

/-- Rule 1 is not silenced: precedence has settled it against the shift. -/
theorem accounted_iff_comparisons : ∃ c, comparisons.build = .ok c ∧
    5 < c.automaton.states.size ∧ (c.automaton.state 5).Offers c.grammar 1 2 ∧
    ¬ c.Silenced 5 2 1 := by
  obtain ⟨hsize, hone, -, hmove⟩ := comparisons_offers rfl
  refine ⟨_, comparisons_build, hsize, hone, ?_⟩
  exact (accounted_iff comparisons_build hsize hone).mp
    (Or.inr (Or.inr ⟨⟨4, hmove⟩, by decide⟩))

/-- Rule 3 is silenced: it is offered on `'<'`, but it is not chosen, not reported, and it has no
    level. -/
theorem comparisons_silence : ∃ c, comparisons.build = .ok c ∧
    5 < c.automaton.states.size ∧ (c.automaton.state 5).Offers c.grammar 3 2 ∧
    ¬ (c.action 5 2 = .reduce 3 ∨ c.Reported 5 2 3 ∨
      ((∃ q, c.automaton.edge 5 (.terminal 2) q) ∧ c.grammar.Ranked 3 2)) := by
  obtain ⟨hsize, -, hthree, -⟩ := comparisons_offers rfl
  obtain ⟨-, -, hconflicts, haction⟩ := comparisons_run
  refine ⟨_, comparisons_build, hsize, hthree, ?_⟩
  rintro (hchosen | ⟨k, hk, -⟩ | ⟨-, hranked⟩)
  · rw [haction] at hchosen
    exact absurd hchosen (by decide)
  · rw [hconflicts] at hk
    exact absurd hk (Array.not_mem_empty k)
  · exact absurd hranked (by decide)

/-! ## What is reported

  A report says who won at that time.  The action that is chosen is known only later, when all
  offers have been taken, and so the two may differ. -/

/-- What a conflict says is so.  The action that it names as the winner is the one that is chosen,
    except that a shift that won may have lost later, to a rule that outranks it. -/
structure Warranted (c : Construction) (k : Conflict) : Prop where
  state_lt : k.state < c.automaton.states.size
  offers : (c.automaton.state k.state).Offers c.grammar k.rule k.terminal
  shift : k.kind = .shiftReduce → ∃ q, c.automaton.edge k.state (.terminal k.terminal) q ∧
    (c.action k.state k.terminal = .shift q ↔
      ∀ r, (c.automaton.state k.state).Offers c.grammar r k.terminal →
        ¬ c.grammar.Outranks r k.terminal)
  reduce : k.kind = .reduceReduce → ∃ r < k.rule, c.action k.state k.terminal = .reduce r

include h

/-- Every conflict that is reported is warranted. -/
theorem warranted_of_mem {k : Conflict} (hk : k ∈ c.conflicts) : c.Warranted k := by
  obtain ⟨hp, ht, hin⟩ := (mem_conflicts h).mp hk
  -- a shift is contested, or the lowest of the rules wins
  rcases contestAt_cases h hp ht with ⟨q, he, hat⟩ | ⟨-, ⟨-, hat⟩ | ⟨first, after, hrivals, hat⟩⟩
  · rw [hat] at hin
    obtain ⟨hmem, hshift, hreduce⟩ := contest_reports q (rivals_sorted h hp _) hin
    have hoffers := mem_rivals.mp hmem
    rw [← hat, contestAt_action h hp hoffers] at hshift hreduce
    refine ⟨hp, hoffers, fun hkind => ⟨q, he, ?_⟩, fun hkind => ?_⟩
    · rw [← Option.some_inj, hshift hkind]
      exact forall_congr' fun r => imp_congr_left mem_rivals
    · obtain ⟨r, hlt, haction⟩ := hreduce hkind
      exact ⟨r, hlt, Option.some_inj.mp haction⟩
  · rw [hat] at hin
    exact absurd hin List.not_mem_nil
  · have hsorted := rivals_sorted h hp k.terminal
    rw [hrivals] at hsorted
    obtain ⟨r, hr, heq⟩ : ∃ r ∈ after, (Conflict.Kind.reduceReduce, r) = (k.kind, k.rule) := by
      rw [hat] at hin
      exact List.mem_map.mp hin
    injection heq with hkind hrule
    subst hrule
    have hoffers := mem_rivals.mp (hrivals ▸ List.mem_cons_of_mem first hr)
    have haction := contestAt_action h hp hoffers
    rw [hat, Option.some_inj] at haction
    exact ⟨hp, hoffers, fun hshift => absurd (hkind.trans hshift) (by simp),
      fun _ => ⟨first, (List.pairwise_cons.mp hsorted).1 _ hr, haction.symm⟩⟩

/-- In a state no rule is reported twice on a terminal. -/
theorem nodup_contestAt (hp : p < c.automaton.states.size) (ht : t < c.grammar.terminalCount) :
    ((c.contestAt p t).2.map (·.2)).Nodup := by
  have hsorted := rivals_sorted h hp t
  rcases contestAt_cases h hp ht with ⟨q, -, hat⟩ | ⟨-, ⟨-, hat⟩ | ⟨first, after, hrivals, hat⟩⟩ <;>
    rw [hat]
  · exact nodup_contest q hsorted
  · exact List.nodup_nil
  · rw [hrivals] at hsorted
    rw [List.map_map]
    exact (List.map_id _).symm ▸ (List.pairwise_cons.mp hsorted).2.imp Nat.ne_of_lt

/-- On one ballot no rule is reported twice on a terminal. -/
theorem nodup_conflicts_ballot (hp : p < c.automaton.states.size) :
    (((c.automaton.state p).ballot c.grammar p).conflicts.toList.map
      fun k => (k.terminal, k.rule)).Nodup := by
  refine nodup_map_of_filter fun t => ?_
  by_cases ht : t < c.grammar.terminalCount
  · rw [(ballot_on p ht).2, List.map_map]
    exact nodup_contestAt h hp ht
  · have hnone : ((c.automaton.state p).ballot c.grammar p).conflicts.toList.filter
        (·.terminal == t) = [] := by
      refine List.filter_eq_nil_iff.mpr fun k hk heq => ht ?_
      obtain ⟨-, r, hr⟩ := mem_conflicts_ballot hk
      exact eq_of_beq heq ▸ offers_lt h hp hr
    rw [hnone]
    exact List.nodup_nil

/-- Conflicts differ in the state, the terminal or the rule. -/
theorem nodup_conflicts :
    (c.conflicts.toList.map fun k => (k.state, k.terminal, k.rule)).Nodup := by
  rw [conflicts, decisions_eq h, Decisions.conflicts_eq, List.Nodup, List.pairwise_map,
    List.pairwise_flatMap]
  refine ⟨fun entry hmem => ?_, ?_⟩
  · obtain ⟨s, i⟩ := entry
    obtain ⟨hi, rfl⟩ := Automaton.mem_zipIdx_states.mp hmem
    refine (List.pairwise_map.mp (nodup_conflicts_ballot h hi)).imp fun hne heq => hne ?_
    injection heq
  · have hnumbers : c.automaton.states.toList.zipIdx.Pairwise fun a b => a.2 ≠ b.2 := by
      rw [← List.pairwise_map, List.zipIdx_map_snd]
      exact List.nodup_range'
    refine hnumbers.imp fun {a b} hne k hk k' hk' heq => hne ?_
    rw [← (mem_conflicts_ballot hk).1, ← (mem_conflicts_ballot hk').1]
    injection heq

/-- The conflicts are warranted, and no two agree in the state, the name of the terminal and the
    rule. -/
theorem conflicts_warranted :
    (∀ k ∈ c.conflicts, c.Warranted k) ∧
      (c.conflicts.toList.map fun k =>
        (k.state, c.grammar.alphabet.terminalName k.terminal, k.rule)).Nodup := by
  refine ⟨fun k hk => warranted_of_mem h hk, ?_⟩
  refine List.Nodup.map_on (fun a ha b hb heq => ?_) ((nodup_conflicts h).of_map _)
  obtain ⟨-, hta, -⟩ := (mem_conflicts h).mp (Array.mem_toList_iff.mp ha)
  obtain ⟨-, htb, -⟩ := (mem_conflicts h).mp (Array.mem_toList_iff.mp hb)
  injection heq with hstate hrest
  injection hrest with hname hrule
  have hterminal := (Declarations.build_spec h).1.terminalName_injective hta htb hname
  refine List.inj_on_of_nodup_map (nodup_conflicts h) ha hb ?_
  show (a.state, a.terminal, a.rule) = (b.state, b.terminal, b.rule)
  rw [hstate, hterminal, hrule]

omit h

/-- An `'x'` with a plus behind it can be read in three ways.  Rule 6, `C : 'x'`, has no level, but
    rule 7, `D : 'x'`, has the level of the plus. -/
def readings : Declarations where
  levels := #[⟨.left, ["'+'"]⟩]
  rules := #[⟨"S", ["A"], none, none⟩, ⟨"S", ["B"], none, none⟩, ⟨"S", ["'x'", "'+'"], none, none⟩,
    ⟨"A", ["C", "'+'"], none, none⟩, ⟨"B", ["D", "'+'"], none, none⟩, ⟨"C", ["'x'"], none, none⟩,
    ⟨"D", ["'x'"], none, some "'+'"⟩]

/-- The grammar that they declare. -/
def readingsGrammar : Grammar where
  alphabet :=
    { terminals := #[⟨"$end", 0, none⟩, ⟨"'+'", 43, some ⟨1, .left⟩⟩, ⟨"'x'", 120, none⟩]
      nonterminals := #["$start", "S", "A", "B", "C", "D"] }
  rules := #[⟨0, [.nonterminal 1, .terminal 0], none, none⟩, ⟨1, [.nonterminal 2], none, none⟩,
    ⟨1, [.nonterminal 3], none, none⟩, ⟨1, [.terminal 2, .terminal 1], some 1, none⟩,
    ⟨2, [.nonterminal 4, .terminal 1], some 1, none⟩,
    ⟨3, [.nonterminal 5, .terminal 1], some 1, none⟩, ⟨4, [.terminal 2], none, none⟩,
    ⟨5, [.terminal 2], some 1, none⟩]

set_option maxRecDepth 100000 in
/-- What comes of them.  One conflict is reported, between the shift of the plus and rule 6; then
    rule 7 outranks the shift. -/
theorem readings_run : (Construction.ofGrammar {} readingsGrammar).succeeds = true ∧
    (Construction.ofGrammar {} readingsGrammar).conflicts = #[⟨4, 1, .shiftReduce, 6⟩] ∧
    (Construction.ofGrammar {} readingsGrammar).action 4 1 = .reduce 7 := by cbv

/-- A table for the two readings is built. -/
theorem readings_build : readings.build = .ok (Construction.ofGrammar {} readingsGrammar) :=
  Declarations.build_of_succeeds (by cbv) readings_run.1

/-- The one conflict of the two readings is warranted. -/
theorem conflicts_warranted_readings : ∃ c, readings.build = .ok c ∧
    c.conflicts = #[⟨4, 1, .shiftReduce, 6⟩] ∧ c.Warranted ⟨4, 1, .shiftReduce, 6⟩ := by
  obtain ⟨-, hconflicts, -⟩ := readings_run
  refine ⟨_, readings_build, hconflicts, (conflicts_warranted readings_build).1 _ ?_⟩
  rw [hconflicts]
  exact Array.mem_singleton_self _

/-- The conflict tells that the shift won, but the action that is chosen is the reduction by rule 7.
    -/
theorem readings_reduce : ∃ c, readings.build = .ok c ∧
    ⟨4, 1, .shiftReduce, 6⟩ ∈ c.conflicts ∧ ¬ ∃ q, c.action 4 1 = .shift q := by
  obtain ⟨-, hconflicts, haction⟩ := readings_run
  refine ⟨_, readings_build, ?_, ?_⟩
  · rw [hconflicts]
    exact Array.mem_singleton_self _
  · rintro ⟨q, hshift⟩
    rw [haction] at hshift
    exact absurd hshift (by simp)

end Construction

end Lalr
