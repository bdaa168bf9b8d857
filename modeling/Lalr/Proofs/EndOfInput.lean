/-
  Where the input ends.

  Past the last token the machine is given what token 0 stands for, so it cannot tell a token 0 in
  the input from the end of it.  What stands behind that token is never asked for:

    * if token 0 stands for the end of input, the only move on it enters the state that completes
      rule 0, and there the machine accepts (`Tracks.shift_end`);
    * if it stands for an unknown token, it is never shifted.

  So the runs on an input and on one that goes on behind a token 0 are the same (`parse_end`).
  There is a third case, in which they are not: a declaration can take code 0 away from the end of
  input and give it to another terminal (`shadowed_differ`).
-/
import Mathlib
import Lalr.Proofs.Lockstep

namespace Lalr

open ParseTree

variable {d : Declarations} {settings : Settings} {c : Construction} {input : List Nat}
  {m m' : Configuration} {p q k n : Nat} {ps : List Nat} {α : List Symbol} {ts : List ParseTree}

/-! ## The end of input

  Only rule 0 has the end of input, and no symbol stands behind it there.  So once it is shifted
  there is nothing to do but to accept. -/

/-- The state that the end of input leads to is a leaf, in which the machine is to accept. -/
theorem Construction.phaseIn_final (h : d.build settings = .ok c)
    (he : c.automaton.edge p (.terminal 0) q) (state : Nat) (symbol : Int) :
    c.phaseIn q state symbol = .reducing 0 state symbol := by
  have hw := (automaton_inv h).sound
  obtain ⟨hhas, hcomplete⟩ := hw.final_of_edge (wellFormed h) he
  obtain ⟨hleaf, hfall⟩ := isLeaf_of_final h (hw.edge_lt he) ⟨_, hhas, rfl, hcomplete⟩
  rw [phaseIn, if_pos hleaf, hfall]
  rfl

/-- What is shifted is a terminal that the state has a move on. -/
theorem Tracks.shift_edge (h : d.build settings = .ok c) (ht : Tracks c input m p ps α ts k)
    {state : Nat} {symbol : Int} (hstep : m.step c.table = .next m' (some (.shift state symbol))) :
    ∃ t q, symbol = (t : Nat) ∧ c.automaton.edge p (.terminal t) q ∧
      m'.phase = c.phaseIn q state symbol := by
  cases hphase : m.phase with
  | reducing rule state' symbol' =>
    rcases ht.step_reducing h hphase with hhalt | hhalt | ⟨r, β, q, qs, q', -, -, -, -, hnext⟩
    · exact absurd (hhalt.symm.trans hstep) (by simp)
    · exact absurd (hhalt.symm.trans hstep) (by simp)
    · exact absurd (hnext.symm.trans hstep) (by simp)
  | deciding =>
    obtain ⟨m₁, k', t, -, -, ⟨q, he, hnext⟩ | ⟨rule, -, -, hnext⟩⟩ := ht.step_deciding h hphase
    · obtain ⟨rfl, hevent⟩ := Step.next.inj (hnext.symm.trans hstep)
      obtain ⟨rfl, rfl⟩ := Event.shift.inj (Option.some.inj hevent)
      exact ⟨t, q, rfl, he, rfl⟩
    · exact absurd (hnext.symm.trans hstep) (by simp)

/-- No terminal but the end of input has code 0. -/
def Grammar.EndsAtZero (g : Grammar) : Prop :=
  ∀ t, t < g.terminalCount → g.rawCode t = 0 → t = 0

/-- If token 0 stands for a terminal, this is the end of input. -/
theorem Construction.terminal_of_symbolOf_zero (h : d.build settings = .ok c)
    (hzero : c.grammar.EndsAtZero) {t : Nat} (ht : t < c.grammar.terminalCount)
    (hsymbol : c.table.symbolOf 0 = t) : t = 0 := by
  rw [table_eq h] at hsymbol
  rcases c.grammar.tokenToSymbol_cases 0 with ⟨u, hu, hcode, hvalue⟩ | ⟨hvalue, -⟩
  · have heq : (u : Int) = t := hvalue.symm.trans hsymbol
    rw [← Int.ofNat_inj.mp heq]
    exact hzero u hu hcode
  · have heq : (c.grammar.terminalCount : Int) = t := hvalue.symm.trans hsymbol
    have := Int.ofNat_inj.mp heq
    omega

/-- When what token 0 stands for is shifted, the machine is about to accept. -/
theorem Tracks.shift_end (h : d.build settings = .ok c) (hzero : c.grammar.EndsAtZero)
    (ht : Tracks c input m p ps α ts k) {state : Nat}
    (hstep : m.step c.table = .next m' (some (.shift state (c.table.symbolOf 0)))) :
    m'.phase = .reducing 0 state (c.table.symbolOf 0) := by
  have hw := (Construction.automaton_inv h).sound
  obtain ⟨t, q, hsymbol, he, hphase⟩ := ht.shift_edge h hstep
  have hlt : t < c.grammar.terminalCount := hw.terminal_lt (Construction.wellFormed h) he
  obtain rfl := Construction.terminal_of_symbolOf_zero h hzero hlt hsymbol
  rw [hphase, Construction.phaseIn_final h he]

/-! ## Two inputs

  Up to token 0 the inputs agree, and the machines stand abreast.  What is compared afterwards is
  only how they end. -/

theorem Event.of_shifted {event : Option Event} {symbol : Int}
    (h : event.toList.filterMap Event.shift? = [symbol]) :
    ∃ state, event = some (.shift state symbol) := by
  cases event with
  | none => exact absurd h (by simp)
  | some event =>
    cases event with
    | reduce rule => exact absurd (show [] = [symbol] from h) (by simp)
    | shift state symbol' => exact ⟨state, by rw [(List.cons.inj h).1]⟩

/-- The machine has taken no more tokens than it was given symbols. -/
theorem Tracks.consumed_le (ht : Tracks c input m p ps α ts k) :
    m.consumed ≤ (yields ts).length + m.look.toList.length := by
  have hlength := congrArg List.length ht.tokens
  rw [List.length_append, List.length_map, List.length_take, Nat.min_eq_left ht.consumed,
    List.length_append, List.length_map] at hlength
  omega

theorem Tracks.consumed_le_succ (ht : Tracks c input m p ps α ts k) :
    m.consumed ≤ (yields ts).length + 1 :=
  ht.consumed_le.trans (Nat.add_le_add_left Option.length_toList_le _)

/-- Machines that are about to accept do so, whatever they are given. -/
theorem Run.extend_accept {t : ParseTable} {state : Nat} {symbol : Int} (habreast : Abreast m m')
    (hphase : m.phase = .reducing 0 state symbol) (limit : Nat) (before : Array Event) :
    (Run.extend t limit before m).events = (Run.extend t limit before m').events ∧
      (Run.extend t limit before m).outcome = (Run.extend t limit before m').outcome ∧
      (Run.extend t limit before m).consumed = m.consumed := by
  cases limit with
  | zero => exact ⟨rfl, rfl, rfl⟩
  | succ limit =>
    rw [Run.extend, Run.extend, Configuration.step_accept hphase,
      Configuration.step_accept (habreast.phase.trans hphase)]
    exact ⟨rfl, rfl, rfl⟩

/-- A machine for which token 0 stands behind the next `n` symbols, and one that is given the same
    as far as that, do the same; and the first takes no token behind that one. -/
theorem Tracks.run_end (h : d.build settings = .ok c) (hzero : c.grammar.EndsAtZero) (limit : Nat)
    (before : Array Event) (ht : Tracks c input m p ps α ts k) (habreast : Abreast m m')
    (hahead : ∀ i ≤ n, m'.ahead c.table i = m.ahead c.table i)
    (hlast : m.ahead c.table n = c.table.symbolOf 0) :
    (Run.extend c.table limit before m).events = (Run.extend c.table limit before m').events ∧
      (Run.extend c.table limit before m).outcome =
        (Run.extend c.table limit before m').outcome ∧
      (Run.extend c.table limit before m).consumed ≤ (yields ts).length + n + 1 := by
  induction limit generalizing before m m' p ps α ts k n with
  | zero => exact ⟨rfl, rfl, ht.consumed_le_succ.trans (by omega)⟩
  | succ limit ih =>
    have hnext := habreast.step (hahead 0 (Nat.zero_le n))
    rw [Run.extend, Run.extend]
    generalize hstep : m.step c.table = s at hnext
    generalize hstep' : m'.step c.table = s' at hnext
    cases hnext with
    | halt outcome => exact ⟨rfl, rfl, ht.consumed_le_succ.trans (by omega)⟩
    | @next m₁ m₁' habreast₁ event =>
      obtain ⟨p₁, ps₁, α₁, ts₁, k₁, ht₁, -, hyields⟩ := ht.step h hstep
      have hlength := congrArg List.length hyields
      rw [List.length_map, List.length_append, List.length_map] at hlength
      rcases Configuration.step_ahead hstep with ⟨hnone, hsame⟩ | ⟨hone, hmoved⟩ <;>
        rcases Configuration.step_ahead hstep' with ⟨hnone', hsame'⟩ | ⟨hone', hmoved'⟩
      · rw [hnone, List.length_nil, Nat.add_zero] at hlength
        rw [← hlength]
        exact ih _ ht₁ habreast₁ (by rw [hsame, hsame']; exact hahead) (by rw [hsame]; exact hlast)
      · exact absurd (hnone.symm.trans hone') (by simp)
      · exact absurd (hone.symm.trans hnone') (by simp)
      · rw [hone, List.length_singleton] at hlength
        cases n with
        | succ n =>
          have hrest := ih (before ++ event.toArray) ht₁ habreast₁ (n := n)
            (fun i hi => by rw [hmoved, hmoved']; exact hahead (i + 1) (Nat.succ_le_succ hi))
            (by rw [hmoved]; exact hlast)
          rw [hlength, Nat.add_assoc (yields ts).length, Nat.add_comm 1 n] at hrest
          exact hrest
        | zero =>
          -- the token 0 was shifted, so there is nothing to do but to accept
          obtain ⟨state, rfl⟩ := Event.of_shifted (hone.trans (by rw [hlast]))
          have hphase := ht.shift_end h hzero hstep
          have hready := ht₁.ready
          rw [hphase] at hready
          have htaken := ht₁.consumed_le
          rw [hready.2 rfl, hlength] at htaken
          obtain ⟨hevents, houtcome, hconsumed⟩ := Run.extend_accept (t := c.table) habreast₁
            hphase limit (before ++ (some (Event.shift state (c.table.symbolOf 0))).toArray)
          exact ⟨hevents, houtcome, hconsumed ▸ htaken⟩

/-- If no terminal but the end of input has code 0, then an input that goes on behind a token 0
    gives the same run as one that is over there, and no token behind that one is taken.  If
    moreover the end of input has code 0, then token 0 stands for it. -/
theorem parse_end (h : d.build settings = .ok c) (hzero : c.grammar.EndsAtZero)
    (ts us : List Nat) (limit : Nat) :
    (c.table.parse limit (ts ++ 0 :: us)).events = (c.table.parse limit ts).events ∧
      (c.table.parse limit (ts ++ 0 :: us)).outcome = (c.table.parse limit ts).outcome ∧
      (c.table.parse limit (ts ++ 0 :: us)).consumed ≤ ts.length + 1 ∧
      (c.grammar.rawCode 0 = 0 → c.table.symbolOf 0 = 0) := by
  -- up to the end mark both inputs show the same tokens, and behind it nothing is read
  have hahead : ∀ i ≤ ts.length, (Configuration.start ts).ahead c.table i =
      (Configuration.start (ts ++ 0 :: us)).ahead c.table i := by
    intro i hi
    show (ts.map c.table.symbolOf).getD i _ = ((ts ++ 0 :: us).map c.table.symbolOf).getD i _
    rw [List.map_append, List.getD_eq_getElem?_getD, List.getD_eq_getElem?_getD]
    rcases Nat.lt_or_eq_of_le hi with hlt | rfl
    · rw [List.getElem?_append_left (by rw [List.length_map]; exact hlt)]
    · rw [List.getElem?_append_right (by rw [List.length_map]), List.length_map, Nat.sub_self,
        List.getElem?_eq_none (by rw [List.length_map])]
      rfl
  have hlast : (Configuration.start (ts ++ 0 :: us)).ahead c.table ts.length =
      c.table.symbolOf 0 := by
    rw [← hahead _ (Nat.le_refl _)]
    exact Configuration.ahead_start_of_le (Nat.le_refl _)
  have hstart : Abreast (Configuration.start (ts ++ 0 :: us)) (Configuration.start ts) :=
    ⟨rfl, rfl⟩
  obtain ⟨hevents, houtcome, hconsumed⟩ :=
    (Tracks.start h (ts ++ 0 :: us)).run_end h hzero limit #[] hstart hahead hlast
  refine ⟨hevents, houtcome, ?_, fun hcode => ?_⟩
  · rw [yields, List.length_nil, Nat.zero_add] at hconsumed
    exact hconsumed
  · have hsymbol := Construction.symbolOf_rawCode h (Declarations.build_spec h).1.terminals_pos
    rw [hcode] at hsymbol
    exact hsymbol

/-- The theorem for sums: an identifier and token 0, and then one more token. -/
theorem parse_end_sums : ∃ c, sums.build = .ok c ∧ c.grammar.EndsAtZero ∧
    (c.table.parse 10 [257]).outcome = some .accepted ∧
    (c.table.parse 10 [257, 0, 43]).outcome = some .accepted ∧
    (c.table.parse 10 [257, 0, 43]).consumed ≤ 2 ∧ c.table.symbolOf 0 = 0 := by
  have hacc : ((Construction.ofGrammar {} sumsGrammar).table.parse 10 [257]).outcome =
      some .accepted := by
    rw [sums_table]
    decide +kernel
  have hcount : sumsGrammar.terminalCount = 3 := rfl
  have hzero : sumsGrammar.EndsAtZero := by
    intro t ht hcode
    rw [hcount] at ht
    have hcases : t = 0 ∨ t = 1 ∨ t = 2 := by omega
    rcases hcases with rfl | rfl | rfl
    · rfl
    · exact absurd hcode (by decide)
    · exact absurd hcode (by decide)
  obtain ⟨-, houtcome, hconsumed, hsymbol⟩ := parse_end sums_build hzero [257] [43] 10
  exact ⟨_, sums_build, hzero, hacc, houtcome.trans hacc, hconsumed, hsymbol rfl⟩

/-- The end of input has another code, and code 0 is a terminal's. -/
def shadowed : Declarations where
  tokens := #[⟨"$end", some 5⟩, ⟨"X", some 0⟩]
  rules := #[⟨"S", ["X"], none, none⟩]

/-- The grammar that they declare. -/
def shadowedGrammar : Grammar where
  alphabet :=
    { terminals := #[⟨"$end", 5, none⟩, ⟨"X", 0, none⟩]
      nonterminals := #["$start", "S"] }
  rules := #[⟨0, [.nonterminal 1, .terminal 0], none, none⟩, ⟨1, [.terminal 1], none, none⟩]

set_option maxRecDepth 100000 in
/-- What comes of them, for a token 0 in front of a token 5, and for no tokens. -/
theorem shadowed_run : (Construction.ofGrammar {} shadowedGrammar).succeeds = true ∧
    ((Construction.ofGrammar {} shadowedGrammar).table.parse 10 ([] ++ 0 :: [5])).outcome =
      some .accepted ∧
    ((Construction.ofGrammar {} shadowedGrammar).table.parse 10 []).outcome =
      some (.rejected 1 1) := by cbv

/-- Here token 0 does not end the input: the machine shifts it, and token 5 behind it.  Where the
    input is over, it is given the same terminal, and refuses the second. -/
theorem shadowed_differ : ∃ c, shadowed.build = .ok c ∧
    (c.table.parse 10 ([] ++ 0 :: [5])).outcome = some .accepted ∧
    (c.table.parse 10 []).outcome = some (.rejected 1 1) := by
  obtain ⟨hsucceeds, haccepted, hrejected⟩ := shadowed_run
  exact ⟨_, Declarations.build_of_succeeds (by cbv) hsucceeds, haccepted, hrejected⟩

end Lalr
