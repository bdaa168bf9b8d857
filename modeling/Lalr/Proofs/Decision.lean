/-
  What the decided actions mean.

  An action of a row is always one that the items of its state offer: a shift over a symbol that the
  state has a move on, or a reduction by a rule that the state completes (`Ballot.Sound`).  This
  holds however conflicts were settled.

  If nothing binds and no conflict was met, nothing that was offered is lost either
  (`State.decided_offer`, `State.decided_shift`).
-/
import Mathlib
import Lalr.Decision
import Lalr.Proofs.Keyed
import Lalr.Proofs.State

namespace Lalr

/-- The better of two candidates is one of them. -/
theorem commoner_eq_some {α : Type} [LT α] [DecidableLT α] {best : Option (α × Nat)}
    {next b : α × Nat} (h : commoner best next = some b) : b = next ∨ best = some b := by
  unfold commoner at h
  split at h
  · injection h with h
    exact Or.inl h.symm
  · split at h
    · injection h with h
      exact Or.inl h.symm
    · exact Or.inr h

/-- The most frequent member of a list is a member. -/
theorem mem_of_commonest? {α : Type} [DecidableEq α] [LT α] [DecidableLT α] {xs : List α} {x : α}
    (h : commonest? xs = some x) : x ∈ xs := by
  obtain ⟨b, hb, rfl⟩ := Option.map_eq_some_iff.mp h
  -- the best so far is a member
  have hinv := List.foldlRecOn (motive := fun best => ∀ b, best = some b → b.1 ∈ xs) xs
    (fun best x => commoner best (x, xs.count x)) (b := none) (fun b hb => absurd hb (by simp))
    fun best hbest y hy b hb => by
      rcases commoner_eq_some hb with rfl | hb
      · exact hy
      · exact hbest b hb
  exact hinv b hb

/-! ## What a state offers

  A ballot takes offers one after the other.  What it decides and what it reports can
  then be shown by induction on the list of offers. -/

namespace State

variable {g : Grammar} {s : State}

/-- The state has an item of rule `r` with the dot at the end. -/
def Completes (g : Grammar) (s : State) (r : Nat) : Prop :=
  ∃ c, s.Has c ∧ c.rule = r ∧ c.isComplete g = true

/-- The state has an item of rule `r` with the dot at the end and terminal `t` in its lookahead. -/
def CompletesOn (g : Grammar) (s : State) (r t : Nat) : Prop :=
  ∃ c, s.Look c t ∧ c.rule = r ∧ c.isComplete g = true

theorem CompletesOn.completes {r t : Nat} (h : s.CompletesOn g r t) : s.Completes g r := by
  obtain ⟨c, hlook, hrest⟩ := h
  exact ⟨c, hlook.has, hrest⟩

/-- The reductions with the terminals they are offered on, in the order in which they are taken. -/
def offers (g : Grammar) (s : State) : List (Nat × Nat) :=
  (s.reductions g).flatMap fun e => e.2.toList.map (e.1, ·)

/-- The complete items of a state are those with nothing after the dot. -/
theorem mem_complete {item : Item} :
    item ∈ s.complete g ↔ item ∈ s.items ∧ item.core.isComplete g = true := by
  rw [complete, List.mem_filter, Array.mem_toList_iff]

/-- A state accepts if it completes the start rule. -/
theorem accepts_iff : s.accepts g = true ↔ s.Completes g 0 := by
  rw [accepts, List.any_eq_true]
  constructor
  · rintro ⟨item, hitem, hrule⟩
    obtain ⟨hmem, hcomplete⟩ := mem_complete.mp hitem
    exact ⟨item.core, ⟨item, hmem, rfl⟩, by simpa using hrule, hcomplete⟩
  · rintro ⟨c, ⟨item, hmem, rfl⟩, hrule, hcomplete⟩
    exact ⟨item, mem_complete.mpr ⟨hmem, hcomplete⟩, by simpa using hrule⟩

/-- Offered are the rules other than the start rule that are completed, on the terminals of their
    lookaheads. -/
theorem mem_offers {r t : Nat} : (r, t) ∈ s.offers g ↔ r ≠ 0 ∧ s.CompletesOn g r t := by
  simp only [offers, reductions, List.mem_flatMap, List.mem_mergeSort, List.mem_map,
    List.mem_filter, mem_complete]
  constructor
  · rintro ⟨_, ⟨item, ⟨⟨hmem, hcomplete⟩, hne⟩, rfl⟩, t', ht, heq⟩
    injection heq with hr ht'
    subst hr ht'
    exact ⟨by simpa using hne, item.core, ⟨item, hmem, rfl, SymbolSet.mem_toList.mp ht⟩, rfl,
      hcomplete⟩
  · rintro ⟨hne, c, ⟨item, hmem, rfl, ht⟩, rfl, hcomplete⟩
    exact ⟨_, ⟨item, ⟨⟨hmem, hcomplete⟩, by simpa using hne⟩, rfl⟩, t,
      SymbolSet.mem_toList.mpr ht, rfl⟩

/-- A ballot takes the offers one by one, after the shifts. -/
theorem ballot_eq (i : Nat) : s.ballot g i =
    (s.offers g).foldl (fun b e => b.offer g i e.1 e.2) ⟨s.shifts g, #[]⟩ := by
  rw [ballot, offers, List.foldl_flatMap]
  congr 1
  funext b e
  rw [List.foldl_map]

end State

/-! ## Settling

  A rule is offered, and may meet what was decided before.  How levels settle it does not matter
  here: the outcome is one of the two, or an error. -/

namespace Ballot

variable {g : Grammar} {s : State} {b : Ballot} {i r t : Nat}

/-- What was decided on a terminal so far. -/
def decided (b : Ballot) (t : Nat) : Option Action :=
  b.actions.getD t none

/-- The action is one that the state's items offer, or an error that a shift was turned into. -/
def Allowed (g : Grammar) (s : State) (t : Nat) : Action → Prop
  | .shift q => (.terminal t, q) ∈ s.moves
  | .reduce r => r ≠ 0 ∧ s.Completes g r
  | .accept => False
  | .error => ∃ q, (.terminal t, q) ∈ s.moves

/-- Everything that was decided is allowed. -/
def Sound (g : Grammar) (s : State) (b : Ballot) : Prop :=
  ∀ {t : Nat} {action : Action}, b.decided t = some action → Allowed g s t action

/-- Whatever a rule meets, what is decided then is what was there, the rule, or an error. -/
theorem settleShift_cases (g : Grammar) (existing : Action) (r t : Nat) :
    (settleShift g existing r t).1 = existing ∨ (settleShift g existing r t).1 = .reduce r ∨
      (settleShift g existing r t).1 = .error := by
  unfold settleShift
  split
  · split
    · exact Or.inr (Or.inl rfl)
    · split
      · exact Or.inl rfl
      · split
        · exact Or.inr (Or.inl rfl)
        · exact Or.inl rfl
        · exact Or.inr (Or.inr rfl)
  · exact Or.inl rfl

/-- Whatever a meeting is settled as, it is allowed if both sides are. -/
theorem allowed_settle {existing : Action} (he : Allowed g s t existing)
    (hr : Allowed g s t (.reduce r)) : Allowed g s t (settle g existing r t).1 := by
  cases existing with
  | shift q =>
    show Allowed g s t (settleShift g (.shift q) r t).1
    rcases settleShift_cases g (.shift q) r t with h | h | h <;> rw [h]
    · exact he
    · exact hr
    · exact ⟨q, he⟩
  | reduce kept =>
    show Allowed g s t (.reduce (min kept r))
    rcases Nat.le_total kept r with h | h
    · rw [Nat.min_eq_left h]
      exact he
    · rw [Nat.min_eq_right h]
      exact hr
  | accept => exact he
  | error => exact he

/-- What is decided when a reduction by rule `r` is offered on terminal `t`. -/
def outcome (g : Grammar) (b : Ballot) (r t : Nat) : Action :=
  match b.decided t with
  | none => .reduce r
  | some existing => (settle g existing r t).1

/-- An offer changes the decision on its terminal and on no other. -/
theorem actions_offer (b : Ballot) (i r t : Nat) :
    (b.offer g i r t).actions = b.actions.setIfInBounds t (some (b.outcome g r t)) := by
  unfold offer outcome decided
  cases b.actions.getD t none with
  | none => rfl
  | some existing =>
    dsimp only
    cases (settle g existing r t).2 with
    | none => rfl
    | some conflict => rfl

/-- An offer decides on its own terminal only. -/
theorem decided_offer (b : Ballot) (i r t u : Nat) : (b.offer g i r t).decided u =
    if t = u ∧ t < b.actions.size then some (b.outcome g r t) else b.decided u := by
  rw [decided, actions_offer, getD_setIfInBounds]
  rfl

/-- Taking an offer keeps the ballot sound. -/
theorem Sound.offer (h : Sound g s b) (hr : r ≠ 0) (hc : s.Completes g r) :
    Sound g s (b.offer g i r t) := by
  intro u action hu
  rw [decided_offer] at hu
  split at hu
  · rename_i hcond
    obtain ⟨rfl, -⟩ := hcond
    injection hu with hu
    subst hu
    unfold outcome
    cases hdec : b.decided t with
    | none => exact ⟨hr, hc⟩
    | some existing => exact allowed_settle (h hdec) ⟨hr, hc⟩
  · exact h hu

/-- And so does taking many. -/
theorem Sound.foldl_offer {offers : List (Nat × Nat)} (h : Sound g s b)
    (hoffers : ∀ {r t : Nat}, (r, t) ∈ offers → r ≠ 0 ∧ s.Completes g r) :
    Sound g s (offers.foldl (fun b e => b.offer g i e.1 e.2) b) := by
  induction offers generalizing b with
  | nil => exact h
  | cons e offers ih =>
    obtain ⟨hr, hc⟩ := hoffers (r := e.1) (t := e.2) List.mem_cons_self
    exact ih (h.offer hr hc) fun hmem => hoffers (List.mem_cons_of_mem _ hmem)

/-! ## Without conflicts

  Where nothing binds, an offer that meets another is reported.  So if nothing was reported, each
  offer found its terminal free. -/

/-- Every action that was decided is a shift or a reduction. -/
def Plain (b : Ballot) : Prop :=
  ∀ {t : Nat} {action : Action}, b.decided t = some action →
    (∃ q, action = .shift q) ∨ ∃ r, action = .reduce r

theorem size_offer : (b.offer g i r t).actions.size = b.actions.size := by
  rw [actions_offer, Array.size_setIfInBounds]

variable (hbinding : ∀ t, g.alphabet.binding t = none)
include hbinding

/-- Without precedence the shift stands, and the conflict is reported. -/
theorem settleShift_eq (existing : Action) (r t : Nat) :
    settleShift g existing r t = (existing, some .shiftReduce) := by
  unfold settleShift
  rw [hbinding t]
  split
  · rename_i h
    exact absurd h (by simp)
  · rfl

/-- So no errors come up on the ballot. -/
theorem Plain.offer (h : Plain b) : Plain (b.offer g i r t) := by
  intro u action hu
  rw [decided_offer] at hu
  split at hu
  · injection hu with hu
    subst hu
    unfold outcome
    cases hdec : b.decided t with
    | none => exact Or.inr ⟨r, rfl⟩
    | some existing =>
      rcases h hdec with ⟨q, rfl⟩ | ⟨kept, rfl⟩
      · show (∃ q', (settleShift g (.shift q) r t).1 = .shift q') ∨ _
        rw [settleShift_eq hbinding]
        exact Or.inl ⟨q, rfl⟩
      · exact Or.inr ⟨min kept r, rfl⟩
  · exact h hu

/-- Where nothing binds, an offer on a terminal that is decided is a conflict. -/
theorem conflicts_offer (h : Plain b) (hempty : (b.offer g i r t).conflicts = #[]) :
    b.conflicts = #[] ∧ b.decided t = none := by
  cases hdec : b.decided t with
  | none =>
    unfold Ballot.offer at hempty
    rw [show b.actions.getD t none = none from hdec] at hempty
    exact ⟨hempty, rfl⟩
  | some existing =>
    exfalso
    unfold Ballot.offer at hempty
    rw [show b.actions.getD t none = some existing from hdec] at hempty
    rcases h hdec with ⟨q, rfl⟩ | ⟨kept, rfl⟩
    · simp [settle, settleShift_eq hbinding] at hempty
    · simp [settle] at hempty

/-- Without conflicts every offer is taken, and nothing decided before is lost. -/
theorem foldl_offer_of_no_conflict {offers : List (Nat × Nat)} (h : Plain b)
    (hempty : (offers.foldl (fun b e => b.offer g i e.1 e.2) b).conflicts = #[]) :
    b.conflicts = #[] ∧
      (∀ {t : Nat} {action : Action}, b.decided t = some action →
        (offers.foldl (fun b e => b.offer g i e.1 e.2) b).decided t = some action) ∧
      ∀ {r t : Nat}, (r, t) ∈ offers → t < b.actions.size →
        (offers.foldl (fun b e => b.offer g i e.1 e.2) b).decided t = some (.reduce r) := by
  -- no offer may meet one that is there, so what was decided once is kept
  induction offers generalizing b with
  | nil => exact ⟨hempty, fun hdec => hdec, fun hmem => absurd hmem List.not_mem_nil⟩
  | cons e offers ih =>
    obtain ⟨hoffer, hkeep, htaken⟩ := ih (h.offer hbinding) hempty
    obtain ⟨hb, hnone⟩ := conflicts_offer hbinding h hoffer
    refine ⟨hb, fun {t action} hdec => hkeep ?_, fun {r t} hmem hlt => ?_⟩
    · rw [decided_offer, if_neg]
      · exact hdec
      · rintro ⟨rfl, -⟩
        rw [hnone] at hdec
        exact absurd hdec (by simp)
    · rcases List.mem_cons.mp hmem with rfl | hmem
      · refine hkeep ?_
        rw [decided_offer, if_pos ⟨rfl, hlt⟩, outcome, hnone]
      · exact htaken hmem (by rw [size_offer]; exact hlt)

end Ballot

/-! ## The ballot of a state

  The shifts come first, and no two of them are on one terminal, since moves are on different
  symbols. -/

namespace State

variable {g : Grammar} {s : State}

open Ballot

/-- The moves on terminals. -/
def terminalMoves (s : State) : List (Nat × Nat) :=
  s.moves.toList.filterMap fun move =>
    match move.1 with
    | .terminal t => some (t, move.2)
    | .nonterminal _ => none

/-- The moves over terminals are moves. -/
theorem mem_terminalMoves {t q : Nat} : (t, q) ∈ s.terminalMoves ↔ (.terminal t, q) ∈ s.moves := by
  rw [terminalMoves, List.mem_filterMap]
  constructor
  · rintro ⟨⟨x, target⟩, hmem, heq⟩
    cases x with
    | nonterminal a => exact absurd heq (by simp)
    | terminal u =>
      injection heq with heq
      injection heq with hu htarget
      subst hu htarget
      exact Array.mem_toList_iff.mp hmem
  · intro h
    exact ⟨(.terminal t, q), Array.mem_toList_iff.mpr h, rfl⟩

/-- The shifts are filled in move by move. -/
theorem shifts_eq : s.shifts g = s.terminalMoves.foldl
    (fun actions e => actions.setIfInBounds e.1 (some (.shift e.2)))
    (Array.replicate g.terminalCount none) := by
  rw [shifts, ← Array.foldl_toList, terminalMoves, List.foldl_filterMap]
  congr 1
  funext actions ⟨x, target⟩
  cases x <;> rfl

theorem size_shifts (g : Grammar) (s : State) : (s.shifts g).size = g.terminalCount := by
  rw [shifts_eq, size_foldl_setIfInBounds, Array.size_replicate]

/-- What is filled in shifts as a move says. -/
theorem shift_of_shifts {t : Nat} {action : Action} (h : (s.shifts g).getD t none = some action) :
    ∃ q, action = .shift q ∧ (.terminal t, q) ∈ s.moves := by
  rw [shifts_eq] at h
  rcases getD_foldl_setIfInBounds (·.1) (fun e => some (Action.shift e.2)) s.terminalMoves
    (Array.replicate g.terminalCount none) t none with ⟨⟨u, q⟩, hmem, rfl, hq⟩ | ⟨hsame, -⟩
  · rw [hq] at h
    injection h with h
    exact ⟨q, h.symm, mem_terminalMoves.mp hmem⟩
  · rw [hsame, getD_replicate] at h
    exact absurd h (by simp)

/-- And each move is filled in. -/
theorem shifts_of_move {t q : Nat} (h : (.terminal t, q) ∈ s.moves) (ht : t < g.terminalCount)
    (hunique : ∀ {q' : Nat}, (.terminal t, q') ∈ s.moves → q' = q) :
    (s.shifts g).getD t none = some (.shift q) := by
  rw [shifts_eq]
  rcases getD_foldl_setIfInBounds (·.1) (fun e => some (Action.shift e.2)) s.terminalMoves
    (Array.replicate g.terminalCount none) t none with ⟨⟨u, q'⟩, hmem, rfl, hq⟩ | ⟨-, hnone⟩
  · rw [hq, hunique (mem_terminalMoves.mp hmem)]
  · rw [Array.size_replicate] at hnone
    exact absurd rfl (hnone ht (t, q) (mem_terminalMoves.mpr h))

/-- Every decided action is one that the state's items offer. -/
theorem ballot_sound (g : Grammar) (i : Nat) (s : State) : Sound g s (s.ballot g i) := by
  rw [ballot_eq]
  refine Sound.foldl_offer (fun {t action} hdec => ?_) fun hmem => ?_
  · obtain ⟨q, rfl, hmem⟩ := shift_of_shifts hdec
    exact hmem
  · obtain ⟨hne, hon⟩ := mem_offers.mp hmem
    exact ⟨hne, hon.completes⟩

/-- Where nothing binds and no conflict is met, every offer of the state is taken. -/
theorem ballot_full (hbinding : ∀ t, g.alphabet.binding t = none) {i : Nat}
    (hempty : (s.ballot g i).conflicts = #[]) :
    (∀ {t : Nat} {action : Action}, (s.shifts g).getD t none = some action →
      (s.ballot g i).decided t = some action) ∧
    ∀ {r t : Nat}, r ≠ 0 → s.CompletesOn g r t → t < g.terminalCount →
      (s.ballot g i).decided t = some (.reduce r) := by
  rw [ballot_eq] at hempty ⊢
  have hplain : Plain ⟨s.shifts g, #[]⟩ := by
    intro t action hdec
    obtain ⟨q, rfl, -⟩ := shift_of_shifts hdec
    exact Or.inl ⟨q, rfl⟩
  obtain ⟨-, hkeep, htaken⟩ := foldl_offer_of_no_conflict hbinding hplain hempty
  refine ⟨hkeep, fun hne hon ht => htaken (mem_offers.mpr ⟨hne, hon⟩) ?_⟩
  rw [size_shifts]
  exact ht

/-! ## The row of a state

  A state that accepts has this for its fallback; else it is the most frequent reduction.
  Entries that agree with the fallback are left out, and reading the row gives them back. -/

/-- A row keeps the decisions that differ from its fallback. -/
theorem actionRow_actions (g : Grammar) (i : Nat) (s : State) : (s.actionRow g i).1.actions =
    entriesOf (fun action => action.filter (· ≠ s.fallback g (s.ballot g i).actions))
      (s.ballot g i).actions.toList := by
  rw [entriesOf]
  show List.filterMap _ _ = _
  congr 1
  funext entry
  obtain ⟨action, t⟩ := entry
  cases action with
  | none => rfl
  | some action =>
    show (if _ then _ else _) = Option.map _ (Option.filter _ (some action))
    rw [Option.filter_some]
    split
    · rename_i heq
      rw [if_neg (by simp [heq])]
      rfl
    · rename_i hne
      rw [if_pos (by simp [hne])]
      rfl

/-- There is a place for a decision on each terminal. -/
theorem size_ballot (g : Grammar) (i : Nat) (s : State) :
    (s.ballot g i).actions.size = g.terminalCount := by
  rw [ballot_eq]
  refine List.foldlRecOn (motive := fun b : Ballot => b.actions.size = g.terminalCount) _ _
    (size_shifts g s) fun b hb e _ => ?_
  rw [Ballot.size_offer]
  exact hb

/-- A row lists its entries by terminal. -/
theorem sortedByKey_actions (g : Grammar) (i : Nat) (s : State) :
    SortedByKey (s.actionRow g i).1.actions := by
  rw [actionRow_actions]
  exact sortedByKey_entriesOf _ _

/-- The actions of a row are for terminals. -/
theorem lt_of_mem_actions {i : Nat} {e : Nat × Action} (he : e ∈ (s.actionRow g i).1.actions) :
    e.1 < g.terminalCount := by
  rw [actionRow_actions] at he
  obtain ⟨t, action⟩ := e
  obtain ⟨a, ha, -⟩ := Option.bind_eq_some_iff.mp (mem_entriesOf.mp he)
  rw [Array.getElem?_toList] at ha
  exact size_ballot g i s ▸ (Array.getElem?_eq_some_iff.mp ha).1

/-- Looking up a terminal in a row gives the decision, unless that is the fallback. -/
theorem lookup_actions (g : Grammar) (i : Nat) (s : State) (t : Nat) :
    (s.actionRow g i).1.actions.lookup t =
      ((s.ballot g i).decided t).filter (· ≠ (s.actionRow g i).1.fallback) := by
  rw [actionRow_actions, lookup_entriesOf, decided, Array.getD_eq_getD_getElem?,
    Array.getElem?_toList]
  cases (s.ballot g i).actions[t]? <;> rfl

/-- What was decided on a terminal is the row's action on it. -/
theorem action_of_decided {i t : Nat} {action : Action}
    (h : (s.ballot g i).decided t = some action) : (s.actionRow g i).1.action t = action := by
  rw [ActionRow.action, lookup_actions, h, Option.filter_some]
  split
  · rfl
  · rename_i heq
    rw [decide_eq_true_eq, not_not] at heq
    exact heq.symm

/-- The fallback is never a shift; it accepts if and only if the state completes rule 0, and reduces
    only by a rule that the state completes. -/
theorem fallback_cases (g : Grammar) (i : Nat) (s : State) :
    (s.Completes g 0 ∧ (s.actionRow g i).1.fallback = .accept) ∨
      (¬ s.Completes g 0 ∧ ∃ r, (s.actionRow g i).1.fallback = .reduce r ∧ r ≠ 0 ∧
        s.Completes g r) ∨
      (¬ s.Completes g 0 ∧ (s.actionRow g i).1.fallback = .error) := by
  show (_ ∧ s.fallback g (s.ballot g i).actions = _) ∨ (_ ∧ ∃ r, s.fallback g _ = _ ∧ _) ∨
    (_ ∧ s.fallback g _ = _)
  unfold fallback
  -- first accepting, then the rule with most votes, and without votes the error
  by_cases haccepts : s.accepts g = true
  · exact Or.inl ⟨accepts_iff.mp haccepts, if_pos haccepts⟩
  · have hnot : ¬ s.Completes g 0 := fun h => haccepts (accepts_iff.mpr h)
    rw [if_neg haccepts]
    cases hcommon : commonest? ((s.ballot g i).actions.toList.filterMap
        fun action => action.bind Action.reduction?) with
    | none => exact Or.inr (Or.inr ⟨hnot, rfl⟩)
    | some r =>
      obtain ⟨action, hmem, hr⟩ := List.mem_filterMap.mp (mem_of_commonest? hcommon)
      obtain ⟨a, rfl, ha⟩ := Option.bind_eq_some_iff.mp hr
      obtain ⟨t, ht⟩ := List.mem_iff_getElem?.mp hmem
      -- a vote is an action that was decided, and only complete items decide for a rule
      have hdec : (s.ballot g i).decided t = some a := by
        rw [decided, Array.getD_eq_getD_getElem?, ← Array.getElem?_toList, ht]
        rfl
      cases a with
      | reduce r' =>
        injection ha with ha
        subst ha
        exact Or.inr (Or.inl ⟨hnot, r', rfl, s.ballot_sound g i hdec⟩)
      | shift q => exact absurd ha (by simp [Action.reduction?])
      | accept => exact absurd ha (by simp [Action.reduction?])
      | error => exact absurd ha (by simp [Action.reduction?])

/-- The gotos of a row are the moves over nonterminals. -/
theorem mem_gotos {a q : Nat} : (a, q) ∈ s.gotos ↔ (.nonterminal a, q) ∈ s.moves := by
  rw [gotos, List.mem_filterMap]
  constructor
  · rintro ⟨⟨x, target⟩, hmem, heq⟩
    cases x with
    | terminal t => exact absurd heq (by simp)
    | nonterminal b =>
      injection heq with heq
      injection heq with hb htarget
      subst hb htarget
      exact Array.mem_toList_iff.mp hmem
  · intro h
    exact ⟨(.nonterminal a, q), Array.mem_toList_iff.mpr h, rfl⟩

/-- Looking up a nonterminal gives where its move leads. -/
theorem lookup_gotos {a q : Nat} (h : (.nonterminal a, q) ∈ s.moves)
    (hunique : ∀ {q' : Nat}, (.nonterminal a, q') ∈ s.moves → q' = q) :
    s.gotos.lookup a = some q := by
  cases hlookup : s.gotos.lookup a with
  | none =>
    rw [List.lookup_eq_none_iff] at hlookup
    exact absurd rfl (bne_iff_ne.mp (hlookup _ (mem_gotos.mpr h)))
  | some q' =>
    obtain ⟨l, l', heq, -⟩ := List.lookup_eq_some_iff.mp hlookup
    have hmem : (a, q') ∈ s.gotos := by
      rw [heq]
      exact List.mem_append_right _ List.mem_cons_self
    rw [hunique (mem_gotos.mp hmem)]

end State

/-! ## All states

  Rows are listed in the order of the states, so the row of a state stands at its number. -/

namespace Decisions

variable {g : Grammar}

/-- Adds the decisions for one state. -/
def add (g : Grammar) (done : Decisions) (e : State × Nat) : Decisions where
  rows := done.rows.push (e.1.actionRow g e.2).1
  conflicts := done.conflicts ++ (e.1.actionRow g e.2).2

/-- The states are decided one by one. -/
theorem ofAutomaton_eq (g : Grammar) (automaton : Automaton) :
    ofAutomaton g automaton = automaton.states.toList.zipIdx.foldl (add g) ⟨#[], #[]⟩ := by
  rw [ofAutomaton, ← Array.foldl_toList, Array.toList_zipIdx]
  rfl

/-- Rows and conflicts are listed state by state. -/
theorem foldl_add (es : List (State × Nat)) (done : Decisions) :
    (es.foldl (add g) done).rows.toList =
        done.rows.toList ++ es.map (fun e => (e.1.actionRow g e.2).1) ∧
      (es.foldl (add g) done).conflicts.toList =
        done.conflicts.toList ++ es.flatMap fun e => (e.1.ballot g e.2).conflicts.toList := by
  induction es generalizing done with
  | nil => exact ⟨(List.append_nil _).symm, (List.append_nil _).symm⟩
  | cons e es ih =>
    obtain ⟨hrows, hconflicts⟩ := ih (add g done e)
    constructor
    · rw [List.foldl_cons, hrows, List.map_cons, add, Array.toList_push, List.append_assoc]
      rfl
    · rw [List.foldl_cons, hconflicts, List.flatMap_cons, add, Array.toList_append,
        List.append_assoc]
      rfl

/-- The conflicts are those of the states, one state after the other. -/
theorem conflicts_eq (g : Grammar) (automaton : Automaton) :
    (ofAutomaton g automaton).conflicts.toList =
      automaton.states.toList.zipIdx.flatMap fun e => (e.1.ballot g e.2).conflicts.toList := by
  rw [ofAutomaton_eq, (foldl_add _ _).2]
  rfl

/-- The row of a state stands at the state's place. -/
theorem rows_getElem? (g : Grammar) (automaton : Automaton) (i : Nat) :
    (ofAutomaton g automaton).rows[i]? =
      automaton.states[i]?.map fun s => (s.actionRow g i).1 := by
  have h := (foldl_add (g := g) automaton.states.toList.zipIdx ⟨#[], #[]⟩).1
  rw [← ofAutomaton_eq] at h
  rw [← Array.getElem?_toList, h, List.nil_append, List.getElem?_map, List.getElem?_zipIdx,
    Option.map_map, Array.getElem?_toList, Nat.zero_add]
  rfl

/-- There is a row for each state. -/
theorem size_rows (g : Grammar) (automaton : Automaton) :
    (ofAutomaton g automaton).rows.size = automaton.states.size := by
  have h := (foldl_add (g := g) automaton.states.toList.zipIdx ⟨#[], #[]⟩).1
  rw [← ofAutomaton_eq] at h
  have h := congrArg List.length h
  simpa using h

/-- What holds of the row of a state, and of no row, holds of each row. -/
theorem forall_rows {P : ActionRow → Prop} (hdefault : P default)
    (hrow : ∀ (s : State) (i : Nat), P (s.actionRow g i).1) (automaton : Automaton) (p : Nat) :
    P ((ofAutomaton g automaton).rows.getD p default) := by
  rw [Array.getD_eq_getD_getElem?, rows_getElem?]
  cases automaton.states[p]? with
  | none => exact hdefault
  | some s => exact hrow s p

/-- If no conflict was met, none was met in any state. -/
theorem ballot_conflicts {automaton : Automaton}
    (h : (ofAutomaton g automaton).conflicts = #[]) {i : Nat} {s : State}
    (hs : automaton.states[i]? = some s) : (s.ballot g i).conflicts = #[] := by
  have hall := conflicts_eq g automaton
  rw [h, eq_comm, List.flatMap_eq_nil_iff] at hall
  refine Array.toList_eq_nil_iff.mp (hall (s, i) ?_)
  exact List.mk_mem_zipIdx_iff_getElem?.mpr (by rw [Array.getElem?_toList]; exact hs)

end Decisions

end Lalr
