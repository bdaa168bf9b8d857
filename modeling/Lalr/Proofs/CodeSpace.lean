/-
  What the codes of actions stand for.

  All actions share one line of integers with two numbers that are no actions: `unexpectedRule`, the
  rule of an error, and `useDefault`, the code of no entry.  A code has to be read as what it was
  written for:

    1. an action means something to the machine (`Construction.meaning`), and its code is that of
       the meaning (`actionCode_eq_encode`);
    2. a meaning is read back from its code (`decode_actionCode`), but for the reduction by rule
       32767, which is read as an error (`Action.asRead`).

  So codes clash where the two numbers lie among the rules (`actionCode_eq_iff`), and nowhere else.
  With fewer than 32766 rules no action is by those rules.
-/
import Mathlib
import Lalr.Proofs.Contest
import Lalr.Proofs.Readback
import Lalr.Proofs.Repetition

namespace Lalr

/-! ## Reading rules

  The machine knows a rule by its number alone, and takes rule 32767 for an error.  What is said
  of actions and of their meanings comes down to that. -/

namespace Action

/-- What the machine takes a rule for. -/
def ofRule (rule : Int) : Action :=
  if rule = 0 then .accept else if rule = unexpectedRule then .error else .reduce rule.toNat

/-- The action that the machine takes an action for. -/
def asRead (a : Action) : Action :=
  if a = .reduce 32767 then .error else a

/-- The two actions that the machine cannot tell apart. -/
def Confused (a b : Action) : Prop :=
  (a = .reduce 32767 ∧ b = .error) ∨ (a = .error ∧ b = .reduce 32767)

theorem asRead_eq_iff {a b : Action} : a.asRead = b.asRead ↔ a = b ∨ Confused a b := by
  unfold asRead Confused
  split <;> split <;> simp_all [eq_comm]

theorem asRead_eq_self_iff {a : Action} : a.asRead = a ↔ a ≠ .reduce 32767 := by
  unfold asRead
  split <;> simp_all

/-- A rule is read as the fallback that it was written for. -/
theorem ofRule_fallbackRule {a : Action} (hshift : ∀ q, a ≠ .shift q) (hzero : a ≠ .reduce 0) :
    ofRule (Coding.fallbackRule a) = a.asRead := by
  cases a with
  | shift q => exact absurd rfl (hshift q)
  | accept => rfl
  | error => rfl
  | reduce r =>
    have hr : (r : Int) ≠ 0 := fun h => hzero (by rw [Int.natCast_eq_zero.mp h])
    show ofRule r = _
    rw [ofRule, if_neg hr, asRead]
    by_cases heq : r = 32767
    · rw [heq]
      rfl
    · have hne : (r : Int) ≠ unexpectedRule := fun h => heq (Int.ofNat_inj.mp h)
      rw [if_neg hne, if_neg fun h => heq (Action.reduce.inj h)]
      rfl

end Action

/-! ## Meanings

  The meaning of an action stands between the action and its code.  It forgets one thing on
  purpose: a shift into a leaf is the leaf's reduction, and the two have one code because they do
  the same. -/

/-- What an action means to the machine. -/
inductive Meaning where
  /-- shift, and decide in the state -/
  | enter (state : Nat)
  /-- shift, and at once do what the leaf does that was entered -/
  | pass (action : Action)
  /-- do not shift -/
  | stay (action : Action)
  deriving DecidableEq, Repr

/-- The meaning that the machine takes a meaning for. -/
def Meaning.asRead : Meaning → Meaning
  | enter s => enter s
  | pass a => pass a.asRead
  | stay a => stay a.asRead

theorem Meaning.asRead_eq_iff {m m' : Meaning} : m.asRead = m'.asRead ↔ m = m' ∨
    (∃ a b, m = .stay a ∧ m' = .stay b ∧ Action.Confused a b) ∨
      ∃ a b, m = .pass a ∧ m' = .pass b ∧ Action.Confused a b := by
  cases m <;> cases m' <;> simp [asRead, Action.asRead_eq_iff]

/-- It is read as what it is, unless it is to reduce by rule 32767. -/
theorem Meaning.asRead_eq_self_iff {m : Meaning} :
    m.asRead = m ↔ m ≠ .pass (.reduce 32767) ∧ m ≠ .stay (.reduce 32767) := by
  cases m with
  | enter s => simp [asRead]
  | pass a => simp [asRead, Action.asRead_eq_self_iff]
  | stay a => simp [asRead, Action.asRead_eq_self_iff]

namespace Construction

/-- What an action means: a shift into a leaf is the leaf's reduction. -/
def meaning (c : Construction) : Action → Meaning
  | .shift q => if c.isLeaf q then .pass (c.coding.row q).fallback else .enter q
  | action => .stay action

/-- The code of a meaning. -/
def encode (c : Construction) : Meaning → Int
  | .enter s => c.number s
  | .pass a => c.table.nonLeafCount + Coding.fallbackRule a
  | .stay a => -Coding.fallbackRule a

/-- The meaning of a code. -/
def decode (c : Construction) (code : Int) : Meaning :=
  if 0 < code then
    if code < c.table.nonLeafCount then .enter (c.coding.numbering.order.getD code.toNat 0)
    else .pass (.ofRule (code - c.table.nonLeafCount))
  else .stay (.ofRule (-code))

/-- The meaning of an action that does not shift is the action. -/
theorem eq_of_meaning_stay {c : Construction} {a b : Action} (hm : c.meaning a = .stay b) :
    a = b := by
  cases a with
  | shift q =>
    rw [meaning] at hm
    split at hm <;> exact absurd hm (by simp)
  | reduce r => exact Meaning.stay.inj hm
  | accept => exact Meaning.stay.inj hm
  | error => exact Meaning.stay.inj hm

/-- Some state has the action on some terminal, other than by its fallback. -/
def IsEntry (c : Construction) (a : Action) : Prop :=
  ∃ (p t : Nat) (row : ActionRow), c.decisions.rows[p]? = some row ∧ row.actions.lookup t = some a

/-- The action is some state's fallback. -/
def IsFallback (c : Construction) (a : Action) : Prop :=
  ∃ (p : Nat) (row : ActionRow), c.decisions.rows[p]? = some row ∧ row.fallback = a

/-- The action was decided, in some state. -/
def IsDecided (c : Construction) (a : Action) : Prop :=
  c.IsEntry a ∨ c.IsFallback a

variable {d : Declarations} {settings : Settings} {c : Construction}

section

variable (h : d.build settings = .ok c)
include h

/-- The rows are those of the automaton's states. -/
theorem row_of_getElem? {p : Nat} {row : ActionRow} (hrow : c.decisions.rows[p]? = some row) :
    p < c.automaton.states.size ∧ c.coding.row p = row := by
  obtain ⟨hp, -⟩ := Array.getElem?_eq_some_iff.mp hrow
  refine ⟨by rwa [size_rows h] at hp, ?_⟩
  show c.decisions.rows.getD p default = row
  rw [Array.getD_eq_getD_getElem?, hrow]
  rfl

theorem getElem?_rows {p : Nat} (hp : p < c.automaton.states.size) :
    c.decisions.rows[p]? = some (c.coding.row p) := by
  have hp' : p < c.decisions.rows.size := by rwa [size_rows h]
  show _ = some (c.decisions.rows.getD p default)
  rw [Array.getD_eq_getD_getElem?, Array.getElem?_eq_getElem hp']
  rfl

/-- The default rule of a state is that of its fallback. -/
theorem defaultRule_number_eq {p : Nat} (hp : p < c.automaton.states.size) :
    c.table.defaultRule (c.number p) = .ok (Coding.fallbackRule (c.coding.row p).fallback) := by
  rw [table_eq h]
  exact Encoded.defaultRule_number c.grammar settings.defaultText (by rwa [size_rows h])

/-- What a row says was decided. -/
theorem isDecided_action {p : Nat} (hp : p < c.automaton.states.size) (t : Nat) :
    c.IsDecided ((c.coding.row p).action t) := by
  rw [ActionRow.action]
  cases hlookup : (c.coding.row p).actions.lookup t with
  | some a => exact Or.inl ⟨p, t, _, getElem?_rows h hp, hlookup⟩
  | none => exact Or.inr ⟨p, _, getElem?_rows h hp, rfl⟩

/-- An entry is allowed in the state that has it. -/
theorem IsEntry.allowed {a : Action} (ha : c.IsEntry a) : ∃ p t, p < c.automaton.states.size ∧
    Ballot.Allowed c.grammar (c.automaton.state p) t a := by
  obtain ⟨p, t, row, hrow, hlookup⟩ := ha
  obtain ⟨hp, rfl⟩ := row_of_getElem? h hrow
  exact ⟨p, t, hp, allowed_of_lookup h hp hlookup⟩

/-- No fallback is a shift, and none is by rule 0. -/
theorem IsFallback.ne {a : Action} (ha : c.IsFallback a) : (∀ q, a ≠ .shift q) ∧ a ≠ .reduce 0 := by
  obtain ⟨p, row, hrow, rfl⟩ := ha
  obtain ⟨hp, rfl⟩ := row_of_getElem? h hrow
  refine ⟨fallback_ne_shift h hp, fun hzero => ?_⟩
  rw [row_eq h hp] at hzero
  rcases (c.automaton.state p).fallback_cases c.grammar p with
    ⟨-, hfall⟩ | ⟨-, r, hfall, hne, -⟩ | ⟨-, hfall⟩ <;> rw [hfall] at hzero
  · exact absurd hzero (by simp)
  · exact hne (Action.reduce.inj hzero)
  · exact absurd hzero (by simp)

/-- A shift is into a state other than the first. -/
theorem IsDecided.shift {q : Nat} (ha : c.IsDecided (.shift q)) :
    q < c.automaton.states.size ∧ 0 < q := by
  rcases ha with ha | ha
  · obtain ⟨p, t, -, hmove⟩ := ha.allowed h
    have hw := (automaton_inv h).sound
    exact ⟨hw.edge_lt hmove, hw.edge_pos hmove⟩
  · exact absurd rfl ((ha.ne h).1 q)

/-- A reduction is by a rule of the grammar, and not by rule 0. -/
theorem IsDecided.reduce {r : Nat} (ha : c.IsDecided (.reduce r)) :
    r ≠ 0 ∧ r < c.grammar.rules.size := by
  rcases ha with ha | ⟨p, row, hrow, hfall⟩
  · obtain ⟨p, t, hp, hne, hr⟩ := ha.allowed h
    exact ⟨hne, rule_lt_of_completes h hp hr⟩
  · obtain ⟨hp, rfl⟩ := row_of_getElem? h hrow
    rw [row_eq h hp] at hfall
    rcases (c.automaton.state p).fallback_cases c.grammar p with
      ⟨-, hf⟩ | ⟨-, r', hf, hne, hr⟩ | ⟨-, hf⟩ <;> rw [hf] at hfall
    · exact absurd hfall (by simp)
    · obtain rfl := Action.reduce.inj hfall
      exact ⟨hne, rule_lt_of_completes h hp hr⟩
    · exact absurd hfall (by simp)

/-- A leaf reduces, or it accepts. -/
theorem fallback_of_leaf {q : Nat} (hq : q < c.automaton.states.size) (hleaf : c.isLeaf q = true) :
    c.IsFallback (c.coding.row q).fallback ∧ (c.coding.row q).fallback ≠ .error := by
  refine ⟨⟨q, _, getElem?_rows h hq, rfl⟩, fun herror => ?_⟩
  rw [isLeaf, Numbering.isLeaf, Bool.and_eq_true] at hleaf
  have hrow : (c.coding.row q).isLeaf = true := hleaf.2
  rw [ActionRow.isLeaf, herror, Bool.and_false] at hrow
  exact absurd hrow (by decide)

/-! ## There and back

  Coding and reading cancel out for all meanings but one.  So two codes agree where two meanings
  are read alike, which is put down for entries, for fallbacks and for the code of no entry. -/

variable {a b : Action}

/-- The code of an action is that of its meaning. -/
theorem actionCode_eq_encode (ha : c.IsDecided a) :
    c.coding.actionCode a = c.encode (c.meaning a) := by
  cases a with
  | shift q =>
    obtain ⟨hq, -⟩ := ha.shift h
    cases hleaf : c.isLeaf q with
    | true =>
      rw [meaning, if_pos hleaf]
      exact stateCode_of_leaf h hq hleaf
    | false =>
      rw [meaning, if_neg (by rw [hleaf]; decide)]
      exact (stateCode_of_not_leaf h hq hleaf).1
  | reduce r => rfl
  | accept => rfl
  | error => rfl

/-- A code is read as the action's meaning, but for rule 32767. -/
theorem decode_actionCode (ha : c.IsDecided a) :
    c.decode (c.coding.actionCode a) = (c.meaning a).asRead := by
  -- what does not shift is coded by the negative number of its rule
  have hstay : ∀ {a : Action}, (∀ q, a ≠ .shift q) → a ≠ .reduce 0 →
      c.decode (-Coding.fallbackRule a) = .stay a.asRead := by
    intro a hshift hzero
    have hnonneg : 0 ≤ Coding.fallbackRule a := by
      cases a with
      | shift q => exact absurd rfl (hshift q)
      | reduce r => exact Int.natCast_nonneg r
      | accept => exact Int.le_refl 0
      | error => decide
    rw [decode, if_neg (by omega), Int.neg_neg, Action.ofRule_fallbackRule hshift hzero]
  cases a with
  | shift q =>
    obtain ⟨hq, hpos⟩ := ha.shift h
    have hcode := stateCode_pos h hq hpos
    show c.decode (c.coding.stateCode q) = _
    cases hleaf : c.isLeaf q with
    | true =>
      obtain ⟨hshift, hzero⟩ := (fallback_of_leaf h hq hleaf).1.ne h
      have hnonneg := (reduction_fallback h hq).nonneg
      rw [meaning, if_pos hleaf, decode, if_pos hcode, stateCode_of_leaf h hq hleaf,
        if_neg (by omega), add_sub_cancel_left, Action.ofRule_fallbackRule hshift hzero]
      rfl
    | false =>
      obtain ⟨hnumber, hlt⟩ := stateCode_of_not_leaf h hq hleaf
      rw [meaning, if_neg (by rw [hleaf]; decide), decode, if_pos hcode, if_pos hlt, hnumber,
        Int.toNat_natCast, List.getD_eq_getElem?_getD]
      rw [show c.coding.numbering = Numbering.ofRows c.decisions.rows from rfl,
        Numbering.order_number (by rwa [size_rows h])]
      rfl
  | reduce r =>
    have hne := (ha.reduce h).1
    exact hstay (by simp) fun hzero => hne (Action.reduce.inj hzero)
  | accept => exact hstay (a := .accept) (by simp) (by simp)
  | error => exact hstay (a := .error) (by simp) (by simp)

/-- No shift passes into an error. -/
theorem meaning_ne_pass_error (ha : c.IsDecided a) : c.meaning a ≠ .pass .error := by
  intro hm
  cases a with
  | shift q =>
    cases hleaf : c.isLeaf q with
    | true =>
      rw [meaning, if_pos hleaf] at hm
      exact (fallback_of_leaf h (ha.shift h).1 hleaf).2 (Meaning.pass.inj hm)
    | false =>
      rw [meaning, if_neg (by rw [hleaf]; decide)] at hm
      exact absurd hm (by simp)
  | reduce r => exact absurd hm (by simp [meaning])
  | accept => exact absurd hm (by simp [meaning])
  | error => exact absurd hm (by simp [meaning])

/-- Two actions have one code exactly if they mean the same, or are an error and the reduction by
    rule
    32767. -/
theorem actionCode_eq_iff (ha : c.IsDecided a) (hb : c.IsDecided b) :
    c.coding.actionCode a = c.coding.actionCode b ↔
      c.meaning a = c.meaning b ∨ Action.Confused a b := by
  constructor
  · intro hcode
    have hread : (c.meaning a).asRead = (c.meaning b).asRead := by
      rw [← decode_actionCode h ha, ← decode_actionCode h hb, hcode]
    rcases Meaning.asRead_eq_iff.mp hread with
      heq | ⟨x, y, hx, hy, hconfused⟩ | ⟨x, y, hx, hy, ⟨-, rfl⟩ | ⟨rfl, -⟩⟩
    · exact Or.inl heq
    · rw [eq_of_meaning_stay hx, eq_of_meaning_stay hy]
      exact Or.inr hconfused
    · exact absurd hy (meaning_ne_pass_error h hb)
    · exact absurd hx (meaning_ne_pass_error h ha)
  · rintro (heq | ⟨rfl, rfl⟩ | ⟨rfl, rfl⟩)
    · rw [actionCode_eq_encode h ha, actionCode_eq_encode h hb, heq]
    · rfl
    · rfl

/-- Of two fallbacks likewise. -/
theorem fallbackRule_eq_iff (ha : c.IsFallback a) (hb : c.IsFallback b) :
    Coding.fallbackRule a = Coding.fallbackRule b ↔ a = b ∨ Action.Confused a b := by
  obtain ⟨hashift, hazero⟩ := ha.ne h
  obtain ⟨hbshift, hbzero⟩ := hb.ne h
  constructor
  · intro hrule
    rw [← Action.asRead_eq_iff, ← Action.ofRule_fallbackRule hashift hazero,
      ← Action.ofRule_fallbackRule hbshift hbzero, hrule]
  · rintro (rfl | ⟨rfl, rfl⟩ | ⟨rfl, rfl⟩) <;> rfl

/-- The code of an entry is the one that stands for no entry exactly if it reduces by rule 32766. -/
theorem actionCode_eq_useDefault_iff (ha : c.IsEntry a) :
    c.coding.actionCode a = useDefault ↔ a = .reduce 32766 := by
  have hdecided : c.IsDecided a := Or.inl ha
  cases a with
  | shift q =>
    obtain ⟨hq, hpos⟩ := hdecided.shift h
    have hcode := stateCode_pos h hq hpos
    refine iff_of_false (fun heq => ?_) (by simp)
    rw [show c.coding.stateCode q = useDefault from heq] at hcode
    exact absurd hcode (by decide)
  | reduce r =>
    rw [Action.reduce.injEq]
    show -(r : Int) = -32766 ↔ _
    omega
  | accept => exact iff_of_false (show (0 : Int) ≠ useDefault by decide) (by simp)
  | error => exact iff_of_false (show -unexpectedRule ≠ useDefault by decide) (by simp)

end

/-- The table holds the entries of the row, without those by rule 32766. -/
theorem explicitAction_number_filter (h : d.build settings = .ok c) {p : Nat} {row : ActionRow}
    (hrow : c.decisions.rows[p]? = some row) (hleaf : c.isLeaf p = false) (t : Nat) :
    c.table.explicitAction (c.number p) t =
      .ok (((row.actions.lookup t).filter (· ≠ .reduce 32766)).map c.coding.actionCode) := by
  obtain ⟨hp, rfl⟩ := row_of_getElem? h hrow
  have hentry := explicitAction_eq h hp hleaf t
  rw [code_of_not_leaf h hp hleaf] at hentry
  rw [number, hentry]
  cases hlookup : (c.coding.row p).actions.lookup t with
  | none => rfl
  | some a =>
    have hiff := actionCode_eq_useDefault_iff h ⟨p, t, _, hrow, hlookup⟩
    rw [Option.map_some, Option.filter_some, Option.filter_some]
    by_cases heq : a = .reduce 32766
    · rw [if_neg (by simpa using hiff.mpr heq), if_neg (by simpa using heq)]
      rfl
    · rw [if_pos (by simpa using fun hcode => heq (hiff.mp hcode)), if_pos (by simpa using heq)]
      rfl

/-- The codes of actions are told apart, but for the rules whose numbers stand for something else.

    Two actions that were decided have one code exactly if they mean the same, or are an error and
    the reduction by rule 32767; for fallbacks it is the same.  An entry has the code of no entry
    exactly if it reduces by rule 32766, and all other entries are in the table.  What was decided
    is read back from its code exactly if it does not reduce by rule 32767.  All these rules are
    declared ones, so nothing of this is met with fewer than 32766. -/
theorem code_space (h : d.build settings = .ok c) :
    (∀ a b, c.IsDecided a → c.IsDecided b →
      (c.coding.actionCode a = c.coding.actionCode b ↔
        c.meaning a = c.meaning b ∨ Action.Confused a b)) ∧
    (∀ a b, c.IsFallback a → c.IsFallback b →
      (Coding.fallbackRule a = Coding.fallbackRule b ↔ a = b ∨ Action.Confused a b)) ∧
    (∀ a, c.IsEntry a → (c.coding.actionCode a = useDefault ↔ a = .reduce 32766)) ∧
    (∀ p row, c.decisions.rows[p]? = some row →
      (c.isLeaf p = false → ∀ t : Nat, c.table.explicitAction (c.number p) t =
        .ok (((row.actions.lookup t).filter (· ≠ .reduce 32766)).map c.coding.actionCode)) ∧
      c.table.defaultRule (c.number p) = .ok (Coding.fallbackRule row.fallback)) ∧
    (∀ a, c.IsDecided a → (c.decode (c.coding.actionCode a) = c.meaning a ↔
      c.meaning a ≠ .pass (.reduce 32767) ∧ c.meaning a ≠ .stay (.reduce 32767))) ∧
    (∀ a, c.IsFallback a → (Action.ofRule (Coding.fallbackRule a) = a ↔ a ≠ .reduce 32767)) ∧
    ∀ r, c.IsDecided (.reduce r) → 0 < r ∧ r ≤ d.rules.size := by
  refine ⟨fun a b ha hb => actionCode_eq_iff h ha hb, fun a b ha hb => fallbackRule_eq_iff h ha hb,
    fun a ha => actionCode_eq_useDefault_iff h ha, fun p row hrow => ⟨fun hleaf t => ?_, ?_⟩,
    fun a ha => ?_, fun a ha => ?_, fun r hr => ?_⟩
  · exact explicitAction_number_filter h hrow hleaf t
  · obtain ⟨hp, rfl⟩ := row_of_getElem? h hrow
    exact defaultRule_number_eq h hp
  · rw [decode_actionCode h ha, Meaning.asRead_eq_self_iff]
  · obtain ⟨hshift, hzero⟩ := ha.ne h
    rw [Action.ofRule_fallbackRule hshift hzero, Action.asRead_eq_self_iff]
  -- what is decided is not the added rule, and it is a rule of the grammar
  · obtain ⟨hne, hlt⟩ := hr.reduce h
    rw [(Declarations.build_spec h).1.size_rules] at hlt
    omega

/-- The theorem for sums: the shift of an identifier, which passes into the reduction by rule 3, is
    told apart from that reduction and read back. -/
theorem code_space_sums : ∃ c, sums.build = .ok c ∧ c.IsDecided (.shift 3) ∧
    c.IsFallback (.reduce 3) ∧ c.IsFallback .error ∧
    c.coding.actionCode (.shift 3) ≠ c.coding.actionCode (.reduce 3) ∧
    Coding.fallbackRule (.reduce 3) ≠ Coding.fallbackRule .error ∧
    c.coding.actionCode (.shift 3) ≠ useDefault ∧
    c.decode (c.coding.actionCode (.shift 3)) = .pass (.reduce 3) := by
  have hmeaning : (ofGrammar {} sumsGrammar).meaning (.shift 3) = .pass (.reduce 3) := by
    rw [meaning, isLeaf, coding, sums_rows]
    rfl
  have hentry : (ofGrammar {} sumsGrammar).IsEntry (.shift 3) :=
    ⟨0, 1, _, by rw [sums_rows]; rfl, rfl⟩
  have hreduce : (ofGrammar {} sumsGrammar).IsFallback (.reduce 3) :=
    ⟨3, _, by rw [sums_rows]; rfl, rfl⟩
  have herror : (ofGrammar {} sumsGrammar).IsFallback .error :=
    ⟨0, _, by rw [sums_rows]; rfl, rfl⟩
  obtain ⟨hcodes, hrules, hdefault, -, hread, -⟩ := code_space sums_build
  refine ⟨_, sums_build, Or.inl hentry, hreduce, herror, fun heq => ?_, fun heq => ?_,
    fun heq => ?_, ?_⟩
  · rcases (hcodes _ _ (Or.inl hentry) (Or.inr hreduce)).mp heq with hsame | hconfused
    · rw [hmeaning] at hsame
      exact absurd hsame (by simp [meaning])
    · exact absurd hconfused (by simp [Action.Confused])
  · rcases (hrules _ _ hreduce herror).mp heq with hsame | hconfused
    · exact absurd hsame (by simp)
    · exact absurd hconfused (by simp [Action.Confused])
  · exact absurd ((hdefault _ hentry).mp heq) (by simp)
  · rw [← hmeaning]
    exact (hread _ (Or.inl hentry)).mpr ⟨by rw [hmeaning]; simp, by rw [hmeaning]; simp⟩

section

variable {n x x' : Nat}

/-- With the rule `D : 'd'` any number of times, the rule behind them is decided: the state behind
    its terminal has nothing else. -/
theorem isDecided_last (h : d.build settings = .ok c) (hg : IsRepeated "S" n c.grammar x x') :
    c.IsDecided (.reduce (n + 1)) := by
  have hw := automaton_inv h
  have hlast : n + 1 < c.grammar.rules.size := by
    rw [hg.size]
    exact Nat.lt_succ_self _
  obtain ⟨q, he⟩ := hg.exists_edge hw hw.sound.pos hlast hg.lhs_last hg.rhs_last
  have hq := hw.sound.edge_lt he
  have hon : (c.automaton.state q).CompletesOn c.grammar (n + 1) 0 :=
    hg.completesOn_last hw hw.sound.pos List.not_mem_nil rfl he
  have honly : ∀ {core}, (c.automaton.state q).Has core → core = ⟨n + 1, 1⟩ :=
    (hg.has_last hw.sound rfl he).mp
  have hnone : ∀ y t, (y, t) ∉ (c.automaton.state q).moves := by
    intro y t hmove
    obtain ⟨b, hb, hnext⟩ := hw.sound.exists_next hmove
    rw [honly hb, Core.next?, Core.afterDot_eq, hg.rhs_last] at hnext
    exact absurd hnext (by simp)
  have ht : 0 < c.grammar.terminalCount := by
    obtain ⟨core, hlook, -⟩ := hon
    exact (hw.sound.closed hq).look_lt (wellFormed h) hlook
  -- something is decided before the end of input, and the state allows this only
  obtain ⟨a, ha⟩ := Ballot.contest_decides_of_mem (g := c.grammar) (t := 0)
    (((c.automaton.state q).shifts c.grammar).getD 0 none)
    (State.mem_rivals.mpr ⟨Nat.succ_ne_zero n, hon⟩)
  rw [← (State.ballot_on q ht).1] at ha
  have hreduce : a = .reduce (n + 1) := by
    have hallowed := (c.automaton.state q).ballot_sound c.grammar q ha
    cases a with
    | shift p => exact absurd hallowed (hnone _ _)
    | reduce r =>
      obtain ⟨-, core, hcore, hrule, -⟩ := hallowed
      rw [← hrule, honly hcore]
    | accept => exact hallowed.elim
    | error =>
      obtain ⟨p, hp⟩ := hallowed
      exact absurd hp (hnone _ _)
  rw [← hreduce, ← State.action_of_decided ha, ← row_eq h hq]
  exact isDecided_action h hq 0

/-- State 0 reduces nothing, so its default is an error. -/
theorem isFallback_error (h : d.build settings = .ok c) (hg : IsRepeated "S" n c.grammar x x') :
    c.IsFallback .error := by
  have hw := automaton_inv h
  refine ⟨0, _, getElem?_rows h hw.sound.pos, ?_⟩
  rw [row_eq h hw.sound.pos]
  rcases (c.automaton.state 0).fallback_cases c.grammar 0 with
    ⟨hzero, -⟩ | ⟨-, r, -, -, hr⟩ | ⟨-, hfall⟩
  · exact absurd hzero (hg.not_completes_start hw.sound)
  · exact absurd hr (hg.not_completes_start hw.sound)
  · exact hfall

end

/-- With 32767 rules the last one has the code of an error. -/
theorem code_space_repeated : ∃ c, (Declarations.repeated "S" 32766).build = .ok c ∧
    c.IsDecided (.reduce 32767) ∧ c.IsDecided .error ∧
    c.meaning (.reduce 32767) ≠ c.meaning .error ∧
    c.coding.actionCode (.reduce 32767) = c.coding.actionCode .error := by
  have hn : 0 < 32766 := by decide
  obtain ⟨c, hc⟩ := Declarations.exists_build_repeated hn (Or.inr rfl)
  obtain ⟨d, x, hg⟩ := Declarations.isRepeated hn (Declarations.build_spec hc).1
  exact ⟨c, hc, isDecided_last hc hg, Or.inr (isFallback_error hc hg), by simp [meaning], rfl⟩

end Construction

end Lalr
