/-
  The contest for one terminal.

  A ballot takes its offers in turn, on all terminals.  Seen from one terminal it is a contest: the
  rules that are offered there come one after the other, the lowest first, and meet what was decided
  before (`Ballot.foldl_offer_on`).  How a contest ends can be said at once:

    1. Where nothing is shifted, the lowest rule wins, and every other rule is reported
       (`Ballot.contest_none`).
    2. Where there is a shift, it stands until a rule comes that outranks it.  The rules before that
       one lose to the shift, and those that precedence cannot settle are reported.  The rule that
       outranks it wins, and every rule after it is reported; but if it only ties, on a terminal
       that does not group, the terminal is an error from then on, and nothing is reported any more
       (`Ballot.contest_shift`).
-/
import Mathlib
import Lalr.Proofs.Decision
import Lalr.Proofs.Path

namespace Lalr

/-! ## Precedence

  Everything about levels that a contest depends on is put in two words: a rule outranks the
  shift, or ties with it.  The numbers of levels do not come up again. -/

namespace Grammar

variable {g : Grammar} {r t : Nat} {rs : List Nat}

/-- The rule and the terminal both have a level. -/
def Ranked (g : Grammar) (r t : Nat) : Prop :=
  (g.rule r).level.isSome = true ∧ (g.alphabet.binding t).isSome = true

instance (g : Grammar) (r t : Nat) : Decidable (g.Ranked r t) :=
  inferInstanceAs (Decidable (_ ∧ _))

/-- Precedence takes the shift on the terminal away: the level of the rule is the higher one, or the
    levels are equal and the terminal does not group to the right. -/
def Outranks (g : Grammar) (r t : Nat) : Prop :=
  ∃ level binding, (g.rule r).level = some level ∧ g.alphabet.binding t = some binding ∧
    (binding.level < level ∨ (binding.level = level ∧ binding.assoc ≠ .right))

/-- The levels are equal, and the terminal does not group. -/
def Ties (g : Grammar) (r t : Nat) : Prop :=
  ∃ binding, (g.rule r).level = some binding.level ∧ g.alphabet.binding t = some binding ∧
    binding.assoc = .nonassoc

/-- Of the rules `rs`, rule `r` is the lowest that outranks the shift on the terminal. -/
structure FirstOutranks (g : Grammar) (rs : List Nat) (r t : Nat) : Prop where
  mem : r ∈ rs
  outranks : g.Outranks r t
  le : ∀ r' ∈ rs, g.Outranks r' t → r ≤ r'

/-- A rule that outranks the shift has a level to do so. -/
theorem Outranks.ranked (h : g.Outranks r t) : g.Ranked r t := by
  obtain ⟨level, binding, hlevel, hbinding, -⟩ := h
  exact ⟨by rw [hlevel]; rfl, by rw [hbinding]; rfl⟩

/-- A tie that is grouped from neither side takes the shift away as well. -/
theorem Ties.outranks (h : g.Ties r t) : g.Outranks r t := by
  obtain ⟨binding, hlevel, hbinding, hassoc⟩ := h
  exact ⟨_, binding, hlevel, hbinding, Or.inr ⟨rfl, by rw [hassoc]; decide⟩⟩

/-- If the rule in front outranks the shift, it is the first one. -/
theorem FirstOutranks.head (h : (r :: rs).Pairwise (· < ·)) (hwins : g.Outranks r t) :
    g.FirstOutranks (r :: rs) r t := by
  refine ⟨List.mem_cons_self, hwins, fun r' hr' _ => ?_⟩
  rcases List.mem_cons.mp hr' with rfl | hr'
  · exact Nat.le_refl _
  · exact Nat.le_of_lt ((List.pairwise_cons.mp h).1 r' hr')

/-- If it does not, the first one is behind it. -/
theorem FirstOutranks.behind {first : Nat} (hstays : ¬ g.Outranks r t)
    (h : g.FirstOutranks rs first t) : g.FirstOutranks (r :: rs) first t := by
  refine ⟨List.mem_cons_of_mem _ h.mem, h.outranks, fun r' hr' hwins => ?_⟩
  rcases List.mem_cons.mp hr' with rfl | hr'
  · exact absurd hwins hstays
  · exact h.le r' hr' hwins

/-- There is one first. -/
theorem FirstOutranks.unique {r' : Nat} (h : g.FirstOutranks rs r t)
    (h' : g.FirstOutranks rs r' t) : r = r' :=
  Nat.le_antisymm (h.le r' h'.mem h'.outranks) (h'.le r h.mem h.outranks)

end Grammar

/-- How a shift and a reduction are settled: by the shift, with a report if a level is missing, or
    by the rule that outranks it, which is an error if the two only tie. -/
theorem settleShift_spec (g : Grammar) (existing : Action) (r t : Nat) :
    (¬ g.Ranked r t ∧ settleShift g existing r t = (existing, some .shiftReduce)) ∨
      (g.Ranked r t ∧ ¬ g.Outranks r t ∧ settleShift g existing r t = (existing, none)) ∨
      (g.Ties r t ∧ settleShift g existing r t = (.error, none)) ∨
      (g.Outranks r t ∧ ¬ g.Ties r t ∧ settleShift g existing r t = (.reduce r, none)) := by
  unfold settleShift
  cases hlevel : (g.rule r).level with
  | none => exact Or.inl ⟨fun h => by simp [Grammar.Ranked, hlevel] at h, rfl⟩
  | some level =>
    cases hbinding : g.alphabet.binding t with
    | none => exact Or.inl ⟨fun h => by simp [Grammar.Ranked, hbinding] at h, rfl⟩
    | some binding =>
      have hranked : g.Ranked r t := ⟨by rw [hlevel]; rfl, by rw [hbinding]; rfl⟩
      have houtranks : g.Outranks r t ↔
          binding.level < level ∨ (binding.level = level ∧ binding.assoc ≠ .right) := by
        simp [Grammar.Outranks, hlevel, hbinding]
      have hties : g.Ties r t ↔ binding.level = level ∧ binding.assoc = .nonassoc := by
        simp [Grammar.Ties, hlevel, hbinding, eq_comm]
      simp only
      -- the levels decide, and only between equal ones the grouping of the terminal
      rcases Nat.lt_trichotomy binding.level level with hlt | heq | hgt
      · rw [if_pos hlt]
        exact Or.inr (Or.inr (Or.inr ⟨houtranks.mpr (Or.inl hlt),
          fun h => Nat.ne_of_lt hlt (hties.mp h).1, rfl⟩))
      · rw [if_neg (by omega), if_neg (by omega)]
        cases hassoc : binding.assoc with
        | left =>
          exact Or.inr (Or.inr (Or.inr ⟨houtranks.mpr (Or.inr ⟨heq, by rw [hassoc]; decide⟩),
            fun h => by rw [hassoc] at hties; exact absurd (hties.mp h).2 (by decide), rfl⟩))
        | right =>
          refine Or.inr (Or.inl ⟨hranked, fun h => ?_, rfl⟩)
          rcases houtranks.mp h with hlt | ⟨-, hne⟩
          · omega
          · exact hne hassoc
        | nonassoc => exact Or.inr (Or.inr (Or.inl ⟨hties.mpr ⟨heq, hassoc⟩, rfl⟩))
      · rw [if_neg (by omega), if_pos hgt]
        refine Or.inr (Or.inl ⟨hranked, fun h => ?_, rfl⟩)
        rcases houtranks.mp h with hlt | ⟨heq, -⟩ <;> omega

/-! ## The contest

  A contest is a fold over the rules.  What it ends in depends on what stands there: nothing, a
  shift, an error, or a lower rule.  The last two never change, so only a shift has to be
  followed further. -/

namespace Ballot

variable {g : Grammar} {s : State} {b : Ballot} {i t : Nat} {rs : List Nat}

/-- What is decided on terminal `t` when the rules come one after the other, and what is reported on
    the way: the kinds of conflict and the rules that are dropped. -/
def contest (g : Grammar) (t : Nat) :
    Option Action → List Nat → Option Action × List (Conflict.Kind × Nat)
  | found, [] => (found, [])
  | none, r :: rs => contest g t (some (.reduce r)) rs
  | some existing, r :: rs =>
    let met := settle g existing r t
    let rest := contest g t (some met.1) rs
    (rest.1, met.2.toList ++ rest.2)

/-- What is decided may change, but the terminal stays decided. -/
theorem contest_decides (found : Action) :
    ∃ action, (contest g t (some found) rs).1 = some action := by
  induction rs generalizing found with
  | nil => exact ⟨found, rfl⟩
  | cons r rs ih => exact ih (settle g found r t).1

/-- Where a rule is offered, something is decided. -/
theorem contest_decides_of_mem (found : Option Action) {r : Nat} (hr : r ∈ rs) :
    ∃ action, (contest g t found rs).1 = some action := by
  cases found with
  | some found => exact contest_decides found
  | none =>
    cases rs with
    | nil => exact absurd hr List.not_mem_nil
    | cons r' rs => exact contest_decides (.reduce r')

/-- An error stays, and nothing is reported against it. -/
theorem contest_error : contest g t (some .error) rs = (some .error, []) := by
  induction rs with
  | nil => rfl
  | cons r rs ih =>
    rw [contest]
    simp only [settle]
    rw [ih]
    rfl

/-- The lower rule stays, and all that come after it are reported. -/
theorem contest_reduce {kept : Nat} (h : ∀ r ∈ rs, kept < r) :
    contest g t (some (.reduce kept)) rs =
      (some (.reduce kept), rs.map (Conflict.Kind.reduceReduce, ·)) := by
  induction rs with
  | nil => rfl
  | cons r rs ih =>
    have hlt := h r List.mem_cons_self
    rw [contest]
    simp only [settle]
    rw [Nat.min_eq_left (Nat.le_of_lt hlt), Nat.max_eq_right (Nat.le_of_lt hlt),
      ih fun r' hr' => h r' (List.mem_cons_of_mem _ hr')]
    rfl

/-- Where nothing is shifted, the first rule wins. -/
theorem contest_none {r : Nat} (h : (r :: rs).Pairwise (· < ·)) :
    contest g t none (r :: rs) =
      (some (.reduce r), rs.map (Conflict.Kind.reduceReduce, ·)) := by
  rw [contest]
  exact contest_reduce (List.pairwise_cons.mp h).1

/-- The rules that lose to a shift and are reported: those that precedence cannot settle. -/
def shiftReports (g : Grammar) (t : Nat) (rs : List Nat) : List (Conflict.Kind × Nat) :=
  (rs.filter fun r => ¬ g.Ranked r t).map (Conflict.Kind.shiftReduce, ·)

/-- Reports come rule by rule. -/
theorem shiftReports_cons (g : Grammar) (t r : Nat) (rs : List Nat) :
    shiftReports g t (r :: rs) = shiftReports g t [r] ++ shiftReports g t rs := by
  rw [shiftReports, ← List.singleton_append, List.filter_append, List.map_append]
  rfl

/-- Against a shift those rules are reported that precedence does not settle. -/
theorem mem_shiftReports {kind : Conflict.Kind} {r : Nat} :
    (kind, r) ∈ shiftReports g t rs ↔ kind = .shiftReduce ∧ r ∈ rs ∧ ¬ g.Ranked r t := by
  rw [shiftReports, List.mem_map]
  constructor
  · rintro ⟨r', hr', heq⟩
    injection heq with hkind hrule
    subst hkind hrule
    obtain ⟨hmem, hranked⟩ := List.mem_filter.mp hr'
    exact ⟨rfl, hmem, by simpa using hranked⟩
  · rintro ⟨rfl, hmem, hranked⟩
    exact ⟨r, List.mem_filter.mpr ⟨hmem, by simpa using hranked⟩, rfl⟩

/-- A rule that does not outrank the shift leaves it where it is. -/
theorem contest_stays {r : Nat} (q : Nat) (h : ¬ g.Outranks r t) (rs : List Nat) :
    contest g t (some (.shift q)) (r :: rs) = ((contest g t (some (.shift q)) rs).1,
      shiftReports g t [r] ++ (contest g t (some (.shift q)) rs).2) := by
  rw [contest]
  rcases settleShift_spec g (.shift q) r t with
    ⟨hranked, heq⟩ | ⟨hranked, -, heq⟩ | ⟨hties, -⟩ | ⟨hwins, -, -⟩
  · simp only [settle, heq]
    rw [shiftReports, List.filter_cons_of_pos (by simpa using hranked)]
    rfl
  · simp only [settle, heq]
    rw [shiftReports, List.filter_cons_of_neg (by simpa using hranked)]
    rfl
  · exact absurd hties.outranks h
  · exact absurd hwins h

/-- The rule in front outranks the shift, and all that come after it meet what it leaves. -/
theorem contest_outranked {r : Nat} (q : Nat) (h : (r :: rs).Pairwise (· < ·))
    (hwins : g.Outranks r t) :
    (g.Ties r t ∧ contest g t (some (.shift q)) (r :: rs) = (some .error, [])) ∨
      (¬ g.Ties r t ∧ contest g t (some (.shift q)) (r :: rs) =
        (some (.reduce r), rs.map (Conflict.Kind.reduceReduce, ·))) := by
  rw [contest]
  rcases settleShift_spec g (.shift q) r t with
    ⟨hranked, -⟩ | ⟨-, hnot, -⟩ | ⟨hties, heq⟩ | ⟨-, hties, heq⟩
  · exact absurd hwins.ranked hranked
  · exact absurd hwins hnot
  · refine Or.inl ⟨hties, ?_⟩
    simp only [settle, heq]
    rw [contest_error]
    rfl
  · refine Or.inr ⟨hties, ?_⟩
    simp only [settle, heq]
    rw [contest_reduce (List.pairwise_cons.mp h).1]
    rfl

/-- Of rules in order none comes before the one in front, and all others come after it. -/
theorem filter_head {r : Nat} (h : (r :: rs).Pairwise (· < ·)) :
    (r :: rs).filter (· < r) = [] ∧ (r :: rs).filter (r < ·) = rs := by
  have hlt := (List.pairwise_cons.mp h).1
  constructor
  · rw [List.filter_eq_nil_iff]
    intro r' hr' hless
    rcases List.mem_cons.mp hr' with rfl | hr'
    · exact absurd (of_decide_eq_true hless) (Nat.lt_irrefl _)
    · exact absurd (of_decide_eq_true hless) (Nat.lt_asymm (hlt r' hr'))
  · rw [List.filter_cons_of_neg (by simp), List.filter_eq_self]
    exact fun r' hr' => decide_eq_true (hlt r' hr')

/-- Of rules in order the one in front comes before the one that a later place holds. -/
theorem filter_behind {r first : Nat} (hless : r < first) :
    (r :: rs).filter (· < first) = r :: rs.filter (· < first) ∧
      (r :: rs).filter (first < ·) = rs.filter (first < ·) :=
  ⟨List.filter_cons_of_pos (by simpa using hless),
    List.filter_cons_of_neg (by simpa using Nat.le_of_lt hless)⟩

/-- The shift stands, or one rule is the first to outrank it. -/
theorem contest_shift (q : Nat) (h : rs.Pairwise (· < ·)) :
    ((∀ r ∈ rs, ¬ g.Outranks r t) ∧
      contest g t (some (.shift q)) rs = (some (.shift q), shiftReports g t rs)) ∨
    ∃ first, g.FirstOutranks rs first t ∧
      ((g.Ties first t ∧ contest g t (some (.shift q)) rs =
        (some .error, shiftReports g t (rs.filter (· < first)))) ∨
      (¬ g.Ties first t ∧ contest g t (some (.shift q)) rs =
        (some (.reduce first), shiftReports g t (rs.filter (· < first)) ++
          (rs.filter (first < ·)).map (Conflict.Kind.reduceReduce, ·)))) := by
  induction rs with
  | nil => exact Or.inl ⟨fun r hr => absurd hr List.not_mem_nil, rfl⟩
  | cons r rs ih =>
    obtain ⟨hlt, hrs⟩ := List.pairwise_cons.mp h
    by_cases hwins : g.Outranks r t
    · -- the rule in front is the first one, and the induction hypothesis is not needed
      obtain ⟨hbefore, hafter⟩ := filter_head h
      refine Or.inr ⟨r, .head h hwins, ?_⟩
      rw [hbefore, hafter]
      exact contest_outranked q h hwins
    · rw [contest_stays q hwins]
      rcases ih hrs with ⟨hall, hend⟩ | ⟨first, hfirst, hend⟩
      · refine Or.inl ⟨List.forall_mem_cons.mpr ⟨hwins, hall⟩, ?_⟩
        rw [hend, shiftReports_cons g t r rs]
      · obtain ⟨hbefore, hafter⟩ := filter_behind (hlt first hfirst.mem)
        refine Or.inr ⟨first, hfirst.behind hwins, ?_⟩
        rw [hbefore, hafter, shiftReports_cons g t r (rs.filter _)]
        rcases hend with ⟨hties, hend⟩ | ⟨hties, hend⟩
        · exact Or.inl ⟨hties, by rw [hend]⟩
        · exact Or.inr ⟨hties, by rw [hend, List.append_assoc]⟩

/-! ## What becomes of a rule

  The same from the side of one rule, which may come before or behind the one that outranks the
  shift. -/

/-- A rule that meets a shift wins, or is reported, or has a level like the terminal; but not if a
    tie with a lower rule has made the terminal an error. -/
theorem contest_accounts {r : Nat} (q : Nat) (h : rs.Pairwise (· < ·)) (hr : r ∈ rs) :
    ((contest g t (some (.shift q)) rs).1 = some (.reduce r) ∨
        (∃ kind, (kind, r) ∈ (contest g t (some (.shift q)) rs).2) ∨ g.Ranked r t) ↔
      ¬ (¬ g.Ranked r t ∧ ∃ r' < r, g.FirstOutranks rs r' t ∧ g.Ties r' t) := by
  by_cases hranked : g.Ranked r t
  · exact iff_of_true (Or.inr (Or.inr hranked)) fun hlost => hlost.1 hranked
  rcases contest_shift (g := g) (t := t) q h with ⟨hall, hend⟩ | ⟨first, hfirst, hend⟩
  · refine iff_of_true (Or.inr (Or.inl ⟨.shiftReduce, ?_⟩)) ?_
    · rw [hend]
      exact mem_shiftReports.mpr ⟨rfl, hr, hranked⟩
    · rintro ⟨-, r', -, hr', -⟩
      exact hall r' hr'.mem hr'.outranks
  -- the rule is reported before the first one that outranks the shift, and after it if it wins
  rcases Nat.lt_trichotomy r first with hlt | rfl | hgt
  · have hin : (Conflict.Kind.shiftReduce, r) ∈ shiftReports g t (rs.filter (· < first)) :=
      mem_shiftReports.mpr ⟨rfl, List.mem_filter.mpr ⟨hr, decide_eq_true hlt⟩, hranked⟩
    refine iff_of_true (Or.inr (Or.inl ⟨.shiftReduce, ?_⟩)) ?_
    · rcases hend with ⟨-, hend⟩ | ⟨-, hend⟩ <;> rw [hend]
      · exact hin
      · exact List.mem_append_left _ hin
    · rintro ⟨-, r', hless, hr', -⟩
      rw [hr'.unique hfirst] at hless
      exact absurd hless (Nat.lt_asymm hlt)
  · exact absurd hfirst.outranks.ranked hranked
  · rcases hend with ⟨hties, hend⟩ | ⟨hties, hend⟩
    · refine iff_of_false ?_ (not_not.mpr ⟨hranked, first, hgt, hfirst, hties⟩)
      rw [hend]
      rintro (hwins | ⟨kind, hin⟩ | hlevels)
      · exact absurd hwins (by simp)
      · have hless := (List.mem_filter.mp (mem_shiftReports.mp hin).2.1).2
        exact absurd (of_decide_eq_true hless) (Nat.lt_asymm hgt)
      · exact hranked hlevels
    · refine iff_of_true (Or.inr (Or.inl ⟨.reduceReduce, ?_⟩)) ?_
      · rw [hend]
        exact List.mem_append_right _ (List.mem_map.mpr
          ⟨r, List.mem_filter.mpr ⟨hr, decide_eq_true hgt⟩, rfl⟩)
      · rintro ⟨-, r', -, hr', hties'⟩
        exact hties (hr'.unique hfirst ▸ hties')

/-- A rule that is reported was there.  If it lost to the shift, the shift wins unless some rule
    outranks it; if it lost to a rule, a lower one wins. -/
theorem contest_reports {r : Nat} {kind : Conflict.Kind} (q : Nat) (h : rs.Pairwise (· < ·))
    (hin : (kind, r) ∈ (contest g t (some (.shift q)) rs).2) :
    r ∈ rs ∧
      (kind = .shiftReduce → ((contest g t (some (.shift q)) rs).1 = some (.shift q) ↔
        ∀ r' ∈ rs, ¬ g.Outranks r' t)) ∧
      (kind = .reduceReduce →
        ∃ r' < r, (contest g t (some (.shift q)) rs).1 = some (.reduce r')) := by
  -- the shift stands against all, or a first rule outranks it
  rcases contest_shift (g := g) (t := t) q h with ⟨hall, hend⟩ | ⟨first, hfirst, hend⟩
  · rw [hend] at hin ⊢
    obtain ⟨rfl, hr, -⟩ := mem_shiftReports.mp hin
    exact ⟨hr, fun _ => iff_of_true rfl hall, fun hkind => absurd hkind (by simp)⟩
  have hsome : ¬ ∀ r' ∈ rs, ¬ g.Outranks r' t :=
    fun hall => hall first hfirst.mem hfirst.outranks
  rcases hend with ⟨-, hend⟩ | ⟨-, hend⟩ <;> rw [hend] at hin ⊢
  · obtain ⟨rfl, hr, -⟩ := mem_shiftReports.mp hin
    exact ⟨List.mem_of_mem_filter hr, fun _ => iff_of_false (by simp) hsome,
      fun hkind => absurd hkind (by simp)⟩
  · rcases List.mem_append.mp hin with hin | hin
    · obtain ⟨rfl, hr, -⟩ := mem_shiftReports.mp hin
      exact ⟨List.mem_of_mem_filter hr, fun _ => iff_of_false (by simp) hsome,
        fun hkind => absurd hkind (by simp)⟩
    · obtain ⟨r', hr', heq⟩ := List.mem_map.mp hin
      injection heq with hkind hrule
      subst hkind hrule
      obtain ⟨hr', hless⟩ := List.mem_filter.mp hr'
      exact ⟨hr', fun hkind => absurd hkind (by simp),
        fun _ => ⟨first, of_decide_eq_true hless, rfl⟩⟩

/-- No rule is reported twice. -/
theorem nodup_contest (q : Nat) (h : rs.Pairwise (· < ·)) :
    ((contest g t (some (.shift q)) rs).2.map (·.2)).Nodup := by
  have hnodup : rs.Nodup := h.imp Nat.ne_of_lt
  have hshift : ∀ rs : List Nat, (shiftReports g t rs).map (·.2) =
      rs.filter fun r => ¬ g.Ranked r t := by
    intro rs
    rw [shiftReports, List.map_map]
    exact List.map_id _
  rcases contest_shift (g := g) (t := t) q h with ⟨-, hend⟩ | ⟨first, -, ⟨-, hend⟩ | ⟨-, hend⟩⟩ <;>
    rw [hend]
  · rw [hshift]
    exact hnodup.filter _
  · rw [hshift]
    exact (hnodup.filter _).filter _
  · rw [List.map_append, hshift, List.map_map]
    refine List.Nodup.append ((hnodup.filter _).filter _) ?_ ?_
    · exact (List.map_id _).symm ▸ hnodup.filter _
    · intro r hr hmap
      have hless := (List.mem_filter.mp (List.mem_filter.mp hr).1).2
      obtain ⟨r', hr', rfl⟩ := List.mem_map.mp hmap
      exact Nat.lt_asymm (of_decide_eq_true hless) (of_decide_eq_true (List.mem_filter.mp hr').2)

/-! ## One terminal of a ballot

  Offers on other terminals do not matter: they neither change what is decided on this one, nor
  report anything about it. -/

/-- The rules that are offered on terminal `t`, in order. -/
def rulesOn (t : Nat) (offers : List (Nat × Nat)) : List Nat :=
  (offers.filter (·.2 == t)).map (·.1)

/-- The rules that are offered on a terminal. -/
theorem mem_rulesOn {offers : List (Nat × Nat)} {r : Nat} :
    r ∈ rulesOn t offers ↔ (r, t) ∈ offers := by
  rw [rulesOn, List.mem_map]
  constructor
  · rintro ⟨⟨r', u⟩, hfilter, rfl⟩
    obtain ⟨hmem, hu⟩ := List.mem_filter.mp hfilter
    rw [← eq_of_beq hu]
    exact hmem
  · intro hmem
    exact ⟨(r, t), List.mem_filter.mpr ⟨hmem, by simp⟩, rfl⟩

/-- The conflict that an offer is, if it is one. -/
def clash (g : Grammar) (i : Nat) (b : Ballot) (r t : Nat) : Option Conflict :=
  ((b.decided t).bind fun existing => (settle g existing r t).2).map fun e => ⟨i, t, e.1, e.2⟩

/-- An offer adds its clash to the report, if there is one. -/
theorem conflicts_offer_eq (b : Ballot) (i r t : Nat) :
    (b.offer g i r t).conflicts.toList = b.conflicts.toList ++ (b.clash g i r t).toList := by
  unfold offer clash decided
  cases b.actions.getD t none with
  | none => exact (List.append_nil _).symm
  | some existing =>
    simp only [Option.bind_some]
    cases (settle g existing r t).2 with
    | none => exact (List.append_nil _).symm
    | some conflict => exact Array.toList_push

/-- On each terminal a ballot is the contest of the rules that are offered there. -/
theorem foldl_offer_on {offers : List (Nat × Nat)} (ht : t < b.actions.size) :
    (offers.foldl (fun b e => b.offer g i e.1 e.2) b).decided t =
        (contest g t (b.decided t) (rulesOn t offers)).1 ∧
      (offers.foldl (fun b e => b.offer g i e.1 e.2) b).conflicts.toList.filter (·.terminal == t) =
        b.conflicts.toList.filter (·.terminal == t) ++
          (contest g t (b.decided t) (rulesOn t offers)).2.map fun e => ⟨i, t, e.1, e.2⟩ := by
  induction offers generalizing b with
  | nil => exact ⟨rfl, (List.append_nil _).symm⟩
  | cons e offers ih =>
    obtain ⟨r, u⟩ := e
    obtain ⟨hdecided, hconflicts⟩ := ih (b := b.offer g i r u) (by rw [size_offer]; exact ht)
    rw [List.foldl_cons, hdecided, hconflicts, conflicts_offer_eq, List.filter_append]
    -- an offer on another terminal leaves the action and the reports on this one alone
    by_cases hu : u = t
    · subst hu
      have hrules : rulesOn u ((r, u) :: offers) = r :: rulesOn u offers := by
        rw [rulesOn, List.filter_cons_of_pos (by simp)]
        rfl
      have hkept : (b.clash g i r u).toList.filter (·.terminal == u) =
          (b.clash g i r u).toList := by
        refine List.filter_eq_self.mpr fun k hk => ?_
        obtain ⟨e, -, rfl⟩ := Option.map_eq_some_iff.mp (Option.mem_toList.mp hk)
        exact beq_self_eq_true u
      rw [hrules, hkept, decided_offer, if_pos ⟨rfl, ht⟩, outcome, clash]
      cases b.decided u with
      | none => exact ⟨rfl, by rw [contest]; simp⟩
      | some existing =>
        refine ⟨rfl, ?_⟩
        rw [contest, List.append_assoc]
        congr 1
        simp only [List.map_append, Option.bind_some]
        congr 1
        cases (settle g existing r u).2 <;> rfl
    · have hrules : rulesOn t ((r, u) :: offers) = rulesOn t offers := by
        rw [rulesOn, List.filter_cons_of_neg (by simpa using hu)]
        rfl
      have hdropped : (b.clash g i r u).toList.filter (·.terminal == t) = [] := by
        refine List.filter_eq_nil_iff.mpr fun k hk => ?_
        obtain ⟨e, -, rfl⟩ := Option.map_eq_some_iff.mp (Option.mem_toList.mp hk)
        simpa using hu
      rw [hrules, hdropped, List.append_nil, decided_offer, if_neg fun h => hu h.1]
      exact ⟨rfl, rfl⟩

/-- Every conflict of a ballot is one of the ballot's state, on a terminal on which a rule was
    offered. -/
theorem mem_conflicts_foldl_offer {offers : List (Nat × Nat)} {k : Conflict}
    (h : k ∈ (offers.foldl (fun b e => b.offer g i e.1 e.2) b).conflicts.toList) :
    k ∈ b.conflicts.toList ∨ (k.state = i ∧ ∃ e ∈ offers, k.terminal = e.2) := by
  induction offers generalizing b with
  | nil => exact Or.inl h
  | cons e offers ih =>
    rcases ih h with h | ⟨hstate, e', he', hterminal⟩
    · rw [conflicts_offer_eq, List.mem_append] at h
      rcases h with h | h
      · exact Or.inl h
      · obtain ⟨_, -, rfl⟩ := Option.map_eq_some_iff.mp (Option.mem_toList.mp h)
        exact Or.inr ⟨rfl, e, List.mem_cons_self, rfl⟩
    · exact Or.inr ⟨hstate, e', List.mem_cons_of_mem _ he', hterminal⟩

end Ballot

/-! ## One terminal of a state

  In a closed state no completed rule is there twice, so the rules that are offered on a terminal
  are in order, each once. -/

theorem SymbolSet.nodup_toList (s : SymbolSet) : s.toList.Nodup :=
  List.nodup_range.filter _

namespace State

open Ballot

variable {g : Grammar} {s : State} {t : Nat}

/-- The state completes rule `r`, which is not rule 0, with terminal `t` in the lookahead. -/
def Offers (g : Grammar) (s : State) (r t : Nat) : Prop :=
  r ≠ 0 ∧ s.CompletesOn g r t

/-- The rules that the state offers on terminal `t`, the lowest first. -/
def rivals (g : Grammar) (s : State) (t : Nat) : List Nat :=
  rulesOn t (s.offers g)

/-- The rivals on a terminal are the rules that are offered there. -/
theorem mem_rivals {r : Nat} : r ∈ s.rivals g t ↔ s.Offers g r t := by
  rw [rivals, mem_rulesOn, mem_offers, Offers]

/-- They are found among the reductions, whose lookaheads are asked for the terminal. -/
theorem rivals_eq (g : Grammar) (s : State) (t : Nat) :
    s.rivals g t = ((s.reductions g).filter (t ∈ ·.2)).map (·.1) := by
  -- a rule offers itself once for a terminal: its lookaheads are a set
  have hone : ∀ e : Nat × SymbolSet,
      rulesOn t (e.2.toList.map (e.1, ·)) = if t ∈ e.2 then [e.1] else [] := by
    intro e
    have hcount := e.2.nodup_toList.count (a := t)
    simp only [SymbolSet.mem_toList] at hcount
    rw [rulesOn, List.filter_map, List.map_map]
    show ((e.2.toList.filter (· == t)).map fun _ => e.1) = _
    rw [List.filter_beq, hcount]
    split <;> rfl
  rw [rivals, offers]
  induction s.reductions g with
  | nil => rfl
  | cons e es ih =>
    rw [List.flatMap_cons, rulesOn, List.filter_append, List.map_append]
    show rulesOn t _ ++ rulesOn t _ = _
    rw [ih, hone]
    by_cases ht : t ∈ e.2
    · rw [if_pos ht, List.filter_cons_of_pos (by simpa using ht)]
      rfl
    · rw [if_neg ht, List.filter_cons_of_neg (by simpa using ht)]
      rfl

section

variable (hdistinct : Core.Distinct g (s.items.toList.map (·.core)))
  (hfits : ∀ {c : Core}, s.Has c → c.Fits g)
include hdistinct hfits

/-- Only short rules are completed, so no item with the dot at the end is there twice. -/
theorem nodup_cores_complete : ((s.complete g).map (·.core)).Nodup := by
  refine (hdistinct.sublist (List.filter_sublist.map _)).nodup_of_forall fun c hc => ?_
  obtain ⟨item, hmem, rfl⟩ := List.mem_map.mp hc
  obtain ⟨hitem, hcomplete⟩ := mem_complete.mp hmem
  exact (hfits ⟨item, hitem, rfl⟩).isShort_of_complete hcomplete

/-- A rule is completed by one item only. -/
theorem nodup_complete : ((s.complete g).map (·.core.rule)).Nodup := by
  have hnodup := nodup_cores_complete hdistinct hfits
  refine List.Nodup.map_on (fun a ha b hb hrule => ?_) (hnodup.of_map _)
  obtain ⟨hmema, hca⟩ := mem_complete.mp ha
  obtain ⟨hmemb, hcb⟩ := mem_complete.mp hb
  have hlength : ∀ {item : Item}, item ∈ s.items → item.core.isComplete g = true →
      item.core.dot = (g.rule item.core.rule).rhs.length :=
    fun hmem hcomplete => (hfits ⟨_, hmem, rfl⟩).dot_of_complete hcomplete
  have hcore : a.core = b.core := by
    have hdota := hlength hmema hca
    have hdotb := hlength hmemb hcb
    rw [hrule, ← hdotb] at hdota
    cases hac : a.core
    cases hbc : b.core
    rw [hac, hbc] at hrule hdota
    congr
  exact List.inj_on_of_nodup_map hnodup ha hb hcore

/-- They come by their numbers, each once. -/
theorem sorted_rivals : (s.rivals g t).Pairwise (· < ·) := by
  have hle : (s.reductions g).Pairwise fun a b => a.1 ≤ b.1 := by
    refine List.Pairwise.imp of_decide_eq_true (List.pairwise_mergeSort (fun a b c hab hbc => ?_)
      (fun a b => ?_) _)
    · exact decide_eq_true (Nat.le_trans (of_decide_eq_true hab) (of_decide_eq_true hbc))
    · simpa using Nat.le_total a.1 b.1
  have hrules : ((s.reductions g).map (·.1)).Nodup := by
    rw [reductions, ((List.mergeSort_perm _ _).map _).nodup_iff, List.map_map]
    exact (nodup_complete hdistinct hfits).sublist (List.filter_sublist.map _)
  have hlt : ((s.reductions g).map (·.1)).Pairwise (· < ·) :=
    ((List.pairwise_map.mpr hle).and hrules).imp fun h => Nat.lt_of_le_of_ne h.1 h.2
  rw [rivals_eq]
  exact hlt.sublist (List.filter_sublist.map _)

end

/-- What a state decides on a terminal, and reports there, is the contest of its offers. -/
theorem ballot_on (i : Nat) (ht : t < g.terminalCount) :
    (s.ballot g i).decided t = (contest g t ((s.shifts g).getD t none) (s.rivals g t)).1 ∧
      (s.ballot g i).conflicts.toList.filter (·.terminal == t) =
        (contest g t ((s.shifts g).getD t none) (s.rivals g t)).2.map
          fun e => ⟨i, t, e.1, e.2⟩ := by
  rw [ballot_eq]
  exact foldl_offer_on (b := ⟨s.shifts g, #[]⟩) (by rw [size_shifts]; exact ht)

/-- A conflict of a state is about the state itself, and about a terminal on which it offers
    something. -/
theorem mem_conflicts_ballot {i : Nat} {k : Conflict} (h : k ∈ (s.ballot g i).conflicts.toList) :
    k.state = i ∧ ∃ r, s.Offers g r k.terminal := by
  rw [ballot_eq] at h
  rcases mem_conflicts_foldl_offer h with h | ⟨hstate, e, he, hterminal⟩
  · exact absurd h List.not_mem_nil
  · exact ⟨hstate, e.1, hterminal ▸ mem_offers.mp he⟩

end State

end Lalr
