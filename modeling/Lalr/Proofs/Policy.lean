/-
  The policy by which actions are chosen, and what the fallback of a row leaves as it was.

  What a state decides on a terminal (`Construction.decidedAction`) is how the contest of its offers
  ends there:

    1. Nothing is offered: the shift on the terminal, if there is one.
    2. Rules are offered and nothing is shifted: the least rule.
    3. Rules are offered against a shift: the shift, until a rule outranks it
       (`Construction.decidedAction_shift`).  For a single rule that is read off the two levels.

  The fallback is chosen by a count.  Every terminal votes for the rule that is decided on it, and
  the fold over the votes keeps the rule that prevails over all that it met (`foldl_commoner`).

  A row names the decided actions that differ from its fallback.  So a look-up gives back what was
  decided, wherever something was (`Construction.followsPolicy`).

  The levels that are compared are kept in 16 bits.  They are the declared ones
  (`Resolved.levelsKept`) as long as no more than 65535 are declared.  Then the count starts over,
  and a later level can be the equal of an earlier one (`Construction.spaced_reduce`).
-/
import Mathlib
import Lalr.Proofs.Conflicts

namespace Lalr

open Ballot State

/-! ## Levels

  Declarations give names to levels, and the grammar gives numbers to terminals and rules.
  Between the two stands the count in 16 bits. -/

/-- The level at index `i` is the last one that lists the name. -/
structure Declarations.LastListed (d : Declarations) (name : String) (i : Nat) (l : LevelDecl) :
    Prop where
  level : d.levels[i]? = some l
  mem : name ∈ l.names
  last : ∀ j l', i < j → d.levels[j]? = some l' → name ∉ l'.names

/-- The levels are those that are declared, counted from 1.  A terminal has the last one that lists
    it, and a rule that of the token named for it, or else of its last terminal with one. -/
structure Declarations.LevelsKept (d : Declarations) (g : Grammar) : Prop where
  listed : ∀ terminal ∈ g.alphabet.terminals, terminal.name ≠ startName →
    ∀ i l, d.LastListed terminal.name i l → terminal.binding = some ⟨i + 1, l.assoc⟩
  unlisted : ∀ terminal ∈ g.alphabet.terminals, (∀ l ∈ d.levels, terminal.name ∉ l.names) →
    terminal.binding = none
  rule : ∀ r decl, d.rules[r]? = some decl →
    g.alphabet.ruleLevel (r + 1) decl.levelOf (g.rule (r + 1)).rhs = .ok (g.rule (r + 1)).level

/-- Levels that do not list the name are passed over. -/
theorem LevelDecl.foldl_unlisted {name : String} {levels : List (LevelDecl × Nat)}
    (h : ∀ e ∈ levels, name ∉ e.1.names) (found : Option Binding) :
    levels.foldl (fun found (l, i) => if l.names.contains name then l.binding i else found) found =
      found := by
  induction levels with
  | nil => rfl
  | cons e levels ih =>
    have hnot : ¬ e.1.names.contains name = true :=
      fun hin => h e List.mem_cons_self (List.contains_iff_mem.mp hin)
    simp only [List.foldl_cons, if_neg hnot]
    exact ih fun e he => h e (List.mem_cons_of_mem _ he)

namespace Declarations

variable {d : Declarations} {name : String} {i : Nat} {l : LevelDecl}

/-- A name that no level lists has no precedence. -/
theorem bindingOf_unlisted (h : ∀ l ∈ d.levels, name ∉ l.names) : d.bindingOf name = none := by
  rw [bindingOf, ← Array.foldl_toList]
  refine LevelDecl.foldl_unlisted (fun e he => ?_) none
  rw [Array.toList_zipIdx] at he
  exact h _ (Array.mem_toList_iff.mp (List.fst_mem_of_mem_zipIdx he))

/-- The level that lists a name last gives the precedence. -/
theorem LastListed.bindingOf (h : d.LastListed name i l) : d.bindingOf name = l.binding i := by
  obtain ⟨hi, hget⟩ := Array.getElem?_eq_some_iff.mp h.level
  have hlt : i < d.levels.toList.zipIdx.length := by rwa [List.length_zipIdx]
  have hentry : d.levels.toList.zipIdx[i] = (l, i) := by
    rw [List.getElem_zipIdx, Array.getElem_toList, hget, Nat.zero_add]
  -- the levels split into those before the last that counts, that one, and those after it
  rw [Declarations.bindingOf, ← Array.foldl_toList, Array.toList_zipIdx,
    ← List.take_append_drop i d.levels.toList.zipIdx, List.drop_eq_getElem_cons hlt, hentry,
    List.foldl_append]
  simp only [List.foldl_cons, if_pos (List.contains_iff_mem.mpr h.mem)]
  refine LevelDecl.foldl_unlisted (fun e he => ?_) _
  obtain ⟨k, hk, rfl⟩ := List.getElem_of_mem he
  rw [List.getElem_drop, List.getElem_zipIdx]
  exact h.last (i + 1 + k) _ (by omega) (by simp)

end Declarations

/-- The first 65535 levels get their own numbers. -/
theorem LevelDecl.binding_eq (l : LevelDecl) {i : Nat} (hi : i < 65535) :
    l.binding i = some ⟨i + 1, l.assoc⟩ := by
  have hlevel : (i + 1) % 65536 = i + 1 := Nat.mod_eq_of_lt (by omega)
  rw [LevelDecl.binding]
  simp only [hlevel]
  rw [if_neg (Nat.succ_ne_zero i)]

/-- With so few levels, 16 bits hold the number of each, so that every level binds tighter than
    those before it. -/
theorem Resolved.levelsKept {d : Declarations} {g : Grammar} (h : Resolved d g)
    (hlevels : d.levels.size ≤ 65535) : d.LevelsKept g := by
  have hterminal : ∀ terminal ∈ g.alphabet.terminals, terminal.binding =
      if terminal.name = startName then none else d.bindingOf terminal.name := by
    intro terminal hmem
    rw [h.alphabet_eq, Declarations.alphabet, List.mem_toArray, List.mem_map] at hmem
    obtain ⟨⟨name, code⟩, -, rfl⟩ := hmem
    simp only [Declarations.terminal, beq_iff_eq]
  refine ⟨fun terminal hmem hname i l hlast => ?_, fun terminal hmem hnone => ?_,
    fun r decl hdecl => ?_⟩
  · obtain ⟨hi, -⟩ := Array.getElem?_eq_some_iff.mp hlast.level
    rw [hterminal terminal hmem, if_neg hname, hlast.bindingOf, l.binding_eq (by omega)]
  · rw [hterminal terminal hmem, Declarations.bindingOf_unlisted hnone, ite_self]
  · exact (Alphabet.resolveRule_eq_ok (h.rule_succ hdecl)).2.2

/-- Levels matter to a grammar by the names that they list, in their order, and by how these
    bind. -/
theorem Declarations.resolve_congr {d : Declarations} {levels : Array LevelDecl}
    (hnames : levels.toList.flatMap (·.names) = d.levels.toList.flatMap (·.names))
    (hbinding : ∀ name, { d with levels := levels }.bindingOf name = d.bindingOf name) :
    { d with levels := levels }.resolve = d.resolve := by
  have hany : ∀ ls : List LevelDecl, ls.any (·.names.contains errorName) =
      (ls.flatMap (·.names)).contains errorName := by
    intro ls
    rw [List.contains_eq_any_beq, List.any_flatMap]
    simp only [List.contains_eq_any_beq]
  have herror : { d with levels := levels }.mentionsError = d.mentionsError := by
    simp only [mentionsError, ← Array.any_toList, hany, hnames]
  have hcandidates : { d with levels := levels }.candidates = d.candidates := by
    rw [candidates, candidates, builtIn, builtIn, herror]
    simp only [← Array.foldl_toList, ← List.foldl_flatMap, hnames]
    rfl
  have halphabet : ∀ terminals, { d with levels := levels }.alphabet terminals =
      d.alphabet terminals := by
    intro terminals
    simp only [alphabet, terminal, hbinding]
    rfl
  unfold resolve
  simp only [hcandidates, halphabet]
  rfl

/-! ## The member that occurs most often

  Of candidates with equal counts the one with the lowest number is taken.  That makes `Prevails`
  an order, and the most frequent member its greatest one. -/

/-- One of two counted members is chosen before the other: it is counted more often, or as often and
    not greater. -/
def Prevails (a b : Nat × Nat) : Prop :=
  b.2 < a.2 ∨ (b.2 = a.2 ∧ a.1 ≤ b.1)

/-- A candidate prevails over itself. -/
theorem Prevails.refl (a : Nat × Nat) : Prevails a a :=
  Or.inr ⟨rfl, Nat.le_refl _⟩

/-- Prevailing carries over. -/
theorem Prevails.trans {a b c : Nat × Nat} (hab : Prevails a b) (hbc : Prevails b c) :
    Prevails a c := by
  unfold Prevails at *
  omega

/-- Two candidates that prevail over each other are the same rule, since ties are settled by the
    rules' numbers. -/
theorem Prevails.antisymm {a b : Nat × Nat} (hab : Prevails a b) (hba : Prevails b a) :
    a.1 = b.1 := by
  unfold Prevails at *
  omega

/-- The commoner of two prevails over both. -/
theorem commoner_prevails (best : Option (Nat × Nat)) (next : Nat × Nat) :
    ∃ b, commoner best next = some b ∧ Prevails b next ∧ ∀ a, best = some a → Prevails b a := by
  cases best with
  | none => exact ⟨next, rfl, .refl next, fun a ha => absurd ha (by simp)⟩
  | some a =>
    show ∃ b, (if a.2 < next.2 ∨ (a.2 = next.2 ∧ next.1 < a.1) then some next else some a) =
      some b ∧ _
    split
    · rename_i hnext
      refine ⟨next, rfl, .refl next, fun a' ha' => ?_⟩
      injection ha' with ha'
      subst ha'
      show a.2 < next.2 ∨ (a.2 = next.2 ∧ next.1 ≤ a.1)
      omega
    · rename_i hbest
      refine ⟨a, rfl, ?_, fun a' ha' => ?_⟩
      · show next.2 < a.2 ∨ (next.2 = a.2 ∧ a.1 ≤ next.1)
        omega
      · injection ha' with ha'
        exact ha' ▸ .refl a

/-- What the fold ends with is one of the members that it met, with its count, and it prevails over
    all of them. -/
theorem foldl_commoner (count : Nat → Nat) (xs : List Nat) {a : Nat × Nat} (ha : a.2 = count a.1) :
    ∃ x ∈ a.1 :: xs, xs.foldl (fun best y => commoner best (y, count y)) (some a) =
      some (x, count x) ∧ ∀ y ∈ a.1 :: xs, Prevails (x, count x) (y, count y) := by
  induction xs generalizing a with
  | nil =>
    refine ⟨a.1, List.mem_cons_self, by rw [← ha]; rfl, fun y hy => ?_⟩
    rw [List.mem_singleton.mp hy]
    exact .refl _
  | cons z zs ih =>
    obtain ⟨b, hb, hnext, hbest⟩ := commoner_prevails (some a) (z, count z)
    -- the better of two is one of the two
    have hkind : b = (z, count z) ∨ b = a := by
      rcases commoner_eq_some hb with hz | hsame
      · exact Or.inl hz
      · injection hsame with hsame
        exact Or.inr hsame.symm
    have hcount : b.2 = count b.1 := by
      rcases hkind with rfl | rfl
      · rfl
      · exact ha
    obtain ⟨x, hx, hfold, hall⟩ := ih hcount
    have hxb : Prevails (x, count x) b := by
      have h := hall b.1 List.mem_cons_self
      rwa [← hcount] at h
    refine ⟨x, ?_, by rw [List.foldl_cons, hb, hfold], ?_⟩
    · rcases List.mem_cons.mp hx with rfl | hx
      · rcases hkind with rfl | rfl
        · exact List.mem_cons_of_mem _ List.mem_cons_self
        · exact List.mem_cons_self
      · exact List.mem_cons_of_mem _ (List.mem_cons_of_mem _ hx)
    · intro y hy
      rcases List.mem_cons.mp hy with rfl | hy
      · have h := hxb.trans (hbest a rfl)
        rwa [show a = (a.1, count a.1) from Prod.ext rfl ha] at h
      · rcases List.mem_cons.mp hy with rfl | hy
        · exact hxb.trans hnext
        · exact hall y (List.mem_cons_of_mem _ hy)

/-- Of a list with members one is found that prevails over all of them. -/
theorem commonest?_cons (x : Nat) (xs : List Nat) :
    ∃ m ∈ x :: xs, commonest? (x :: xs) = some m ∧
      ∀ y ∈ x :: xs, Prevails (m, (x :: xs).count m) (y, (x :: xs).count y) := by
  obtain ⟨m, hm, hfold, hall⟩ :=
    foldl_commoner ((x :: xs).count ·) xs (a := (x, (x :: xs).count x)) rfl
  exact ⟨m, hm, congrArg (Option.map fun e : Nat × Nat => e.1) hfold, hall⟩

/-- Only the empty list has no most frequent member. -/
theorem commonest?_eq_none {xs : List Nat} : commonest? xs = none ↔ xs = [] := by
  cases xs with
  | nil => exact iff_of_true rfl rfl
  | cons x xs =>
    obtain ⟨m, -, hm, -⟩ := commonest?_cons x xs
    exact iff_of_false (by rw [hm]; simp) (by simp)

/-- The member that is found is the one that prevails over all others. -/
theorem commonest?_eq_some_iff {xs : List Nat} {m : Nat} :
    commonest? xs = some m ↔ m ∈ xs ∧ ∀ y ∈ xs, Prevails (m, xs.count m) (y, xs.count y) := by
  cases xs with
  | nil => exact iff_of_false (by simp [commonest?]) fun h => absurd h.1 List.not_mem_nil
  | cons x xs =>
    obtain ⟨m', hm', hfound, hall⟩ := commonest?_cons x xs
    rw [hfound, Option.some_inj]
    constructor
    · rintro rfl
      exact ⟨hm', hall⟩
    · rintro ⟨hm, hprevails⟩
      exact (hall m hm).antisymm (hprevails m' hm')

/-! ## Precedence between one rule and a shift

  What a reader of declarations expects: the higher level wins, and on equal levels the
  terminal's associativity decides. -/

namespace Grammar

variable {g : Grammar} {r t : Nat}

/-- The rule's level is higher than the terminal's, or the levels are equal and the terminal groups
    to the left. -/
def Wins (g : Grammar) (r t : Nat) : Prop :=
  ∃ level binding, (g.rule r).level = some level ∧ g.alphabet.binding t = some binding ∧
    (binding.level < level ∨ (binding.level = level ∧ binding.assoc = .left))

/-- A rule outranks the shift if it wins, or if it ties on a terminal that does not group. -/
theorem outranks_iff : g.Outranks r t ↔ g.Wins r t ∨ g.Ties r t := by
  constructor
  · rintro ⟨level, binding, hlevel, hbinding, hlt | ⟨heq, hassoc⟩⟩
    · exact Or.inl ⟨level, binding, hlevel, hbinding, Or.inl hlt⟩
    · cases hcase : binding.assoc with
      | left => exact Or.inl ⟨level, binding, hlevel, hbinding, Or.inr ⟨heq, hcase⟩⟩
      | right => exact absurd hcase hassoc
      | nonassoc => exact Or.inr ⟨binding, heq ▸ hlevel, hbinding, hcase⟩
  · rintro (⟨level, binding, hlevel, hbinding, hwins⟩ | hties)
    · refine ⟨level, binding, hlevel, hbinding, hwins.imp_right fun ⟨heq, hleft⟩ => ⟨heq, ?_⟩⟩
      rw [hleft]
      decide
    · exact hties.outranks

/-- A rule that wins does not tie. -/
theorem Wins.not_ties (h : g.Wins r t) : ¬ g.Ties r t := by
  obtain ⟨level, binding, hlevel, hbinding, hwins⟩ := h
  rintro ⟨binding', hlevel', hbinding', hassoc⟩
  rw [hbinding] at hbinding'
  injection hbinding' with hsame
  subst hsame
  rw [hlevel] at hlevel'
  injection hlevel' with hsame
  rcases hwins with hlt | ⟨-, hleft⟩
  · omega
  · rw [hleft] at hassoc
    exact absurd hassoc (by decide)

end Grammar

namespace Construction

/-- What state `p` decides on terminal `t`, before the row is cut down to what its fallback does not
    say. -/
def decidedAction (c : Construction) (p t : Nat) : Option Action :=
  ((c.automaton.state p).ballot c.grammar p).decided t

/-- The number of terminals on which state `p` decides for a reduction by rule `r`. -/
def votes (c : Construction) (p r : Nat) : Nat :=
  ((Finset.range c.grammar.terminalCount).filter
    fun t => c.decidedAction p t = some (.reduce r)).card

/-- The actions of state `p` follow the policy, and its row keeps them. -/
structure FollowsPolicy (c : Construction) (p : Nat) : Prop where
  /-- Where no rule is offered, the terminal is shifted if it can be. -/
  unoffered : ∀ t < c.grammar.terminalCount,
    (∀ r, ¬ (c.automaton.state p).Offers c.grammar r t) →
      ∀ action, c.decidedAction p t = some action ↔
        ∃ q, c.automaton.edge p (.terminal t) q ∧ action = .shift q
  /-- Of rules alone the least is chosen. -/
  unshifted : ∀ t < c.grammar.terminalCount, (¬ ∃ q, c.automaton.edge p (.terminal t) q) →
    ∀ r, IsLeast {r' | (c.automaton.state p).Offers c.grammar r' t} r →
      c.decidedAction p t = some (.reduce r)
  /-- A rule alone against a shift: their levels decide, and else the terminal is shifted. -/
  contested : ∀ t < c.grammar.terminalCount, ∀ q, c.automaton.edge p (.terminal t) q →
    ∀ r, (∀ r', (c.automaton.state p).Offers c.grammar r' t ↔ r' = r) →
      (c.grammar.Wins r t → c.decidedAction p t = some (.reduce r)) ∧
      (c.grammar.Ties r t → c.decidedAction p t = some .error) ∧
      (¬ c.grammar.Wins r t → ¬ c.grammar.Ties r t → c.decidedAction p t = some (.shift q))
  /-- The fallback accepts where rule 0 is completed. -/
  accepts : (c.coding.row p).fallback = .accept ↔ (c.automaton.state p).Completes c.grammar 0
  /-- Elsewhere it is the reduction with the most votes, the least of several. -/
  reduces : ∀ r, (c.coding.row p).fallback = .reduce r ↔
    (¬ (c.automaton.state p).Completes c.grammar 0 ∧ 0 < c.votes p r ∧
      ∀ r', c.votes p r' < c.votes p r ∨ (c.votes p r' = c.votes p r ∧ r ≤ r'))
  /-- Without votes it is an error. -/
  errs : (c.coding.row p).fallback = .error ↔
    (¬ (c.automaton.state p).Completes c.grammar 0 ∧ ∀ r, c.votes p r = 0)
  /-- The row gives back every action that was decided. -/
  lossless : ∀ t action, c.decidedAction p t = some action → c.action p t = action
  /-- The row names the decided actions that are not the fallback, each once. -/
  entries : ∀ t action, (c.coding.row p).actions.lookup t = some action ↔
    (c.decidedAction p t = some action ∧ action ≠ (c.coding.row p).fallback)

section

variable {d : Declarations} {settings : Settings} {c : Construction}
  (h : d.build settings = .ok c) {p t : Nat}
include h

/-! ## What is decided on one terminal

  The outcomes of a contest, read off in the three cases of the policy. -/

omit h in
/-- What a state decides on a terminal is what its contest there comes to. -/
theorem decidedAction_eq (ht : t < c.grammar.terminalCount) :
    c.decidedAction p t = (c.contestAt p t).1 :=
  (ballot_on p ht).1

/-- Without an offered rule the shift is decided, if there is one. -/
theorem decidedAction_unoffered (hp : p < c.automaton.states.size)
    (ht : t < c.grammar.terminalCount)
    (hnone : ∀ r, ¬ (c.automaton.state p).Offers c.grammar r t) (action : Action) :
    c.decidedAction p t = some action ↔
      ∃ q, c.automaton.edge p (.terminal t) q ∧ action = .shift q := by
  have hrivals : (c.automaton.state p).rivals c.grammar t = [] :=
    List.eq_nil_iff_forall_not_mem.mpr fun r hr => hnone r (mem_rivals.mp hr)
  rw [decidedAction_eq ht]
  -- without rivals the contest is over at once
  rcases contestAt_cases h hp ht with ⟨q, he, hat⟩ | ⟨hedge, ⟨-, hat⟩ | ⟨first, after, hcons, -⟩⟩
  · rw [hat, hrivals]
    show some (Action.shift q) = some action ↔ _
    constructor
    · intro heq
      injection heq with heq
      exact ⟨q, he, heq.symm⟩
    · rintro ⟨q', he', rfl⟩
      rw [(automaton_inv h).sound.edge_unique he' he]
  · rw [hat]
    exact iff_of_false (by simp) fun ⟨q, he, _⟩ => hedge ⟨q, he⟩
  · rw [hrivals] at hcons
    exact absurd hcons (by simp)

/-- Without a shift the lowest rule is decided. -/
theorem decidedAction_unshifted (hp : p < c.automaton.states.size)
    (ht : t < c.grammar.terminalCount) (hedge : ¬ ∃ q, c.automaton.edge p (.terminal t) q) {r : Nat}
    (hr : IsLeast {r' | (c.automaton.state p).Offers c.grammar r' t} r) :
    c.decidedAction p t = some (.reduce r) := by
  have hmem : r ∈ (c.automaton.state p).rivals c.grammar t := mem_rivals.mpr hr.1
  rw [decidedAction_eq ht]
  rcases contestAt_cases h hp ht with ⟨q, he, -⟩ | ⟨-, ⟨hnil, -⟩ | ⟨first, after, hcons, hat⟩⟩
  · exact absurd ⟨q, he⟩ hedge
  · rw [hnil] at hmem
    exact absurd hmem List.not_mem_nil
  · -- the first of the sorted rules is the least
    have hsorted := rivals_sorted h hp t
    rw [hcons] at hmem hsorted
    have hfirst : (c.automaton.state p).Offers c.grammar first t :=
      mem_rivals.mp (hcons ▸ List.mem_cons_self)
    have hle : first ≤ r := by
      rcases List.mem_cons.mp hmem with rfl | hafter
      · exact Nat.le_refl _
      · exact Nat.le_of_lt ((List.pairwise_cons.mp hsorted).1 r hafter)
    rw [hat, Nat.le_antisymm hle (hr.2 hfirst)]

/-- Against any number of rules: the shift stands, or the lowest rule that outranks it decides. -/
theorem decidedAction_shift (hp : p < c.automaton.states.size) (ht : t < c.grammar.terminalCount)
    {q : Nat} (he : c.automaton.edge p (.terminal t) q) :
    ((∀ r, (c.automaton.state p).Offers c.grammar r t → ¬ c.grammar.Outranks r t) ∧
      c.decidedAction p t = some (.shift q)) ∨
    ∃ r, (c.automaton.state p).Offers c.grammar r t ∧
      ((c.grammar.Ties r t ∧ c.decidedAction p t = some .error) ∨
        (c.grammar.Wins r t ∧ c.decidedAction p t = some (.reduce r))) := by
  rw [decidedAction_eq ht]
  rcases contestAt_cases h hp ht with ⟨q', he', hat⟩ | ⟨hedge, -⟩
  · rw [(automaton_inv h).sound.edge_unique he' he] at hat
    rw [hat]
    rcases contest_shift (g := c.grammar) (t := t) q (rivals_sorted h hp t) with
      ⟨hall, hend⟩ | ⟨first, hfirst, ⟨hties, hend⟩ | ⟨hties, hend⟩⟩
    · exact Or.inl ⟨fun r hr => hall r (mem_rivals.mpr hr), by rw [hend]⟩
    · exact Or.inr ⟨first, mem_rivals.mp hfirst.mem, Or.inl ⟨hties, by rw [hend]⟩⟩
    · have hwins := (Grammar.outranks_iff.mp hfirst.outranks).resolve_right hties
      exact Or.inr ⟨first, mem_rivals.mp hfirst.mem, Or.inr ⟨hwins, by rw [hend]⟩⟩
  · exact absurd ⟨q, he⟩ hedge

/-- Between a shift and one rule, precedence decides. -/
theorem decidedAction_contested (hp : p < c.automaton.states.size)
    (ht : t < c.grammar.terminalCount) {q r : Nat} (he : c.automaton.edge p (.terminal t) q)
    (hr : ∀ r', (c.automaton.state p).Offers c.grammar r' t ↔ r' = r) :
    (c.grammar.Wins r t → c.decidedAction p t = some (.reduce r)) ∧
      (c.grammar.Ties r t → c.decidedAction p t = some .error) ∧
      (¬ c.grammar.Wins r t → ¬ c.grammar.Ties r t → c.decidedAction p t = some (.shift q)) := by
  have hoffers : (c.automaton.state p).Offers c.grammar r t := (hr r).mpr rfl
  rcases decidedAction_shift h hp ht he with
    ⟨hall, hdec⟩ | ⟨r', hr', ⟨hties, hdec⟩ | ⟨hwins, hdec⟩⟩
  · have hnot := hall r hoffers
    rw [Grammar.outranks_iff] at hnot
    exact ⟨fun hw => absurd (Or.inl hw) hnot, fun hties => absurd (Or.inr hties) hnot,
      fun _ _ => hdec⟩
  · obtain rfl : r' = r := (hr r').mp hr'
    exact ⟨fun hw => absurd hties hw.not_ties, fun _ => hdec, fun _ hnot => absurd hties hnot⟩
  · obtain rfl : r' = r := (hr r').mp hr'
    exact ⟨fun _ => hdec, fun hties => absurd hties hwins.not_ties, fun hnot => absurd hwins hnot⟩

/-! ## The fallback

  Votes are counted over terminals.  A state that accepts does so whatever the votes are. -/

omit h in
/-- The rules that the decided actions of state `p` reduce by, one for each terminal. -/
def ballots (c : Construction) (p : Nat) : List Nat :=
  ((c.automaton.state p).ballot c.grammar p).actions.toList.filterMap
    fun action => action.bind Action.reduction?

omit h in
/-- The decisions of a state, listed by terminal. -/
theorem toList_ballot : ((c.automaton.state p).ballot c.grammar p).actions.toList =
    (List.range c.grammar.terminalCount).map (c.decidedAction p) := by
  refine List.ext_getElem ?_ fun t ht _ => ?_
  · rw [List.length_map, List.length_range, Array.length_toList, State.size_ballot]
  · rw [List.getElem_map, List.getElem_range, Array.getElem_toList, decidedAction, decided,
      Array.getD_eq_getD_getElem?, Array.getElem?_eq_getElem (by simpa using ht)]
    rfl

omit h in
/-- Every terminal that is decided for a rule is one vote for it. -/
theorem count_ballots (r : Nat) : (c.ballots p).count r = c.votes p r := by
  have hone : ∀ action : Option Action,
      (action.bind Action.reduction? == some r) = decide (action = some (.reduce r)) := by
    intro action
    rw [Bool.eq_iff_iff, beq_iff_eq, decide_eq_true_eq]
    rcases action with _ | (q | r' | _ | _) <;> simp [Action.reduction?]
  rw [ballots, List.count_filterMap, toList_ballot, List.countP_map, votes,
    ← Nat.count_eq_card_filter_range]
  show List.countP _ _ = List.countP _ _
  congr 1
  funext t
  exact hone _

omit h in
/-- The rules on the ballots are those that have votes. -/
theorem mem_ballots {r : Nat} : r ∈ c.ballots p ↔ 0 < c.votes p r := by
  rw [← count_ballots, List.count_pos_iff]

/-- The fallback of a state, as it is computed: it is accepting or by the most frequent rule. -/
theorem fallback_eq (hp : p < c.automaton.states.size) : (c.coding.row p).fallback =
    if (c.automaton.state p).accepts c.grammar then .accept
    else
      match commonest? (c.ballots p) with
      | some r => .reduce r
      | none => .error := by
  rw [row_eq h hp]
  rfl

omit h in
/-- The commonest vote, in numbers of terminals. -/
theorem commonest_ballots {r : Nat} : commonest? (c.ballots p) = some r ↔
    0 < c.votes p r ∧
      ∀ r', c.votes p r' < c.votes p r ∨ (c.votes p r' = c.votes p r ∧ r ≤ r') := by
  rw [commonest?_eq_some_iff, mem_ballots]
  refine and_congr_right fun hpos => ⟨fun hall r' => ?_, fun hall r' _ => ?_⟩
  · by_cases hr' : r' ∈ c.ballots p
    · have hprevails := hall r' hr'
      rw [count_ballots, count_ballots] at hprevails
      exact hprevails
    · rw [mem_ballots] at hr'
      omega
  · rw [count_ballots, count_ballots]
    exact hall r'

/-- The fallback of a state in terms of votes, with all three cases. -/
theorem fallback_iff (hp : p < c.automaton.states.size) :
    ((c.coding.row p).fallback = .accept ↔ (c.automaton.state p).Completes c.grammar 0) ∧
      (∀ r, (c.coding.row p).fallback = .reduce r ↔
        (¬ (c.automaton.state p).Completes c.grammar 0 ∧ 0 < c.votes p r ∧
          ∀ r', c.votes p r' < c.votes p r ∨ (c.votes p r' = c.votes p r ∧ r ≤ r'))) ∧
      ((c.coding.row p).fallback = .error ↔
        (¬ (c.automaton.state p).Completes c.grammar 0 ∧ ∀ r, c.votes p r = 0)) := by
  -- no rule has votes if the ballots are empty
  have hnil : c.ballots p = [] ↔ ∀ r, c.votes p r = 0 := by
    rw [List.eq_nil_iff_forall_not_mem]
    refine forall_congr' fun r => ?_
    rw [mem_ballots]
    omega
  rw [fallback_eq h hp, ← hnil, ← commonest?_eq_none]
  simp only [← commonest_ballots]
  -- accepting comes before any votes
  by_cases haccepts : (c.automaton.state p).accepts c.grammar = true
  · have hzero := accepts_iff.mp haccepts
    rw [if_pos haccepts]
    exact ⟨iff_of_true rfl hzero, fun r => iff_of_false (by simp) fun hnot => hnot.1 hzero,
      iff_of_false (by simp) fun hnot => hnot.1 hzero⟩
  · have hzero : ¬ (c.automaton.state p).Completes c.grammar 0 :=
      fun hc => haccepts (accepts_iff.mpr hc)
    rw [if_neg haccepts]
    cases commonest? (c.ballots p) with
    | none => simp [hzero]
    | some m => simp [hzero]

/-- In every state the actions follow the policy: what precedence and the order of rules say, and a
    fallback that changes nothing that was decided. -/
theorem followsPolicy (hp : p < c.automaton.states.size) : c.FollowsPolicy p where
  unoffered _ ht := decidedAction_unoffered h hp ht
  unshifted _ ht hedge _ hr := decidedAction_unshifted h hp ht hedge hr
  contested _ ht _ he _ hr := decidedAction_contested h hp ht he hr
  accepts := (fallback_iff h hp).1
  reduces := (fallback_iff h hp).2.1
  errs := (fallback_iff h hp).2.2
  lossless t action hdec := by
    show (c.coding.row p).action t = action
    rw [row_eq h hp]
    exact action_of_decided hdec
  entries t action := by
    rw [row_eq h hp, lookup_actions, Option.filter_eq_some_iff, decide_eq_true_eq]
    exact Iff.rfl

end

/-- Comparisons, which do not group, of differences, which group to the left and bind tighter. -/
def differences : Declarations where
  tokens := #[⟨"NUM", none⟩]
  levels := #[⟨.nonassoc, ["'<'"]⟩, ⟨.left, ["'-'"]⟩]
  rules := #[⟨"E", ["E", "'<'", "E"], none, none⟩, ⟨"E", ["E", "'-'", "E"], none, none⟩,
    ⟨"E", ["NUM"], none, none⟩]

/-- The grammar that they declare. -/
def differencesGrammar : Grammar where
  alphabet :=
    { terminals := #[⟨"$end", 0, none⟩, ⟨"NUM", 257, none⟩, ⟨"'<'", 60, some ⟨1, .nonassoc⟩⟩,
        ⟨"'-'", 45, some ⟨2, .left⟩⟩]
      nonterminals := #["$start", "E"] }
  rules := #[⟨0, [.nonterminal 1, .terminal 0], none, none⟩,
    ⟨1, [.nonterminal 1, .terminal 2, .nonterminal 1], some 1, none⟩,
    ⟨1, [.nonterminal 1, .terminal 3, .nonterminal 1], some 2, none⟩,
    ⟨1, [.terminal 1], none, none⟩]

/-- The state behind a comparison. -/
def behindComparison : State where
  items := #[⟨⟨1, 3⟩, none, 0⟩, ⟨⟨1, 1⟩, none, 1⟩, ⟨⟨2, 1⟩, none, 2⟩]
  kernelSize := 3
  lookaheads := #[⟨13⟩, ⟨13⟩, ⟨13⟩]
  entry := some (.nonterminal 1)
  signature := [⟨1, 1⟩, ⟨1, 3⟩, ⟨2, 1⟩]
  moves := #[(.terminal 2, 4), (.terminal 3, 5)]

set_option maxRecDepth 100000 in
/-- What comes of them. -/
theorem differences_run : (Construction.ofGrammar {} differencesGrammar).succeeds = true ∧
    (Construction.ofGrammar {} differencesGrammar).automaton.states[6]? = some behindComparison ∧
    ((Construction.ofGrammar {} differencesGrammar).coding.row 6).fallback = .reduce 1 := by cbv

/-- A table for differences is built. -/
theorem differences_build :
    differences.build = .ok (Construction.ofGrammar {} differencesGrammar) :=
  Declarations.build_of_succeeds (by cbv) differences_run.1

/-- Behind a comparison only rule 1 is offered. -/
theorem behindComparison_offers {t r : Nat} (ht : t ∈ [0, 2, 3]) :
    behindComparison.Offers differencesGrammar r t ↔ r = 1 := by
  have hrivals : ∀ t ∈ [0, 2, 3], behindComparison.rivals differencesGrammar t = [1] := by
    simp only [List.forall_mem_cons, List.not_mem_nil, false_imp_iff, implies_true, and_true]
    exact ⟨by cbv, by cbv, by cbv⟩
  rw [← mem_rivals, hrivals t ht]
  exact List.mem_singleton

/-- The levels are the declared ones, unless more than 65535 are declared, and in every state the
    actions follow the policy. -/
theorem follows_policy {d : Declarations} {settings : Settings} {c : Construction}
    (h : d.build settings = .ok c) (hlevels : d.levels.size ≤ 65535) :
    d.LevelsKept c.grammar ∧ ∀ p < c.automaton.states.size, c.FollowsPolicy p :=
  ⟨(Declarations.build_spec h).1.levelsKept hlevels, fun _ hp => followsPolicy h hp⟩

/-- There a further `'<'` is an error and `'-'` is shifted, although the fallback reduces by rule 1,
    for which the end of input votes. -/
theorem follows_policy_differences : ∃ c, differences.build = .ok c ∧
    differences.levels.size ≤ 65535 ∧
    6 < c.automaton.states.size ∧ c.action 6 2 = .error ∧ c.action 6 3 = .shift 5 ∧
    (c.coding.row 6).fallback = .reduce 1 ∧ 0 < c.votes 6 1 := by
  obtain ⟨-, hstate, hfallback⟩ := differences_run
  have hp := (Array.getElem?_eq_some_iff.mp hstate).1
  have hpolicy := (follows_policy differences_build (by decide)).2 6 hp
  replace hstate : (Construction.ofGrammar {} differencesGrammar).automaton.state 6 =
      behindComparison := by
    rw [Automaton.state, Array.getD_eq_getD_getElem?, hstate, Option.getD_some]
  have hoffers : ∀ t ∈ [0, 2, 3], ∀ r,
      ((Construction.ofGrammar {} differencesGrammar).automaton.state 6).Offers
        differencesGrammar r t ↔ r = 1 := by
    intro t ht r
    rw [hstate]
    exact behindComparison_offers ht
  have hedge : ∀ (i : Nat) (move : Symbol × Nat), behindComparison.moves[i]? = some move →
      (Construction.ofGrammar {} differencesGrammar).automaton.edge 6 move.1 move.2 := by
    intro i move hi
    rw [Automaton.edge, hstate]
    exact Array.mem_of_getElem? hi
  have hless : (Construction.ofGrammar {} differencesGrammar).decidedAction 6 2 = some .error := by
    apply (hpolicy.contested 2 (by decide) 4 (hedge 0 _ rfl) 1 (hoffers 2 (by decide))).2.1
    exact ⟨⟨1, .nonassoc⟩, rfl, rfl, rfl⟩
  have hminus : (Construction.ofGrammar {} differencesGrammar).decidedAction 6 3 =
      some (.shift 5) := by
    have hranks : ¬ differencesGrammar.Outranks 1 3 := by
      rintro ⟨level, binding, hlevel, hbinding, hwins⟩
      injection hlevel with hlevel
      injection hbinding with hbinding
      subst hlevel hbinding
      exact absurd hwins (by decide)
    rw [Grammar.outranks_iff, not_or] at hranks
    exact (hpolicy.contested 3 (by decide) 5 (hedge 1 _ rfl) 1 (hoffers 3 (by decide))).2.2
      hranks.1 hranks.2
  exact ⟨_, differences_build, by decide, hp, hpolicy.lossless 2 _ hless,
    hpolicy.lossless 3 _ hminus, hfallback, ((hpolicy.reduces 1).mp hfallback).2.1⟩

/-! ## More levels than are counted -/

/-- Sums and products; the plus and the star are in one level. -/
def arithmetic : Declarations where
  levels := #[⟨.left, ["'+'", "'*'"]⟩]
  rules := #[⟨"E", ["E", "'+'", "E"], none, none⟩, ⟨"E", ["E", "'*'", "E"], none, none⟩,
    ⟨"E", ["'x'"], none, none⟩]

/-- The same with the star in a level of its own, and `n` levels between it and the plus. -/
def spaced (n : Nat) : Declarations :=
  { arithmetic with
    levels := #[⟨.left, ["'+'"]⟩] ++ Array.replicate n ⟨.left, []⟩ ++ #[⟨.left, ["'*'"]⟩] }

/-- The grammar that sums and products declare. -/
def arithmeticGrammar : Grammar where
  alphabet :=
    { terminals := #[⟨"$end", 0, none⟩, ⟨"'+'", 43, some ⟨1, .left⟩⟩, ⟨"'*'", 42, some ⟨1, .left⟩⟩,
        ⟨"'x'", 120, none⟩]
      nonterminals := #["$start", "E"] }
  rules := #[⟨0, [.nonterminal 1, .terminal 0], none, none⟩,
    ⟨1, [.nonterminal 1, .terminal 1, .nonterminal 1], some 1, none⟩,
    ⟨1, [.nonterminal 1, .terminal 2, .nonterminal 1], some 1, none⟩,
    ⟨1, [.terminal 3], none, none⟩]

/-- The plus is in the first level, and the star in the last one. -/
theorem levels_spaced {n i : Nat} {l : LevelDecl} :
    (spaced n).levels[i]? = some l ↔ (i = 0 ∧ l = ⟨.left, ["'+'"]⟩) ∨
      (0 < i ∧ i ≤ n ∧ l = ⟨.left, []⟩) ∨ (i = n + 1 ∧ l = ⟨.left, ["'*'"]⟩) := by
  have hlist : (spaced n).levels.toList =
      ⟨.left, ["'+'"]⟩ :: (List.replicate n ⟨.left, []⟩ ++ [⟨.left, ["'*'"]⟩]) := by
    simp [spaced]
  rw [← Array.getElem?_toList, hlist]
  cases i with
  | zero => simp [eq_comm]
  | succ i =>
    rw [List.getElem?_cons_succ]
    rcases Nat.lt_trichotomy i n with hlt | rfl | hgt
    · rw [List.getElem?_append_left (by rwa [List.length_replicate]),
        List.getElem?_replicate_of_lt hlt]
      grind
    · rw [List.getElem?_append_right (by rw [List.length_replicate]), List.length_replicate,
        Nat.sub_self]
      grind
    · rw [List.getElem?_eq_none (by simp; omega)]
      grind

/-- The levels in between list no names. -/
theorem names_spaced (n : Nat) : (spaced n).levels.toList.flatMap (·.names) =
    arithmetic.levels.toList.flatMap (·.names) := by
  simp [spaced, arithmetic]

/-- No level behind the first one lists the plus. -/
theorem lastListed_plus (n : Nat) : (spaced n).LastListed "'+'" 0 ⟨.left, ["'+'"]⟩ where
  level := levels_spaced.mpr (Or.inl ⟨rfl, rfl⟩)
  mem := List.mem_singleton_self _
  last j l hlt hl := by
    rcases levels_spaced.mp hl with ⟨rfl, -⟩ | ⟨-, -, rfl⟩ | ⟨-, rfl⟩
    · exact absurd hlt (Nat.lt_irrefl 0)
    · exact List.not_mem_nil
    · decide

/-- Only the last level lists the star. -/
theorem lastListed_star (n : Nat) : (spaced n).LastListed "'*'" (n + 1) ⟨.left, ["'*'"]⟩ where
  level := levels_spaced.mpr (Or.inr (Or.inr ⟨rfl, rfl⟩))
  mem := List.mem_singleton_self _
  last j l hlt hl := by
    rcases levels_spaced.mp hl with ⟨rfl, -⟩ | ⟨-, -, rfl⟩ | ⟨rfl, -⟩
    · exact absurd hlt (Nat.not_lt_zero _)
    · exact List.not_mem_nil
    · exact absurd hlt (Nat.lt_irrefl _)

/-- With 65535 levels in between, the star is again at the level of the plus. -/
theorem bindingOf_spaced (name : String) :
    (spaced 65535).bindingOf name = arithmetic.bindingOf name := by
  by_cases hplus : name = "'+'"
  · rw [hplus, (lastListed_plus _).bindingOf]
    rfl
  by_cases hstar : name = "'*'"
  · rw [hstar, (lastListed_star _).bindingOf]
    rfl
  -- no level lists another name
  rw [Declarations.bindingOf_unlisted, Declarations.bindingOf_unlisted]
  · intro l hl
    obtain rfl := Array.mem_singleton.mp hl
    simp [hplus, hstar]
  · intro l hl
    obtain ⟨i, hi⟩ := Array.mem_iff_getElem?.mp hl
    rcases levels_spaced.mp hi with ⟨-, rfl⟩ | ⟨-, -, rfl⟩ | ⟨-, rfl⟩ <;> simp [hplus, hstar]

set_option maxRecDepth 100000 in
/-- What comes of sums and products.  Behind a sum, in state 6, only rule 1 is offered on a star. -/
theorem arithmetic_run : (Construction.ofGrammar {} arithmeticGrammar).succeeds = true ∧
    ((Construction.ofGrammar {} arithmeticGrammar).automaton.state 6).moves =
      #[(.terminal 1, 4), (.terminal 2, 5)] ∧
    ((Construction.ofGrammar {} arithmeticGrammar).automaton.state 6).rivals
      arithmeticGrammar 2 = [1] ∧
    (Construction.ofGrammar {} arithmeticGrammar).action 6 2 = .reduce 1 := by cbv

/-- So the same table is built. -/
theorem spaced_build :
    (spaced 65535).build = .ok (Construction.ofGrammar {} arithmeticGrammar) := by
  have hres := Declarations.resolve_congr (names_spaced 65535) bindingOf_spaced
  exact Declarations.build_of_succeeds (hres.trans (by cbv)) arithmetic_run.1

/-- The star is declared 65536 levels above the plus.  But the levels that are compared are equal,
    and the action on a star behind a sum is the reduction. -/
theorem spaced_reduce : ∃ c, (spaced 65535).build = .ok c ∧
    (spaced 65535).LastListed "'+'" 0 ⟨.left, ["'+'"]⟩ ∧
    (spaced 65535).LastListed "'*'" 65536 ⟨.left, ["'*'"]⟩ ∧
    ¬ (spaced 65535).LevelsKept c.grammar ∧
    c.automaton.edge 6 (.terminal 2) 5 ∧
    (∀ r, (c.automaton.state 6).Offers c.grammar r 2 ↔ r = 1) ∧ c.action 6 2 = .reduce 1 := by
  obtain ⟨-, hmoves, hrivals, haction⟩ := arithmetic_run
  refine ⟨_, spaced_build, lastListed_plus _, lastListed_star _, fun hkept => ?_, ?_, fun r => ?_,
    haction⟩
  · have hlevel := hkept.listed ⟨"'*'", 42, some ⟨1, .left⟩⟩
      (Array.mem_of_getElem? (i := 2) rfl) (by decide) _ _ (lastListed_star 65535)
    exact absurd hlevel (by decide)
  · rw [Automaton.edge, hmoves]
    exact Array.mem_of_getElem? (i := 1) rfl
  · rw [← mem_rivals]
    show r ∈ (_ : State).rivals arithmeticGrammar 2 ↔ _
    rw [hrivals]
    exact List.mem_singleton

end Construction

end Lalr
