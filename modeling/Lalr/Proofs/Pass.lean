/-
  What a pass over the rules adds, and what it reports.

  The facts that the tables hold are marks and members (`Firsts.Holds`).  Whatever they hold before
  a pass, members that no rule accounts for included,

    1. the pass takes nothing back, and it reports a change exactly if it adds a fact
       (`pass_reports`, from the same about reading a string of symbols and reading a rule);
    2. so a pass that reports nothing left the tables as they were, and another one would as well;
    3. a pass puts no new member into the tables but terminals, so as long as all members are below
       some number there are finitely many facts, and the passes end (`exists_stopsAfter`).

  Together: `pass_exact`, with the number of passes that `ofGrammar` takes.
-/
import Mathlib
import Lalr.First
import Lalr.Proofs.Reports
import Lalr.Proofs.WellFormed

namespace Lalr

open SymbolSet

namespace Firsts

/-! ## Facts

  A fact is either kind of thing that the tables can tell, so that marks and members need not be
  treated apart. -/

/-- What the tables can tell of nonterminal `a`. -/
inductive Fact where
  | vanishes (a : Nat)
  | begins (a t : Nat)
  deriving DecidableEq

/-- The tables hold the fact. -/
def Holds (f : Firsts) : Fact → Prop
  | .vanishes a => f.isNullable a = true
  | .begins a t => t ∈ f.firstOf a

/-- There is a place for every nonterminal; what stands there is not asked for. -/
structure Fits (g : Grammar) (f : Firsts) : Prop where
  size_nullable : f.nullable.size = g.nonterminalCount
  size_first : f.first.size = g.nonterminalCount

/-- The tables fit, and their members are numbers of the kind `M`. -/
structure Ranges (g : Grammar) (M : Nat → Prop) (f : Firsts) : Prop extends Fits g f where
  member : ∀ a t, t ∈ f.firstOf a → M t

variable {g : Grammar} {M : Nat → Prop} {f f' : Firsts} {acc acc' : Firsts × Bool}

/-- Tables of one size are told apart by the facts they hold. -/
theorem Fits.eq_of_holds (hf : Fits g f) (hf' : Fits g f') (h : ∀ k, f.Holds k ↔ f'.Holds k) :
    f = f' := by
  have hnullable : f.nullable = f'.nullable :=
    ext_getD false (hf.size_nullable.trans hf'.size_nullable.symm) fun a =>
      Bool.eq_iff_iff.mpr (h (.vanishes a))
  have hfirst : f.first = f'.first :=
    ext_getD ∅ (hf.size_first.trans hf'.size_first.symm) fun a => SymbolSet.ext fun t =>
      h (.begins a t)
  cases f
  cases f'
  exact congrArg₂ Firsts.mk hnullable hfirst

/-- Empty tables have no members. -/
theorem Ranges.empty (g : Grammar) (M : Nat → Prop) : Ranges g M (empty g.nonterminalCount) where
  size_nullable := Array.size_replicate
  size_first := Array.size_replicate
  member a t h := by
    rw [firstOf, Firsts.empty, getD_replicate] at h
    exact absurd h (not_mem_empty t)

/-! ## The steps of a pass

  A step sets a mark, or changes one of the sets.  All steps are of the kind `ReportsNew`, and so
  is what is made of them. -/

/-- A step that changes the sets alone. -/
theorem Ranges.withFirst (hf : Ranges g M f) (grew : Bool) {sets : Array SymbolSet} {added : Bool}
    (hsize : sets.size = f.first.size) (hmono : ∀ i t, InTable f.first i t → InTable sets i t)
    (hadded : added = true ↔ ∃ i t, InTable sets i t ∧ ¬ InTable f.first i t)
    (hM : ∀ i t, InTable sets i t → InTable f.first i t ∨ M t) :
    Ranges g M { f with first := sets } ∧
      ReportsNew Holds (f, grew) ({ f with first := sets }, grew || added) := by
  refine ⟨⟨⟨hf.size_nullable, hsize.trans hf.size_first⟩, fun a t ht => ?_⟩, ⟨fun k hk => ?_, ?_⟩⟩
  · exact (hM a t ht).elim (hf.member a t) id
  · cases k with
    | vanishes a => exact hk
    | begins a t => exact hmono a t hk
  · rw [Bool.or_eq_true, hadded]
    refine or_congr_right ⟨?_, ?_⟩
    · rintro ⟨i, t, hin, hout⟩
      exact ⟨.begins i t, hin, hout⟩
    · rintro ⟨k, hin, hout⟩
      cases k with
      | vanishes a => exact absurd hin hout
      | begins a t => exact ⟨a, t, hin, hout⟩

/-- Setting a mark sets this one and no other. -/
theorem isNullable_mark {a b : Nat} (ha : a < f.nullable.size) :
    (Firsts.mk (f.nullable.setIfInBounds a true) f.first).isNullable b = true ↔
      f.isNullable b = true ∨ b = a :=
  (getD_setIfInBounds_true ha b).trans or_comm

/-- A step that sets a mark. -/
theorem Ranges.mark (hf : Ranges g M f) (grew : Bool) {a : Nat} (ha : a < g.nonterminalCount)
    (hnot : ¬ f.isNullable a = true) :
    Ranges g M { f with nullable := f.nullable.setIfInBounds a true } ∧
      ReportsNew Holds (f, grew)
        ({ f with nullable := f.nullable.setIfInBounds a true }, true) := by
  rw [← hf.size_nullable] at ha
  refine ⟨⟨⟨Array.size_setIfInBounds.trans hf.size_nullable, hf.size_first⟩, hf.member⟩,
    ⟨fun k hk => ?_, ?_⟩⟩
  · cases k with
    | vanishes b => exact (isNullable_mark ha).mpr (Or.inl hk)
    | begins b t => exact hk
  · exact iff_of_true rfl (Or.inr ⟨.vanishes a, (isNullable_mark ha).mpr (Or.inr rfl), hnot⟩)

theorem absorb_nonterminal (a b : Nat) (rest : List Symbol) (f : Firsts) (grew : Bool) :
    absorb a (.nonterminal b :: rest) f grew =
      if f.isNullable b = true then
        absorb a rest { f with first := (absorbAt f.first a b).1 }
          (grew || (absorbAt f.first a b).2)
      else
        ({ f with first := (absorbAt f.first a b).1 }, grew || (absorbAt f.first a b).2, false) :=
  rfl

/-- A pass reads the rules from the first to the last. -/
theorem pass_eq (g : Grammar) (f : Firsts) :
    pass g f = ((List.range g.rules.size).map g.rule).foldl readRule (f, false) := by
  rw [← g.toList_rules, pass, Array.foldl_toList]

section

variable (hM : ∀ t, t < g.terminalCount → M t)
include hM

/-- Induction on the symbols that are left to read. -/
theorem absorb_reports {a : Nat} {α : List Symbol} (hf : Ranges g M f) (ha : a < g.nonterminalCount)
    (hin : ∀ x ∈ α, g.alphabet.Has x) (grew : Bool) :
    Ranges g M (absorb a α f grew).1 ∧
      ReportsNew Holds (f, grew) ((absorb a α f grew).1, (absorb a α f grew).2.1) := by
  -- along the string as it is read, with the report so far
  induction α generalizing f grew with
  | nil => exact ⟨hf, .refl Holds _⟩
  | cons x α ih =>
    have hsize : a < f.first.size := hf.size_first ▸ ha
    cases x with
    | terminal u =>
      refine hf.withFirst grew (size_insertAt ..)
        (fun i t hi => (inTable_insertAt hsize).mpr (Or.inl hi))
        (insertAt_grew hsize) fun i t hi => ?_
      refine ((inTable_insertAt hsize).mp hi).imp id fun hnew => ?_
      rw [hnew.2]
      exact hM u (hin _ List.mem_cons_self)
    | nonterminal b =>
      have hstep := hf.withFirst grew (size_absorbAt f.first a b)
        (fun i t hi => (inTable_absorbAt hsize).mpr (Or.inl hi)) (absorbAt_grew hsize) fun i t hi =>
          ((inTable_absorbAt hsize).mp hi).imp id fun hnew => hf.member b t hnew.2
      rw [absorb_nonterminal]
      split
      · obtain ⟨hrange, hreport⟩ := ih hstep.1 (fun y hy => hin y (List.mem_cons_of_mem _ hy))
          (grew || (absorbAt f.first a b).2)
        exact ⟨hrange, hstep.2.trans hreport⟩
      · exact hstep

variable (wf : g.WellFormed)
include wf

theorem readRule_reports {r : Nat} (hf : Ranges g M acc.1) (hr : r < g.rules.size) :
    Ranges g M (readRule acc (g.rule r)).1 ∧ ReportsNew Holds acc (readRule acc (g.rule r)) := by
  have hread := absorb_reports hM hf (wf.lhs_lt hr) (wf.rhs_has hr) acc.2
  rw [readRule]
  split
  · rename_i f grew heq
    rw [heq] at hread
    exact hread
  · rename_i f grew heq
    rw [heq] at hread
    split
    · exact hread
    · rename_i hnot
      obtain ⟨hrange, hreport⟩ := hread.1.mark grew (wf.lhs_lt hr) hnot
      exact ⟨hrange, hread.2.trans hreport⟩

/-- A pass reports a change exactly if it adds something. -/
theorem pass_reports (hf : Ranges g M f) :
    Ranges g M (pass g f).1 ∧ ReportsNew Holds (f, false) (pass g f) := by
  rw [pass_eq]
  refine ReportsNew.foldl (fun rule hrule acc hacc => ?_) hf
  obtain ⟨r, hr, rfl⟩ := List.mem_map.mp hrule
  exact readRule_reports hM wf hacc (List.mem_range.mp hr)

end

/-! ## The number of passes

  Facts about some number of nonterminals, with members below some number, are a finite set.
  Every pass but the last finds one of them. -/

/-- The facts about `m` nonterminals with members below `n`. -/
def facts (m n : Nat) : Finset Fact :=
  (Finset.range m).image .vanishes ∪
    (Finset.range m ×ˢ Finset.range n).image fun p => .begins p.1 p.2

/-- There are so many facts about `m` nonterminals and members below `n`. -/
theorem card_facts_le (m n : Nat) : (facts m n).card ≤ m * n + m := by
  have hvanishes := Finset.card_image_le (s := Finset.range m) (f := Fact.vanishes)
  have hbegins := Finset.card_image_le (s := Finset.range m ×ˢ Finset.range n)
    (f := fun p => Fact.begins p.1 p.2)
  have hunion := Finset.card_union_le ((Finset.range m).image .vanishes)
    ((Finset.range m ×ˢ Finset.range n).image fun p => Fact.begins p.1 p.2)
  rw [Finset.card_range] at hvanishes
  rw [Finset.card_product, Finset.card_range, Finset.card_range] at hbegins
  rw [facts]
  omega

theorem Ranges.mem_facts {n : Nat} (hf : Ranges g (· < n) f) {k : Fact} (hk : f.Holds k) :
    k ∈ facts g.nonterminalCount n := by
  rw [facts, Finset.mem_union, Finset.mem_image, Finset.mem_image]
  cases k with
  | vanishes a =>
    refine Or.inl ⟨a, Finset.mem_range.mpr ?_, rfl⟩
    by_contra hge
    rw [Holds, isNullable, getD_of_size_le _ (by rw [hf.size_nullable]; omega)] at hk
    exact absurd hk (by decide)
  | begins a t =>
    have hlt := hf.member a t hk
    refine Or.inr ⟨(a, t),
      Finset.mem_product.mpr ⟨Finset.mem_range.mpr ?_, Finset.mem_range.mpr hlt⟩, rfl⟩
    by_contra hge
    rw [Holds, firstOf, getD_of_size_le _ (by rw [hf.size_first]; omega)] at hk
    exact not_mem_empty t hk

/-- A pass that reports nothing has changed nothing. -/
theorem pass_eq_of_stayed (wf : g.WellFormed) (hf : Fits g f) (hstay : (pass g f).2 = false) :
    (pass g f).1 = f := by
  obtain ⟨hrange, hreport⟩ := pass_reports (M := fun _ => True) (fun _ _ => trivial) wf
    ⟨hf, fun _ _ _ => trivial⟩
  exact hrange.toFits.eq_of_holds hf (hreport.holds_iff hstay)

/-- From tables whose members are numbers of symbols on, the passes end before the limit is reached
    that `ofGrammar` sets. -/
theorem exists_stopsAfter (wf : g.WellFormed) (hf : Ranges g (· < g.alphabet.size) f) :
    ∃ k, k ≤ g.alphabet.size * g.alphabet.size + g.alphabet.size ∧ StopsAfter (pass g) f k ∧
      untilStable (pass g) (g.alphabet.size * g.alphabet.size + g.alphabet.size + 1) f =
        rounds (pass g) k f := by
  have hM : ∀ t, t < g.terminalCount → t < g.alphabet.size :=
    fun t ht => Nat.lt_add_right _ ht
  have hpass := fun f (hf : Ranges g (· < g.alphabet.size) f) => pass_reports hM wf hf
  have hbound : (facts g.nonterminalCount g.alphabet.size).card ≤
      g.alphabet.size * g.alphabet.size + g.alphabet.size := by
    have hn : g.nonterminalCount ≤ g.alphabet.size := Nat.le_add_left _ _
    exact (card_facts_le _ _).trans (Nat.add_le_add (Nat.mul_le_mul_right _ hn) hn)
  obtain ⟨k, hk, hstops, hresult⟩ :=
    ReportsNew.exists_stopsAfter hpass (fun f hf k hk => hf.mem_facts hk) hf
  refine ⟨k, hk.trans hbound, hstops, ?_⟩
  have hlast := rounds_induction (fun f hf => (hpass f hf).1) hf k
  rw [hresult _ (Nat.lt_succ_of_le hbound), rounds_succ]
  exact pass_eq_of_stayed wf hlast.toFits hstops.last

/-! ## Passes over the grammar of declarations

  The example has a rule that is read too early and a member that no rule accounts for. -/

/-- Whatever the tables hold before a pass, it takes nothing back, it reports a change exactly if
    they hold a fact that they did not hold before, and where it reports nothing another pass would
    change nothing.  If the members are numbers of the `n` symbols, at most `n * n + n` passes in a
    row report a change, and the one after them does not.  The tables of the grammar are what these
    passes make of empty ones. -/
theorem pass_exact {d : Declarations} {g : Grammar} (h : d.resolve = .ok g) :
    (∀ f, Fits g f → Fits g (pass g f).1
      ∧ (∀ k, f.Holds k → (pass g f).1.Holds k)
      ∧ ((pass g f).2 = true ↔ ∃ k, (pass g f).1.Holds k ∧ ¬ f.Holds k)
      ∧ ((pass g f).2 = false → (pass g f).1 = f ∧ pass g (pass g f).1 = ((pass g f).1, false)))
    ∧ (∀ f, Fits g f → (∀ a t, t ∈ f.firstOf a → t < g.alphabet.size) →
        ∃ k ≤ g.alphabet.size * g.alphabet.size + g.alphabet.size, StopsAfter (pass g) f k)
    ∧ ∃ k ≤ g.alphabet.size * g.alphabet.size + g.alphabet.size,
        StopsAfter (pass g) (empty g.nonterminalCount) k
          ∧ ofGrammar g = rounds (pass g) k (empty g.nonterminalCount) := by
  have wf : g.WellFormed := (Declarations.resolved h).wellFormed
  refine ⟨fun f hf => ?_, fun f hf hmember => ?_, exists_stopsAfter wf (.empty g _)⟩
  · obtain ⟨hrange, hreport⟩ := pass_reports (M := fun _ => True) (fun _ _ => trivial) wf
      ⟨hf, fun _ _ _ => trivial⟩
    refine ⟨hrange.toFits, hreport.keeps, hreport.new_iff, fun hstay => ?_⟩
    have hsame := pass_eq_of_stayed wf hf hstay
    refine ⟨hsame, ?_⟩
    rw [hsame]
    exact Prod.ext hsame hstay
  · obtain ⟨k, hk, hstops, -⟩ := exists_stopsAfter wf ⟨hf, hmember⟩
    exact ⟨k, hk, hstops⟩

/-- `X` is read before the empty rule that makes it vanish, and `W` derives no word. -/
def lateMarks : Declarations where
  rules := #[⟨"Z", ["'d'"], none, none⟩, ⟨"Z", ["X", "Y", "Z"], none, none⟩,
    ⟨"X", ["Y"], none, none⟩, ⟨"X", ["'a'"], none, none⟩, ⟨"Y", [], none, none⟩,
    ⟨"Y", ["'c'"], none, none⟩, ⟨"W", ["X", "W", "'w'"], none, none⟩]

/-- The grammar that they declare. -/
def lateMarksGrammar : Grammar where
  alphabet :=
    { terminals := #[⟨"$end", 0, none⟩, ⟨"'d'", 100, none⟩, ⟨"'a'", 97, none⟩, ⟨"'c'", 99, none⟩,
        ⟨"'w'", 119, none⟩]
      nonterminals := #["$start", "Z", "X", "Y", "W"] }
  rules := #[⟨0, [.nonterminal 1, .terminal 0], none, none⟩, ⟨1, [.terminal 1], none, none⟩,
    ⟨1, [.nonterminal 2, .nonterminal 3, .nonterminal 1], none, none⟩,
    ⟨2, [.nonterminal 3], none, none⟩, ⟨2, [.terminal 2], none, none⟩, ⟨3, [], none, none⟩,
    ⟨3, [.terminal 3], none, none⟩, ⟨4, [.nonterminal 2, .nonterminal 4, .terminal 4], none, none⟩]

/-- `Y` is marked, and a number that is no terminal's is a member for `X`. -/
def strayMember : Firsts :=
  ⟨#[false, false, false, true, false], #[∅, ∅, ⟨512⟩, ∅, ∅]⟩

/-- A pass finds that `X` vanishes, and hands the stray member on from `X` to `Z`; also from there
    the passes end. -/
theorem pass_exact_lateMarks : lateMarks.resolve = .ok lateMarksGrammar
    ∧ Fits lateMarksGrammar strayMember
    ∧ (∀ a t, t ∈ strayMember.firstOf a → t < lateMarksGrammar.alphabet.size)
    ∧ (∃ k, (pass lateMarksGrammar strayMember).1.Holds k ∧ ¬ strayMember.Holds k)
    ∧ (pass lateMarksGrammar strayMember).1.Holds (.begins 1 9)
    ∧ (∃ k ≤ 110, StopsAfter (pass lateMarksGrammar) strayMember k)
    ∧ ∃ k ≤ 110, StopsAfter (pass lateMarksGrammar) (empty 5) k
        ∧ ofGrammar lateMarksGrammar = rounds (pass lateMarksGrammar) k (empty 5) := by
  have hres : lateMarks.resolve = .ok lateMarksGrammar := by cbv
  have hpass : pass lateMarksGrammar strayMember =
      (⟨#[false, false, true, true, false], #[∅, ⟨514⟩, ⟨516⟩, ⟨8⟩, ⟨516⟩]⟩, true) := by cbv
  have hfits : Fits lateMarksGrammar strayMember := ⟨rfl, rfl⟩
  have hbits : ∀ a, (strayMember.firstOf a).bits < 2 ^ 10 := by
    intro a
    rcases Nat.lt_or_ge a 5 with ha | ha
    · have hall : ∀ b : Fin 5, (strayMember.firstOf b).bits < 2 ^ 10 := by decide
      exact hall ⟨a, ha⟩
    · rw [firstOf, getD_of_size_le _ ha]
      decide
  have hmember : ∀ a t, t ∈ strayMember.firstOf a → t < lateMarksGrammar.alphabet.size := by
    intro a t ht
    by_contra hge
    have hpow : 2 ^ 10 ≤ 2 ^ t := Nat.pow_le_pow_right (by decide) (Nat.le_of_not_lt hge)
    have hmem : 2 ^ t ≤ (strayMember.firstOf a).bits := Nat.ge_two_pow_of_testBit ht
    have hlt := hbits a
    omega
  obtain ⟨hstep, hends, hresult⟩ := pass_exact hres
  obtain ⟨-, -, hreport, -⟩ := hstep _ hfits
  refine ⟨hres, hfits, hmember, hreport.mp (congrArg Prod.snd hpass), ?_, hends _ hfits hmember,
    hresult⟩
  rw [hpass]
  show 9 ∈ (⟨514⟩ : SymbolSet)
  decide

end Firsts

end Lalr
