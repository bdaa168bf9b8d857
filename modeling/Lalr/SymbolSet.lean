/-
  Finite sets of symbol numbers, tables of such sets, and passes that fill the tables.

  A set is a natural number read in binary: `t` belongs to it if bit `t` is set.  Operations that
  may grow a set also say whether they did, since a computation that runs to a fixed point stops on
  that answer:

    * `s.insert t`, `s.union u`         the larger set, and whether it is larger;
    * `insertAt sets i t`               the same inside a table of sets;
    * `absorbAt sets dst src`            the set in `src` flows into the set in `dst`.

  `toList` gives the members in increasing order.

  A pass returns the new value and says whether it differs from the old one (`untilStable`).  All
  passes of this library only ever add to a finite table, so a bound on their number is known from
  the size of that table; the callers compute it.
-/

namespace Lalr

/-- Repeats `pass` until it reports no change, but at most `limit` times. -/
def untilStable {σ : Type} (pass : σ → σ × Bool) : Nat → σ → σ
  | 0, s => s
  | limit + 1, s =>
    match pass s with
    | (next, true) => untilStable pass limit next
    | (next, false) => next

/-- A set of symbol numbers. -/
structure SymbolSet where
  bits : Nat
  deriving DecidableEq, Repr, Inhabited

namespace SymbolSet

instance : EmptyCollection SymbolSet := ⟨⟨0⟩⟩

instance : Membership Nat SymbolSet := ⟨fun s t => s.bits.testBit t = true⟩

instance (t : Nat) (s : SymbolSet) : Decidable (t ∈ s) :=
  inferInstanceAs (Decidable (s.bits.testBit t = true))

/-- Adds a number; also says whether it is new. -/
def insert (s : SymbolSet) (t : Nat) : SymbolSet × Bool :=
  (⟨s.bits ||| 1 <<< t⟩, !s.bits.testBit t)

/-- Adds all members of another set; also says whether any is new. -/
def union (s u : SymbolSet) : SymbolSet × Bool :=
  let bits := s.bits ||| u.bits
  (⟨bits⟩, bits != s.bits)

/-- The members in increasing order. -/
def toList (s : SymbolSet) : List Nat :=
  (List.range (s.bits.log2 + 1)).filter s.bits.testBit

/-- Adds a number to the set at `i`; also says whether it is new there. -/
def insertAt (sets : Array SymbolSet) (i t : Nat) : Array SymbolSet × Bool :=
  let grown := (sets.getD i ∅).insert t
  (sets.setIfInBounds i grown.1, grown.2)

/-- Adds the members of the set at `src` to the set at `dst`; also says whether any is new. -/
def absorbAt (sets : Array SymbolSet) (dst src : Nat) : Array SymbolSet × Bool :=
  let grown := (sets.getD dst ∅).union (sets.getD src ∅)
  (sets.setIfInBounds dst grown.1, grown.2)

/-! ## Membership -/

theorem mem_iff_testBit {s : SymbolSet} {t : Nat} : t ∈ s ↔ s.bits.testBit t = true := Iff.rfl

@[simp] theorem not_mem_empty (t : Nat) : t ∉ (∅ : SymbolSet) := by
  simp [mem_iff_testBit, EmptyCollection.emptyCollection]

@[ext] theorem ext {s u : SymbolSet} (h : ∀ t, t ∈ s ↔ t ∈ u) : s = u := by
  cases s; cases u
  simp only [mk.injEq]
  exact Nat.eq_of_testBit_eq fun i => Bool.eq_iff_iff.2 (h i)

@[simp] theorem mem_insert {s : SymbolSet} {t u : Nat} : u ∈ (s.insert t).1 ↔ u ∈ s ∨ u = t := by
  rw [mem_iff_testBit, mem_iff_testBit, insert, Nat.one_shiftLeft, Nat.testBit_or,
    Nat.testBit_two_pow, Bool.or_eq_true, decide_eq_true_eq, eq_comm (a := t)]

@[simp] theorem mem_union {s u : SymbolSet} {t : Nat} : t ∈ (s.union u).1 ↔ t ∈ s ∨ t ∈ u := by
  rw [mem_iff_testBit, mem_iff_testBit, mem_iff_testBit, union, Nat.testBit_or, Bool.or_eq_true]

@[simp] theorem mem_toList {s : SymbolSet} {t : Nat} : t ∈ s.toList ↔ t ∈ s := by
  simp only [toList, List.mem_filter, List.mem_range, mem_iff_testBit, and_iff_right_iff_imp]
  intro h
  have hne : s.bits ≠ 0 := fun h0 => by simp [h0] at h
  exact Nat.lt_succ_of_le ((Nat.le_log2 hne).2 (Nat.ge_two_pow_of_testBit h))

end SymbolSet

end Lalr
