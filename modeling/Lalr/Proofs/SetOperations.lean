/-
  Tables of sets under sequences of operations.

  A table of `k` sets of numbers below a width is kept in two forms, as numbers (`SymbolSet`) and in
  blocks of machine words (`BlockSet`).  Both are compared with a family of `k` finite sets, where
  an operation enlarges its destination, leaves all other sets alone, and answers whether the
  destination gained a member (`enlarge`).

  Structure:
    1. `Presents table family`: the sets of a table have the members of the sets of a family;
    2. one operation on either form has the result that it has on the family (`onSets_follows`,
       `onBlocks_follows`), so every sequence of operations has (`Follows.run`);
    3. `run_exact`: from empty sets on, both forms have the right members and give the right
       answers, and they list their members in increasing order.
-/
import Mathlib
import Lalr.Proofs.BlockSet
import Lalr.Proofs.Growth

namespace Lalr

/-- One operation on a table of `k` sets of numbers below `width`. -/
inductive SetOperation (width k : Nat)
  /-- a number is added to the set at `dst` -/
  | insert (dst : Fin k) (t : Fin width)
  /-- the set at `dst` takes the members of a set outside the table, a copy of the one at `src` -/
  | unite (dst src : Fin k)
  /-- the set at `dst` takes the members of the one at `src`, both in their table -/
  | absorb (dst src : Fin k)
  deriving DecidableEq, Repr

namespace SetOperation

variable {width k : Nat}

/-! ## What an operation does

  An operation does not depend on how sets are kept.  What it does is said once on finite sets,
  and once for each form in which sets are kept. -/

/-- The set at `dst` takes the members of a finite set and no other set changes.  The answer is
    whether the set at `dst` gained a member. -/
def enlarge (family : Fin k → Finset Nat) (dst : Fin k) (m : Finset Nat) :
    (Fin k → Finset Nat) × Bool :=
  let grown := family dst ∪ m
  (Function.update family dst grown, decide (∃ t ∈ grown, t ∉ family dst))

/-- The operation on a family of finite sets. -/
def onFamily : SetOperation width k → (Fin k → Finset Nat) → (Fin k → Finset Nat) × Bool
  | insert dst t, family => enlarge family dst {t.val}
  | unite dst src, family => enlarge family dst (family src)
  | absorb dst src, family => enlarge family dst (family src)

/-- The operation on sets that are kept as numbers. -/
def onSets : SetOperation width k → Array SymbolSet → Option (Array SymbolSet × Bool)
  | insert dst t, sets => some (SymbolSet.insertAt sets dst t)
  | unite dst src, sets => do
    let (grown, grew) := (← sets[dst.val]?).union (← sets[src.val]?)
    some (sets.setIfInBounds dst grown, grew)
  | absorb dst src, sets => some (SymbolSet.absorbAt sets dst src)

/-- The operation on sets that are kept in blocks. -/
def onBlocks : SetOperation width k → Array (BlockSet width) →
    Option (Array (BlockSet width) × Bool)
  | insert dst t, sets => BlockSet.insertAt? sets dst t
  | unite dst src, sets => do BlockSet.uniteAt? sets dst (← sets[src.val]?)
  | absorb dst src, sets => BlockSet.absorbAt? sets dst src

/-- Carries out operations one after the other, as long as each has a result, and keeps the
    answers. -/
def run {σ : Type} (perform : SetOperation width k → σ → Option (σ × Bool)) :
    List (SetOperation width k) → σ → Option (σ × List Bool)
  | [], s => some (s, [])
  | op :: ops, s => do
    let (s, answer) ← perform op s
    let (s, answers) ← run perform ops s
    some (s, answer :: answers)

/-! ## Tables that present a family of finite sets

  A table presents a family if membership is the same.  Then inserting and uniting is the same as
  well, with the same answers. -/

section Presents

variable {α : Type} [Membership Nat α] {table : Array α} {family : Fin k → Finset Nat}

/-- The sets of a table have the members of the sets of a family. -/
structure Presents (table : Array α) (family : Fin k → Finset Nat) : Prop where
  size_eq : table.size = k
  mem_iff : ∀ (i : Fin k) {s : α}, table[i.val]? = some s → ∀ t, t ∈ s ↔ t ∈ family i

/-- Empty sets present the empty family. -/
theorem Presents.replicate {s : α} (hs : ∀ t, t ∉ s) :
    Presents (Array.replicate k s) fun _ : Fin k => ∅ := by
  refine ⟨Array.size_replicate, fun i s' hread t => ?_⟩
  rw [Array.getElem?_replicate, if_pos i.isLt] at hread
  obtain rfl := Option.some.inj hread
  exact iff_of_false (hs t) (Finset.notMem_empty t)

variable (h : Presents table family)
include h

/-- A place in the family is a place in the table. -/
theorem Presents.lt_size (i : Fin k) : i.val < table.size := by
  rw [h.size_eq]
  exact i.isLt

/-- At each place stands a set with the members of the family's. -/
theorem Presents.exists_getElem? (i : Fin k) :
    ∃ s, table[i.val]? = some s ∧ ∀ t, t ∈ s ↔ t ∈ family i := by
  have hread := Array.getElem?_eq_getElem (h.lt_size i)
  exact ⟨_, hread, h.mem_iff i hread⟩

/-- A set is overwritten in the table and in the family. -/
theorem Presents.update (dst : Fin k) {grown : α} {m : Finset Nat}
    (hgrown : ∀ t, t ∈ grown ↔ t ∈ m) :
    Presents (table.setIfInBounds dst grown) (Function.update family dst m) := by
  refine ⟨by rw [Array.size_setIfInBounds, h.size_eq], fun i s hread t => ?_⟩
  by_cases hi : i = dst
  · subst hi
    rw [Array.getElem?_setIfInBounds_self_of_lt (h.lt_size i)] at hread
    obtain rfl := Option.some.inj hread
    rw [Function.update_self]
    exact hgrown t
  · have hne : dst.val ≠ i.val := fun heq => hi (Fin.ext heq.symm)
    rw [Array.getElem?_setIfInBounds_ne hne] at hread
    rw [Function.update_of_ne hi]
    exact h.mem_iff i hread t

/-- A set that takes the members of `m`, with an exact report, is enlarged by `m`. -/
theorem Presents.enlarge {dst : Fin k} {old grown : α} {answer : Bool} {m : Finset Nat}
    (hread : table[dst.val]? = some old) (hgrown : ∀ t, t ∈ grown ↔ t ∈ old ∨ t ∈ m)
    (hanswer : answer = true ↔ ∃ t ∈ m, t ∉ old) :
    answer = (SetOperation.enlarge family dst m).2 ∧
      Presents (table.setIfInBounds dst grown) (SetOperation.enlarge family dst m).1 := by
  have hold := h.mem_iff dst hread
  constructor
  · rw [Bool.eq_iff_iff, hanswer]
    simp only [SetOperation.enlarge, hold, decide_eq_true_eq, Finset.mem_union]
    constructor
    · rintro ⟨t, hm, hnew⟩
      exact ⟨t, Or.inr hm, hnew⟩
    · rintro ⟨t, hmem, hnew⟩
      exact ⟨t, hmem.resolve_left hnew, hnew⟩
  · refine h.update dst fun t => ?_
    rw [hgrown t, hold t, Finset.mem_union]

/-- Inserting a member into one set of the table enlarges that set of the family. -/
theorem Presents.insert {dst : Fin k} {old grown : α} {isNew : Bool} {t : Nat}
    (hread : table[dst.val]? = some old) (hgrown : ∀ v, v ∈ grown ↔ v ∈ old ∨ v = t)
    (hnew : isNew = true ↔ t ∉ old) :
    isNew = (SetOperation.enlarge family dst {t}).2 ∧
      Presents (table.setIfInBounds dst grown) (SetOperation.enlarge family dst {t}).1 := by
  refine h.enlarge hread (fun v => ?_) ?_
  · rw [hgrown v, Finset.mem_singleton]
  · rw [hnew]
    simp

/-- Adding one set of the table to another enlarges that one by the members of the first. -/
theorem Presents.union {union : α → α → α × Bool} {dst src : Fin k} {old u : α}
    (hdst : table[dst.val]? = some old) (hsrc : table[src.val]? = some u)
    (hmem : ∀ t, t ∈ (union old u).1 ↔ t ∈ old ∨ t ∈ u)
    (hgrew : (union old u).2 = true ↔ ∃ t, t ∈ u ∧ t ∉ old) :
    (union old u).2 = (SetOperation.enlarge family dst (family src)).2 ∧
      Presents (table.setIfInBounds dst (union old u).1)
        (SetOperation.enlarge family dst (family src)).1 := by
  have hu := h.mem_iff src hsrc
  refine h.enlarge hdst (fun t => ?_) ?_
  · rw [hmem t, hu t]
  · simp only [hgrew, hu]

end Presents

/-! ## One operation, and many

  Induction on the sequence of operations, for both forms of sets at once. -/

/-- Operations on tables have the results that they have on the families presented by the tables. -/
def Follows {α : Type} [Membership Nat α]
    (perform : SetOperation width k → Array α → Option (Array α × Bool)) : Prop :=
  ∀ (op : SetOperation width k) {table : Array α} {family : Fin k → Finset Nat},
    Presents table family → ∃ table', perform op table = some (table', (op.onFamily family).2) ∧
      Presents table' (op.onFamily family).1

/-- Sets of bits in one number follow the family. -/
theorem onSets_follows : Follows (@onSets width k) := by
  intro op table family h
  cases op with
  | insert dst t =>
    obtain ⟨old, hdst, -⟩ := h.exists_getElem? dst
    -- the place is in the table, so the default is not used
    have hgetD : table.getD dst ∅ = old := by
      rw [Array.getD_eq_getD_getElem?, hdst]
      rfl
    obtain ⟨hanswer, hnext⟩ := h.insert hdst (fun _ => SymbolSet.mem_insert) SymbolSet.insert_grew
    refine ⟨_, ?_, hnext⟩
    rw [onSets, SymbolSet.insertAt, hgetD, hanswer]
    rfl
  | unite dst src =>
    obtain ⟨old, hdst, -⟩ := h.exists_getElem? dst
    obtain ⟨u, hsrc, -⟩ := h.exists_getElem? src
    obtain ⟨hanswer, hnext⟩ :=
      h.union hdst hsrc (fun _ => SymbolSet.mem_union) SymbolSet.union_grew
    refine ⟨_, ?_, hnext⟩
    simp only [onSets, hdst, hsrc, Option.bind_eq_bind, Option.bind_some, hanswer]
    rfl
  | absorb dst src =>
    obtain ⟨old, hdst, -⟩ := h.exists_getElem? dst
    obtain ⟨u, hsrc, -⟩ := h.exists_getElem? src
    have hgetD : table.getD dst ∅ = old ∧ table.getD src ∅ = u := by
      rw [Array.getD_eq_getD_getElem?, hdst, Array.getD_eq_getD_getElem?, hsrc]
      exact ⟨rfl, rfl⟩
    obtain ⟨hanswer, hnext⟩ :=
      h.union hdst hsrc (fun _ => SymbolSet.mem_union) SymbolSet.union_grew
    refine ⟨_, ?_, hnext⟩
    rw [onSets, SymbolSet.absorbAt, hgetD.1, hgetD.2, hanswer]
    rfl

/-- Sets of blocks follow the family, whatever their width. -/
theorem onBlocks_follows : Follows (@onBlocks width k) := by
  intro op table family h
  -- each operation reads its sets, and writes one; the family changes in the same place
  cases op with
  | insert dst t =>
    obtain ⟨old, hdst, -⟩ := h.exists_getElem? dst
    obtain ⟨grown, isNew, hinsert, hmem, hnew⟩ := BlockSet.insertAt?_spec hdst t.isLt
    obtain ⟨hanswer, hnext⟩ := h.insert hdst hmem hnew
    refine ⟨_, ?_, hnext⟩
    rw [onBlocks, hinsert, hanswer]
    rfl
  | unite dst src =>
    obtain ⟨old, hdst, -⟩ := h.exists_getElem? dst
    obtain ⟨u, hsrc, -⟩ := h.exists_getElem? src
    obtain ⟨hanswer, hnext⟩ := h.union hdst hsrc (fun _ => BlockSet.mem_union) BlockSet.union_grew
    refine ⟨_, ?_, hnext⟩
    simp only [onBlocks, hsrc, Option.bind_eq_bind, Option.bind_some, BlockSet.uniteAt?_eq hdst,
      hanswer]
    rfl
  | absorb dst src =>
    obtain ⟨old, hdst, -⟩ := h.exists_getElem? dst
    obtain ⟨u, hsrc, -⟩ := h.exists_getElem? src
    obtain ⟨hanswer, hnext⟩ := h.union hdst hsrc (fun _ => BlockSet.mem_union) BlockSet.union_grew
    refine ⟨_, ?_, hnext⟩
    rw [onBlocks, BlockSet.absorbAt?_eq hdst hsrc, hanswer]
    rfl

/-- A sequence of operations on tables follows the same sequence on families. -/
theorem Follows.run {α : Type} [Membership Nat α]
    {perform : SetOperation width k → Array α → Option (Array α × Bool)}
    (hfollows : Follows perform)
    (ops : List (SetOperation width k)) {table : Array α} {family : Fin k → Finset Nat}
    (h : Presents table family) :
    ∃ table' family' answers, SetOperation.run perform ops table = some (table', answers) ∧
      SetOperation.run (fun op family => some (op.onFamily family)) ops family =
        some (family', answers) ∧
      Presents table' family' := by
  induction ops generalizing table family with
  | nil => exact ⟨table, family, [], rfl, rfl, h⟩
  | cons op ops ih =>
    obtain ⟨next, hnext, hpresents⟩ := hfollows op h
    obtain ⟨last, family', answers, hrun, hfamily, hlast⟩ := ih hpresents
    refine ⟨last, family', (op.onFamily family).2 :: answers, ?_, ?_, hlast⟩
    · simp only [SetOperation.run, hnext, Option.bind_eq_bind, Option.bind_some, hrun]
    · simp only [SetOperation.run, Option.bind_eq_bind, Option.bind_some, hfamily]

/-! ## Sequences that start with empty sets -/

/-- A list has the members of a finite set, each once and in increasing order. -/
def IsListing (list : List Nat) (m : Finset Nat) : Prop :=
  list.Pairwise (· < ·) ∧ ∀ t, t ∈ list ↔ t ∈ m

/-- A set of bits is listed in order, each member once. -/
theorem isListing_toList {s : SymbolSet} {m : Finset Nat} (h : ∀ t, t ∈ s ↔ t ∈ m) :
    IsListing s.toList m :=
  ⟨List.pairwise_lt_range.filter _, fun t => by rw [SymbolSet.mem_toList, h t]⟩

/-- A set of blocks is listed in order, each member once. -/
theorem isListing_toList_blocks {s : BlockSet width} {m : Finset Nat} (h : ∀ t, t ∈ s ↔ t ∈ m) :
    IsListing s.toList m :=
  ⟨s.pairwise_toList, fun t => by rw [BlockSet.mem_toList, h t]⟩

/-- Every sequence of operations on `k` empty sets has a result, whether the sets are kept in blocks
    or as numbers.  The answers are those on finite sets, so each says whether the destination
    gained a member; the sets have exactly the members of the finite sets, and list them in
    increasing order. -/
theorem run_exact (width k : Nat) (ops : List (SetOperation width k)) :
    ∃ (blocks : Array (BlockSet width)) (sets : Array SymbolSet) (family : Fin k → Finset Nat)
      (answers : List Bool),
      run onBlocks ops (Array.replicate k (BlockSet.empty width)) = some (blocks, answers) ∧
      run onSets ops (Array.replicate k ∅) = some (sets, answers) ∧
      run (fun op family => some (op.onFamily family)) ops (fun _ => ∅) = some (family, answers) ∧
      blocks.size = k ∧ sets.size = k ∧
      ∀ i : Fin k, ∃ b s, blocks[i.val]? = some b ∧ sets[i.val]? = some s ∧
        (∀ t, t ∈ b ↔ t ∈ family i) ∧ (∀ t, t ∈ s ↔ t ∈ family i) ∧
        IsListing b.toList (family i) ∧ IsListing s.toList (family i) := by
  have hblocks : Presents (Array.replicate k (BlockSet.empty width)) fun _ : Fin k => ∅ :=
    Presents.replicate (BlockSet.not_mem_empty width)
  have hsets : Presents (Array.replicate k (∅ : SymbolSet)) fun _ : Fin k => ∅ :=
    Presents.replicate SymbolSet.not_mem_empty
  -- both runs follow the family, and that has one run only
  obtain ⟨blocks, family, answers, hrun, hfamily, hpresents⟩ := onBlocks_follows.run ops hblocks
  obtain ⟨sets, family', answers', hrun', hfamily', hpresents'⟩ := onSets_follows.run ops hsets
  obtain ⟨rfl, rfl⟩ := Prod.mk.inj (Option.some.inj (hfamily.symm.trans hfamily'))
  refine ⟨blocks, sets, family, answers, hrun, hrun', hfamily, hpresents.size_eq,
    hpresents'.size_eq, fun i => ?_⟩
  obtain ⟨b, hb, hmem⟩ := hpresents.exists_getElem? i
  obtain ⟨s, hs, hmem'⟩ := hpresents'.exists_getElem? i
  exact ⟨b, s, hb, hs, hmem, hmem', isListing_toList_blocks hmem, isListing_toList hmem'⟩

-- numbers of both blocks of a width that does not fill the second one
example : (run (@onBlocks 70 2) [insert 0 3, insert 1 65, absorb 0 1, unite 1 1, insert 0 65]
    (Array.replicate 2 (BlockSet.empty 70))).map (fun (sets, answers) =>
      (sets.toList.map BlockSet.toList, answers)) =
      some ([[3, 65], [65]], [true, true, true, false, false]) := by
  cbv

end SetOperation

end Lalr
