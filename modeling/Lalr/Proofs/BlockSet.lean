/-
  Blocks of bits are sets.

  `BlockSet` splits a number into a block and a bit and computes on whole words.  Here the words are
  read as sets again:

    1. one block: `block &&& (block - 1)` is the block without its lowest bit
       (`getLsbD_and_sub_one`), so stripping lowest bits lists the bits of a block in increasing
       order (`Bits.mem_toList`, `Bits.pairwise_toList`);
    2. one set: what `insert?` and `union` add, and that their reports are exact (`insert?_spec`,
       `mem_union`, `union_grew`); `toList` has the members in increasing order (`mem_toList`,
       `pairwise_toList`);
    3. a table of sets: an operation writes the set at its destination and no other.  Cutting the
       table in two makes no difference (`absorbAt?_eq`).
-/
import Mathlib
import Lalr.BlockSet

namespace Lalr

/-! ## One block

  Bit by bit, what the operations on words do.  Only subtraction is not one of them: it carries,
  and its carry stops at the lowest bit that is set. -/

section Block

variable {block : BitVec 64} {i : Nat}

/-- The mask of a bit meets a block exactly if the bit is set there. -/
theorem and_mask_eq_zero (hi : i < 64) : block &&& 1#64 <<< i = 0 ↔ block.getLsbD i = false := by
  rw [← BitVec.twoPow_eq, BitVec.and_twoPow]
  by_cases hbit : block.getLsbD i = true
  · have hpow : BitVec.twoPow 64 i ≠ 0 := by
      intro h0
      have hself : (BitVec.twoPow 64 i).getLsbD i = true := by
        rw [BitVec.getLsbD_twoPow]
        simp [hi]
      rw [h0] at hself
      simp at hself
    rw [if_pos hbit, hbit]
    exact iff_of_false hpow (by decide)
  · rw [if_neg hbit]
    simp [hbit]

/-- Setting a bit sets this one and no other. -/
theorem getLsbD_or_mask (hi : i < 64) (j : Nat) :
    (block ||| 1#64 <<< i).getLsbD j = (block.getLsbD j || decide (j = i)) := by
  rw [← BitVec.twoPow_eq, BitVec.getLsbD_or, BitVec.getLsbD_twoPow]
  simp [hi, eq_comm]

/-- A block has a bit that another lacks exactly if a word test says so. -/
theorem and_not_ne_zero {bits : BitVec 64} :
    bits &&& ~~~block ≠ 0 ↔ ∃ j < 64, bits.getLsbD j = true ∧ block.getLsbD j = false := by
  constructor
  · intro hne
    by_contra hall
    refine hne (BitVec.eq_of_getLsbD_eq fun j hj => ?_)
    rw [BitVec.getLsbD_and, BitVec.getLsbD_not]
    by_cases hbits : bits.getLsbD j = true
    · have hblock : block.getLsbD j = true := by
        by_contra h
        exact hall ⟨j, hj, hbits, by simpa using h⟩
      simp [hblock]
    · simp [hbits]
  · rintro ⟨j, hj, hbits, hblock⟩ h0
    have hbit : (bits &&& ~~~block).getLsbD j = true := by
      rw [BitVec.getLsbD_and, BitVec.getLsbD_not, hbits, hblock]
      simp [hj]
    rw [h0] at hbit
    simp at hbit

/-- A nonzero block is an odd number of times the power of its lowest bit. -/
theorem toNat_eq_of_ne_zero (hne : block ≠ 0) :
    ∃ q, block.toNat = 2 ^ (block.ctz.toNat + 1) * q + 2 ^ block.ctz.toNat := by
  have hset : block.toNat.testBit block.ctz.toNat = true := by
    rw [BitVec.testBit_toNat]
    exact BitVec.getLsbD_true_ctz_of_ne_zero hne
  have hclear : ∀ j < block.ctz.toNat, block.toNat.testBit j = false := by
    intro j hj
    rw [BitVec.testBit_toNat]
    exact BitVec.getLsbD_false_of_lt_ctz hj
  generalize block.ctz.toNat = t at hset hclear
  have hlow : block.toNat % 2 ^ (t + 1) = 2 ^ t := by
    refine Nat.eq_of_testBit_eq fun j => ?_
    rw [Nat.testBit_mod_two_pow, Nat.testBit_two_pow]
    rcases Nat.lt_trichotomy j t with hj | rfl | hj
    · rw [hclear j hj]
      simp [show t ≠ j by omega]
    · simp [hset]
    · simp [show ¬ j < t + 1 by omega, show t ≠ j by omega]
  refine ⟨block.toNat / 2 ^ (t + 1), ?_⟩
  rw [← hlow]
  exact (Nat.div_add_mod block.toNat (2 ^ (t + 1))).symm

/-- The word `block &&& (block - 1)` is the block without its lowest bit: the subtraction clears
    that bit, sets those below it and keeps those above it. -/
theorem getLsbD_and_sub_one (hne : block ≠ 0) (j : Nat) :
    (block &&& (block - 1)).getLsbD j = (block.getLsbD j && decide (j ≠ block.ctz.toNat)) := by
  obtain ⟨q, hq⟩ := toNat_eq_of_ne_zero hne
  generalize block.ctz.toNat = t at hq
  have hpow : 0 < 2 ^ t := Nat.two_pow_pos t
  have hlt : 2 ^ t < 2 ^ (t + 1) := Nat.pow_lt_pow_right (by decide) (Nat.lt_succ_self t)
  have hone : (1 : BitVec 64) ≤ block := by
    show 1 ≤ block.toNat
    omega
  have hsub : (block - 1).toNat = 2 ^ (t + 1) * q + (2 ^ t - 1) := by
    rw [BitVec.toNat_sub_of_le hone, hq]
    show 2 ^ (t + 1) * q + 2 ^ t - 1 = 2 ^ (t + 1) * q + (2 ^ t - 1)
    omega
  have hlt' : 2 ^ t - 1 < 2 ^ (t + 1) := by omega
  -- above bit `t` both numbers have the bits of `q`, up to it those of `2 ^ t` and of `2 ^ t - 1`
  rw [BitVec.getLsbD_and, ← BitVec.testBit_toNat, ← BitVec.testBit_toNat, hsub, hq,
    Nat.testBit_two_pow_mul_add q hlt, Nat.testBit_two_pow_mul_add q hlt', Nat.testBit_two_pow,
    Nat.testBit_two_pow_sub_one]
  rcases Nat.lt_trichotomy j t with hj | rfl | hj
  · simp [show j < t + 1 by omega, show t ≠ j by omega]
  · simp
  · simp [show ¬ j < t + 1 by omega, show j ≠ t by omega]

end Block

/-! ## Listing the bits of a block

  A step takes the lowest bit away and leaves a smaller number.  The inductions follow the
  listing, so they speak of a block from some base on, not of a whole set. -/

namespace Bits

variable {b rest : Bits} {t u : Nat}

/-- The numbers that the bits stand for. -/
def Has (b : Bits) (t : Nat) : Prop :=
  ∃ j, b.block.getLsbD j = true ∧ t = b.base + j

/-- What a block holds lies among the 64 numbers from its base on. -/
theorem Has.range (h : b.Has t) : b.base ≤ t ∧ t < b.base + 64 := by
  obtain ⟨j, hj, rfl⟩ := h
  have hlt : j < 64 := by
    by_contra hge
    rw [BitVec.getLsbD_of_ge _ _ (by omega)] at hj
    exact absurd hj (by decide)
  omega

/-- A block without a next bit is empty. -/
theorem next?_eq_none (h : b.next? = none) : ¬ b.Has t := by
  have h0 : b.block = 0 := by
    by_contra hne
    rw [next?, if_neg hne] at h
    exact absurd h (by simp)
  rintro ⟨j, hj, -⟩
  rw [h0] at hj
  simp at hj

/-- A step takes the least number away. -/
theorem next?_eq_some (h : b.next? = some (t, rest)) :
    b.Has t ∧ (∀ u, b.Has u → t ≤ u) ∧ ∀ u, rest.Has u ↔ b.Has u ∧ u ≠ t := by
  have hne : b.block ≠ 0 := by
    intro h0
    rw [next?, if_pos h0] at h
    exact absurd h (by simp)
  rw [next?, if_neg hne] at h
  obtain ⟨rfl, rfl⟩ := Prod.mk.inj (Option.some.inj h)
  refine ⟨⟨b.block.ctz.toNat, BitVec.getLsbD_true_ctz_of_ne_zero hne, rfl⟩, ?_, fun u => ?_⟩
  · rintro u ⟨j, hj, rfl⟩
    have hle : b.block.ctz.toNat ≤ j := by
      by_contra hlt
      rw [BitVec.getLsbD_false_of_lt_ctz (by omega)] at hj
      exact absurd hj (by decide)
    omega
  · simp only [Has, getLsbD_and_sub_one hne, Bool.and_eq_true, decide_eq_true_eq]
    constructor
    · rintro ⟨j, ⟨hj, hother⟩, rfl⟩
      exact ⟨⟨j, hj, rfl⟩, by omega⟩
    · rintro ⟨⟨j, hj, rfl⟩, hother⟩
      exact ⟨j, ⟨hj, by omega⟩, rfl⟩

/-- An empty block has nothing to list. -/
theorem toList_eq_nil (h : b.next? = none) : b.toList = [] := by
  rw [toList]
  split
  · rfl
  · rename_i hnext
    rw [h] at hnext
    exact absurd hnext (by simp)

/-- Else the lowest bit comes first, and what is left of the block behind it. -/
theorem toList_eq_cons (h : b.next? = some (t, rest)) : b.toList = t :: rest.toList := by
  rw [toList]
  split
  · rename_i hnext
    rw [h] at hnext
    exact absurd hnext (by simp)
  · rename_i hnext
    rw [h] at hnext
    obtain ⟨rfl, rfl⟩ := Prod.mk.inj (Option.some.inj hnext)
    rfl

/-- A block lists what it holds. -/
theorem mem_toList (b : Bits) : ∀ u, u ∈ b.toList ↔ b.Has u := by
  induction b using toList.induct with
  | case1 b h =>
    intro u
    rw [toList_eq_nil h]
    exact iff_of_false List.not_mem_nil (next?_eq_none h)
  | case2 b t rest h ih =>
    obtain ⟨hmem, -, hrest⟩ := next?_eq_some h
    intro u
    rw [toList_eq_cons h, List.mem_cons, ih u, hrest u]
    constructor
    · rintro (rfl | ⟨hu, -⟩)
      · exact hmem
      · exact hu
    · intro hu
      by_cases heq : u = t
      · exact Or.inl heq
      · exact Or.inr ⟨hu, heq⟩

/-- The list is in order, so nothing is listed twice. -/
theorem pairwise_toList (b : Bits) : b.toList.Pairwise (· < ·) := by
  induction b using toList.induct with
  | case1 b h =>
    rw [toList_eq_nil h]
    exact List.Pairwise.nil
  | case2 b t rest h ih =>
    obtain ⟨-, hleast, hrest⟩ := next?_eq_some h
    rw [toList_eq_cons h]
    refine List.pairwise_cons.mpr ⟨fun u hu => ?_, ih⟩
    obtain ⟨hhas, hne⟩ := (hrest u).mp ((mem_toList rest u).mp hu)
    exact Nat.lt_of_le_of_ne (hleast u hhas) hne.symm

end Bits

/-! ## Sets

  A number is in a set if its bit is set in its block.  What is said of one block holds of all,
  since numbers in different blocks do not meet. -/

namespace BlockSet

variable {width : Nat} {s u : BlockSet width} {t : Nat}

/-- A number below the width has a block. -/
theorem div_lt_blockCount (h : t < width) : t / 64 < blockCount width := by
  unfold blockCount
  omega

theorem mem_iff :
    t ∈ s ↔ ∃ h : t / 64 < blockCount width, s.blocks[t / 64].getLsbD (t % 64) = true := by
  show ((s.blocks[t / 64]?.getD 0 &&& 1#64 <<< (t % 64)) != 0) = true ↔ _
  rw [bne_iff_ne, Ne, and_mask_eq_zero (Nat.mod_lt t (by decide)), Bool.not_eq_false]
  by_cases h : t / 64 < blockCount width
  · simp [h]
  · simp [h]

/-- Membership is a bit of the number's block. -/
theorem mem_iff_getLsbD (h : t / 64 < blockCount width) :
    t ∈ s ↔ s.blocks[t / 64].getLsbD (t % 64) = true := by
  rw [mem_iff]
  exact ⟨fun ⟨_, hbit⟩ => hbit, fun hbit => ⟨h, hbit⟩⟩

/-- Bit `j` of block `i` stands for the number `i * 64 + j`. -/
theorem mem_block {i j : Nat} (hi : i < blockCount width) (hj : j < 64) :
    i * 64 + j ∈ s ↔ s.blocks[i].getLsbD j = true := by
  have hdiv : (i * 64 + j) / 64 = i := by omega
  have hmod : (i * 64 + j) % 64 = j := by omega
  rw [mem_iff]
  simp only [hdiv, hmod, hi, exists_true_left]

@[simp] theorem not_mem_empty (width t : Nat) : t ∉ empty width := by
  rw [mem_iff]
  rintro ⟨h, hbit⟩
  simp [empty] at hbit

/-- Inserting a number below the width adds it, and reports it if it is new. -/
theorem insert?_spec (s : BlockSet width) (ht : t < width) :
    ∃ grown isNew, s.insert? t = some (grown, isNew) ∧ (∀ v, v ∈ grown ↔ v ∈ s ∨ v = t) ∧
      (isNew = true ↔ t ∉ s) := by
  have hblock := div_lt_blockCount ht
  refine ⟨_, _, by rw [insert?, dif_pos hblock], fun v => ?_, ?_⟩
  · -- only the block of `t` is written, so another block decides about `v` as before
    by_cases hv : v / 64 < blockCount width
    · rw [mem_iff_getLsbD hv, mem_iff_getLsbD hv]
      by_cases hsame : t / 64 = v / 64
      · simp only [hsame, Vector.getElem_set_self]
        rw [getLsbD_or_mask (Nat.mod_lt t (by decide)), Bool.or_eq_true, decide_eq_true_eq]
        have heq : v % 64 = t % 64 ↔ v = t := by omega
        rw [heq]
      · have hne : v ≠ t := by
          rintro rfl
          exact hsame rfl
        rw [Vector.getElem_set_ne _ _ hsame]
        simp [hne]
    · have hne : v ≠ t := by
        rintro rfl
        exact hv hblock
      rw [mem_iff, mem_iff]
      simp [hv, hne]
  · rw [mem_iff_getLsbD hblock, beq_iff_eq, and_mask_eq_zero (Nat.mod_lt t (by decide)),
      Bool.not_eq_true]

/-- A union has the members of both. -/
theorem mem_union : t ∈ (s.union u).1 ↔ t ∈ s ∨ t ∈ u := by
  by_cases h : t / 64 < blockCount width
  · rw [mem_iff_getLsbD h, mem_iff_getLsbD h, mem_iff_getLsbD h]
    simp only [union, Vector.getElem_zipWith, BitVec.getLsbD_or, Bool.or_eq_true]
  · rw [mem_iff, mem_iff, mem_iff]
    simp [h]

/-- A union reports growth exactly when it brings a new member. -/
theorem union_grew : (s.union u).2 = true ↔ ∃ t, t ∈ u ∧ t ∉ s := by
  have hany : (s.union u).2 = true ↔
      ∃ i, ∃ h : i < blockCount width, u.blocks[i] &&& ~~~s.blocks[i] ≠ 0 := by
    simp [union, Vector.any_eq_true]
  rw [hany]
  constructor
  · rintro ⟨i, hi, hne⟩
    obtain ⟨j, hj, hu, hs⟩ := and_not_ne_zero.mp hne
    refine ⟨i * 64 + j, (mem_block hi hj).mpr hu, fun hmem => ?_⟩
    rw [(mem_block hi hj).mp hmem] at hs
    exact absurd hs (by decide)
  · rintro ⟨t, hu, hs⟩
    obtain ⟨h, hbit⟩ := mem_iff.mp hu
    rw [mem_iff_getLsbD h, Bool.not_eq_true] at hs
    exact ⟨t / 64, h, and_not_ne_zero.mpr ⟨t % 64, Nat.mod_lt t (by decide), hbit, hs⟩⟩

/-- A set brings nothing new to itself. -/
theorem union_self (s : BlockSet width) : s.union s = (s, false) := by
  have hgrew : (s.union s).2 = false := by
    rw [← Bool.not_eq_true, union_grew]
    rintro ⟨t, hmem, hnot⟩
    exact hnot hmem
  refine Prod.ext ?_ hgrew
  cases s with
  | mk blocks =>
    refine congrArg BlockSet.mk (Vector.ext fun i hi => ?_)
    rw [Vector.getElem_zipWith, BitVec.or_self]

theorem mem_toList : t ∈ s.toList ↔ t ∈ s := by
  rw [toList, List.mem_flatMap]
  constructor
  · rintro ⟨⟨block, i⟩, hblock, ht⟩
    rw [List.mem_zipIdx_iff_getElem?, Vector.getElem?_toList] at hblock
    obtain ⟨hi, hread⟩ := Vector.getElem?_eq_some_iff.mp hblock
    have hhas : (Bits.mk block (i * 64)).Has t := (Bits.mem_toList _ t).mp ht
    have hrange : i * 64 ≤ t ∧ t < i * 64 + 64 := hhas.range
    obtain ⟨j, hj, hnumber⟩ := hhas
    have ht : t = i * 64 + j := hnumber
    rw [ht, mem_block hi (by omega), hread]
    exact hj
  · intro ht
    obtain ⟨h, hbit⟩ := mem_iff.mp ht
    refine ⟨(s.blocks[t / 64], t / 64), ?_, ?_⟩
    · rw [List.mem_zipIdx_iff_getElem?, Vector.getElem?_toList]
      exact Vector.getElem?_eq_getElem h
    · exact (Bits.mem_toList _ t).mpr ⟨t % 64, hbit, (Nat.div_add_mod' t 64).symm⟩

/-- The listing is strictly increasing: inside a block, and from each block to all later ones. -/
theorem pairwise_toList (s : BlockSet width) : s.toList.Pairwise (· < ·) := by
  have hplaces : s.blocks.toList.zipIdx.Pairwise fun a b => a.2 < b.2 := by
    rw [← List.pairwise_map (f := Prod.snd) (R := (· < ·)), List.zipIdx_map_snd]
    exact List.pairwise_lt_range' 1
  rw [toList, List.pairwise_flatMap]
  refine ⟨fun _ _ => Bits.pairwise_toList _, hplaces.imp fun {a b} hab t ht v hv => ?_⟩
  have ht' := ((Bits.mem_toList _ t).mp ht).range
  have hv' := ((Bits.mem_toList _ v).mp hv).range
  have hle : (a.2 + 1) * 64 ≤ b.2 * 64 := Nat.mul_le_mul_right 64 hab
  show t < v
  simp only at ht' hv'
  omega

/-! ## Tables of sets

  To add one set of a table to another, the table is cut in two at the later of the two places.
  The cut is only a way to hold both sets at once: nothing of it is left in the outcome. -/

variable {sets : Array (BlockSet width)} {dst src i : Nat}

/-- Inserting at a place in range gives an answer: the set there gets the member, the others stay.
    -/
theorem insertAt?_spec (hread : sets[i]? = some s) (ht : t < width) :
    ∃ grown isNew, insertAt? sets i t = some (sets.setIfInBounds i grown, isNew) ∧
      (∀ v, v ∈ grown ↔ v ∈ s ∨ v = t) ∧ (isNew = true ↔ t ∉ s) := by
  obtain ⟨grown, isNew, hinsert, hmem, hnew⟩ := insert?_spec s ht
  refine ⟨grown, isNew, ?_, hmem, hnew⟩
  simp only [insertAt?, hread, Option.bind_eq_bind, Option.bind_some, hinsert]

/-- So does adding a set, and the set in its place is the union. -/
theorem uniteAt?_eq (hread : sets[dst]? = some s) (u : BlockSet width) :
    uniteAt? sets dst u = some (sets.setIfInBounds dst (s.union u).1, (s.union u).2) := by
  simp only [uniteAt?, hread, Option.bind_eq_bind, Option.bind_some]

/-- A table that is cut at `n` consists of its two parts. -/
theorem take_append_drop (sets : Array (BlockSet width)) (n : Nat) :
    sets.take n ++ sets.drop n = sets := by
  rw [Array.take_eq_extract, Array.drop_eq_extract, Array.extract_append_extract]
  simp

/-- Where the table is cut, the sets in front stay in their places. -/
theorem getElem?_take {n : Nat} (h : i < n) : (sets.take n)[i]? = sets[i]? := by
  rw [Array.take_eq_extract, Array.getElem?_extract, Nat.zero_add]
  by_cases hi : i < sets.size
  · rw [if_pos (by omega)]
  · rw [if_neg (by omega), Array.getElem?_eq_none (by omega)]

/-- The set at the cut is the first one behind it. -/
theorem getElem?_drop_zero (sets : Array (BlockSet width)) (n : Nat) :
    (sets.drop n)[0]? = sets[n]? := by
  rw [Array.drop_eq_extract, Array.getElem?_extract, Nat.add_zero]
  by_cases hn : n < sets.size
  · rw [if_pos (by omega)]
  · rw [if_neg (by omega), Array.getElem?_eq_none (by omega)]

theorem size_take {n : Nat} (h : n ≤ sets.size) : (sets.take n).size = n := by
  rw [Array.take_eq_extract, Array.size_extract]
  omega

/-- Inside a table a set takes the members of another, or its own, as it takes those of a set
    outside. -/
theorem absorbAt?_eq (hdst : sets[dst]? = some s) (hsrc : sets[src]? = some u) :
    absorbAt? sets dst src = some (sets.setIfInBounds dst (s.union u).1, (s.union u).2) := by
  obtain ⟨hdst_lt, hdst_eq⟩ := Array.getElem?_eq_some_iff.mp hdst
  obtain ⟨hsrc_lt, -⟩ := Array.getElem?_eq_some_iff.mp hsrc
  -- the table is cut at the later place; the set is written in front of the cut or behind it
  rcases Nat.lt_trichotomy dst src with hlt | rfl | hlt
  · have hsize : dst < (sets.take src).size := by
      rw [size_take (by omega)]
      exact hlt
    have hwrite : (sets.take src).setIfInBounds dst (s.union u).1 ++ sets.drop src =
        sets.setIfInBounds dst (s.union u).1 := by
      rw [← Array.setIfInBounds_append_left hsize, take_append_drop]
    have hfront : (sets.take src)[dst]? = some s := by rw [getElem?_take hlt, hdst]
    have hback : (sets.drop src)[0]? = some u := by rw [getElem?_drop_zero, hsrc]
    rw [absorbAt?, if_neg (by omega), if_pos hlt]
    simp only [hback, uniteAt?_eq hfront, Option.bind_eq_bind, Option.bind_some, hwrite]
  · obtain rfl := Option.some.inj (hdst.symm.trans hsrc)
    rw [absorbAt?, if_pos rfl, union_self, Array.setIfInBounds_def, dif_pos hdst_lt, ← hdst_eq,
      Array.set_getElem_self]
  · have hsize : (sets.take dst).size = dst := size_take (by omega)
    have hwrite : sets.take dst ++ (sets.drop dst).setIfInBounds 0 (s.union u).1 =
        sets.setIfInBounds dst (s.union u).1 := by
      have happend : (sets.take dst ++ sets.drop dst).setIfInBounds dst (s.union u).1 =
          sets.take dst ++ (sets.drop dst).setIfInBounds (dst - (sets.take dst).size)
            (s.union u).1 :=
        Array.setIfInBounds_append_right (Nat.le_of_eq hsize)
      rw [take_append_drop, hsize, Nat.sub_self] at happend
      exact happend.symm
    have hfront : (sets.take dst)[src]? = some u := by rw [getElem?_take hlt, hsrc]
    have hback : (sets.drop dst)[0]? = some s := by rw [getElem?_drop_zero, hdst]
    rw [absorbAt?, if_neg (by omega), if_neg (by omega)]
    simp only [hfront, uniteAt?_eq hback, Option.bind_eq_bind, Option.bind_some, hwrite]

end BlockSet

end Lalr
