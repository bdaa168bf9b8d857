/-
  Sets of symbol numbers in machine words.

  A set of numbers below `width` is kept in blocks of 64 bits, as many as the width takes: `t`
  belongs to it if bit `t % 64` of block `t / 64` is set.  The last block may reach beyond the
  width.  The operations are those of `SymbolSet`, carried out block by block:

    * `s.insert? t`, `s.union u`       the larger set, and whether it is larger;
    * `insertAt? sets i t`             the same inside a table of sets;
    * `uniteAt? sets dst u`            a set of its own flows into the set in `dst`;
    * `absorbAt? sets dst src`         the set in `src` flows into the set in `dst`;
    * `s.toList`                       the members, block after block and lowest bit first.

  Where a block or a set is asked for that is not there, there is no result.
-/

namespace Lalr

/-! ## The bits of one block -/

/-- The bits of a block that are still to be listed.  Bit 0 stands for the number `base`. -/
structure Bits where
  block : BitVec 64
  base : Nat
  deriving DecidableEq, Repr

namespace Bits

/-- The number of the lowest bit, and the bits without it. -/
def next? (b : Bits) : Option (Nat × Bits) :=
  if b.block = 0 then none
  else some (b.base + b.block.ctz.toNat, { b with block := b.block &&& (b.block - 1) })

theorem next?_lt {b rest : Bits} {t : Nat} (h : b.next? = some (t, rest)) :
    rest.block.toNat < b.block.toNat := by
  unfold next? at h
  split at h
  · exact absurd h (by simp)
  · rename_i hne
    obtain ⟨-, rfl⟩ := Prod.mk.inj (Option.some.inj h)
    have hpos : 0 < b.block.toNat :=
      Nat.pos_of_ne_zero fun h0 => hne (BitVec.eq_of_toNat_eq h0)
    have hsub : (b.block - 1).toNat = b.block.toNat - 1 := BitVec.toNat_sub_of_le hpos
    have hand : (b.block &&& (b.block - 1)).toNat ≤ (b.block - 1).toNat := by
      rw [BitVec.toNat_and]
      exact Nat.and_le_right
    show (b.block &&& (b.block - 1)).toNat < b.block.toNat
    omega

/-- The numbers of all bits, lowest first. -/
def toList (b : Bits) : List Nat :=
  match _h : b.next? with
  | none => []
  | some (t, rest) => t :: rest.toList
  termination_by b.block.toNat
  decreasing_by exact next?_lt ‹_›

end Bits

/-! ## Sets -/

/-- How many blocks the numbers below `width` take. -/
def blockCount (width : Nat) : Nat :=
  (width + 64 - 1) / 64

/-- A set of numbers below `width`, in blocks. -/
structure BlockSet (width : Nat) where
  blocks : Vector (BitVec 64) (blockCount width)
  deriving DecidableEq, Repr

namespace BlockSet

variable {width : Nat}

/-- The set without members. -/
def empty (width : Nat) : BlockSet width :=
  ⟨Vector.replicate (blockCount width) 0⟩

/-- Is `t` a member?  A number without a block is not. -/
def contains (s : BlockSet width) (t : Nat) : Bool :=
  (s.blocks[t / 64]?.getD 0 &&& 1#64 <<< (t % 64)) != 0

instance : Membership Nat (BlockSet width) := ⟨fun s t => s.contains t = true⟩

instance (t : Nat) (s : BlockSet width) : Decidable (t ∈ s) :=
  inferInstanceAs (Decidable (s.contains t = true))

/-- Adds a number; also says whether it is new. -/
def insert? (s : BlockSet width) (t : Nat) : Option (BlockSet width × Bool) :=
  if h : t / 64 < blockCount width then
    let block := s.blocks[t / 64]
    let mask := 1#64 <<< (t % 64)
    some (⟨s.blocks.set (t / 64) (block ||| mask)⟩, block &&& mask == 0)
  else
    none

/-- Adds all members of another set; also says whether any is new. -/
def union (s u : BlockSet width) : BlockSet width × Bool :=
  (⟨s.blocks.zipWith (fun block bits => block ||| bits) u.blocks⟩,
    (s.blocks.zip u.blocks).any fun (block, bits) => bits &&& ~~~block != 0)

/-- The members in increasing order. -/
def toList (s : BlockSet width) : List Nat :=
  s.blocks.toList.zipIdx.flatMap fun (block, i) => Bits.toList ⟨block, i * 64⟩

/-! ## Tables of sets -/

/-- Adds a number to the set at `i`; also says whether it is new there. -/
def insertAt? (sets : Array (BlockSet width)) (i t : Nat) :
    Option (Array (BlockSet width) × Bool) := do
  let (grown, isNew) ← (← sets[i]?).insert? t
  some (sets.setIfInBounds i grown, isNew)

/-- Adds the members of a set to the set at `dst`; also says whether any is new. -/
def uniteAt? (sets : Array (BlockSet width)) (dst : Nat) (u : BlockSet width) :
    Option (Array (BlockSet width) × Bool) := do
  let (grown, grew) := (← sets[dst]?).union u
  some (sets.setIfInBounds dst grown, grew)

/-- Adds the members of the set at `src` to the set at `dst`; also says whether any is new.  The
    table is cut in two at the later of the two places, so that each part holds one of the sets. -/
def absorbAt? (sets : Array (BlockSet width)) (dst src : Nat) :
    Option (Array (BlockSet width) × Bool) :=
  if dst = src then
    some (sets, false)
  else if dst < src then do
    let (front, back) := (sets.take src, sets.drop src)
    let (front, grew) ← uniteAt? front dst (← back[0]?)
    some (front ++ back, grew)
  else do
    let (front, back) := (sets.take dst, sets.drop dst)
    let (back, grew) ← uniteAt? back 0 (← front[src]?)
    some (front ++ back, grew)

end BlockSet

end Lalr
