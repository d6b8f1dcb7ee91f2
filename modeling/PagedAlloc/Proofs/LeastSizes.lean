import Mathlib.Data.Nat.Bitwise
import PagedAlloc.Proofs.BlockSteps
import PagedAlloc.Proofs.Rounding

/-!
# Least sizes

Whatever size an allocator is asked for, it works with one that was rounded up: to an alignment, to
a payload, to a whole number of pages. The answer is always the least size of its kind, and there is
none just if no size of the kind fits a machine word (`Size.rounding_exact`).

A machine rounds down by clearing the bits below the alignment (`Size.toNat_clearBelow`), and a sum
that wraps around does no harm to this as long as the multiple fits. `Size.roundUp`, which stops at
such a sum, is stricter: it adds all of the alignment before it takes one away, so it stops at the
last multiple that fits a machine word, which needs no rounding at all
(`Size.rounding_stops_at_last_multiple`).
-/

namespace PagedAlloc

variable {paging : Size.Paging}

namespace Size

/-! ## Rounding in a machine word -/

/-- A machine word holds a whole number of every alignment. -/
theorem IsPowerOfTwo.dvd_limit {align : Nat} (power : IsPowerOfTwo align) (small : align < limit) :
    align ∣ limit :=
  power.dvd_of_le (by decide) small.le

variable {value align : BitVec 64}

/-- A word without its bits below an alignment. -/
def clearBelow (word align : BitVec 64) : BitVec 64 := word &&& ~~~(align - 1)

/-- Taking one from an alignment does not wrap around. -/
theorem toNat_sub_one (power : IsPowerOfTwo align.toNat) :
    (align - 1).toNat = align.toNat - 1 :=
  BitVec.toNat_sub_of_le (BitVec.le_def.2 power.1)

/-- One less than an alignment has all bits set that lie below it. -/
theorem getLsbD_sub_one (power : IsPowerOfTwo align.toNat) (index : Nat) :
    (align - 1).getLsbD index = decide (index < align.toNat.log2) := by
  rw [← BitVec.testBit_toNat, toNat_sub_one power]
  conv_lhs => rw [← power.2, Nat.one_shiftLeft]
  exact Nat.testBit_two_pow_sub_one ..

/-- Rounding down keeps the bits from that of the alignment on. -/
theorem testBit_roundDown {value align : Nat} (power : IsPowerOfTwo align) (index : Nat) :
    (roundDown value align).testBit index =
      (decide (align.log2 ≤ index) && value.testBit index) := by
  rw [roundDown, ← Nat.div_mul_self_eq_mod_sub_self]
  conv_lhs => rw [← power.2, Nat.one_shiftLeft]
  rw [Nat.testBit_mul_two_pow, Nat.testBit_div_two_pow]
  by_cases hkept : align.log2 ≤ index
  · rw [Nat.sub_add_cancel hkept]
  · rw [decide_eq_false hkept, Bool.false_and, Bool.false_and]

/-- Clearing the bits below an alignment rounds down to it. -/
theorem toNat_clearBelow (power : IsPowerOfTwo align.toNat) (word : BitVec 64) :
    (clearBelow word align).toNat = roundDown word.toNat align.toNat := by
  refine Nat.eq_of_testBit_eq fun index => ?_
  rw [testBit_roundDown power, BitVec.testBit_toNat, BitVec.testBit_toNat, clearBelow,
    BitVec.getLsbD_and, BitVec.getLsbD_not, getLsbD_sub_one power]
  by_cases hindex : index < 64
  · rw [decide_eq_true hindex, Bool.true_and, ← decide_not, decide_eq_decide.2 Nat.not_lt,
      Bool.and_comm]
  · -- a word has no more bits, so the mask does not matter
    rw [BitVec.getLsbD_of_ge word index (Nat.le_of_not_lt hindex), Bool.false_and, Bool.and_false]

/-- How a word is rounded up to an alignment: checked, by clearing bits, and with a fault where the
sum is too large. -/
structure RoundsUp (value align : BitVec 64) : Prop where
  least : LeastWord (fun size => align.toNat ∣ size ∧ value.toNat ≤ size)
    (roundUp? value.toNat align.toNat)
  /-- The sum with the alignment may wrap around before one is taken away. -/
  cleared : value.toNat + (align.toNat - 1) < limit →
    roundUp? value.toNat align.toNat = some (clearBelow (value + align - 1) align).toNat
  agrees_iff : (∃ rounded, roundUp? value.toNat align.toNat = some rounded ∧
      roundUp value.toNat align.toNat = .ok rounded) ↔
    value.toNat + align.toNat < limit
  stops : limit ≤ value.toNat + align.toNat →
    roundUp value.toNat align.toNat = .error .addition

/-- A sum that fits is rounded down to the alignment. -/
theorem roundUp?_of_fits {value align : Nat} (fits : value + (align - 1) < limit) :
    roundUp? value align = some (roundDown (value + (align - 1)) align) := by
  rw [roundUp?, add?, if_pos fits, Option.map_some]

/-- All ways of rounding up agree on the least multiple. -/
theorem roundsUp (power : IsPowerOfTwo align.toNat) (value : BitVec 64) :
    RoundsUp value align where
  least := leastWord_roundUp? power.1 (power.dvd_limit align.isLt) value.toNat
  cleared fits := by
    have hsum : (value + align - 1).toNat = value.toNat + (align.toNat - 1) := by
      rw [BitVec.sub_eq_add_neg, BitVec.add_assoc, ← BitVec.sub_eq_add_neg,
        BitVec.toNat_add_of_lt (by rwa [toNat_sub_one power]), toNat_sub_one power]
    rw [toNat_clearBelow power, hsum, roundUp?_of_fits fits]
  agrees_iff := by
    constructor
    · rintro ⟨rounded, -, hplain⟩
      by_contra hlarge
      cases hplain.symm.trans (roundUp_of_large (Nat.le_of_not_lt hlarge))
    · intro hfits
      refine ⟨_, roundUp?_of_fits (by omega), ?_⟩
      rw [roundUp_of_fits power.1 hfits, Nat.add_sub_assoc power.1]
  stops large := roundUp_of_large large

end Size

/-! ## Payloads and chunks -/

/-- A payload is the least multiple of 16 bytes that holds the size. -/
theorem Block.leastWord_payloadSize? (size : Nat) :
    Size.LeastWord (fun payload => 16 ∣ payload ∧ max size 16 ≤ payload)
      (Block.payloadSize? size) :=
  Size.leastWord_roundUp? (by decide) (by decide) (max size 16)

namespace Chunk

/-- A fresh chunk has room for a payload behind its own header and that of the block. -/
theorem freshCapacity_holds_iff {length size : Nat} :
    (∃ capacity, freshCapacity length = .ok capacity ∧ size ≤ capacity) ↔
      headerSize + Block.headerSize + size ≤ length := by
  constructor
  · rintro ⟨capacity, hcapacity, hle⟩
    rw [freshCapacity] at hcapacity
    cases harea : Size.sub length headerSize with
    | error fault =>
      rw [harea] at hcapacity
      cases hcapacity
    | ok area =>
      rw [harea] at hcapacity
      have hblock : capacity + Block.headerSize = area := Size.add_of_sub_eq_ok hcapacity
      have hchunk : area + headerSize = length := Size.add_of_sub_eq_ok harea
      omega
  · intro hroom
    refine ⟨_, freshCapacity_eq (by omega), ?_⟩
    show size ≤ length - headerSize - Block.headerSize
    omega

/-- A chunk of its own is as long as the least whole number of pages with room for the payload. -/
theorem leastWord_lengthFor? (size : Nat) :
    Size.LeastWord (fun length => Size.pageSize ∣ length ∧
      ∃ capacity, freshCapacity length = .ok capacity ∧ size ≤ capacity) (lengthFor? size) := by
  simp only [freshCapacity_holds_iff]
  rw [lengthFor?, Size.add?]
  split
  · rw [Option.bind_some, Size.roundToPages?]
    exact Size.leastWord_roundUp? Size.pageSize_pos Size.pageSize_dvd_limit _
  · -- the headers and the payload alone are too large for a machine word
    rename_i hlarge
    exact .of_large fun length hlength => (Nat.le_of_not_lt hlarge).trans hlength.2

example : @lengthFor? .common 4016 = some 4096 ∧ @lengthFor? .common 4017 = some 8192 := by decide

end Chunk

namespace Size

/-! ## Every rounding is exact -/

/-- Every size is rounded to the least one of its kind, up to the limit of a machine word. Checked
rounding gives the least multiple of an alignment. Clearing bits gives the same wherever the sum
without one fits a machine word, and rounding that may stop gives the same just where the sum with
all of the alignment fits. A payload gets the least multiple of 16 bytes, and a chunk of its own
the least whole number of pages that leaves room for it. -/
theorem rounding_exact [Size.Paging] (value : BitVec 64) {align : BitVec 64}
    (power : IsPowerOfTwo align.toNat) (size : Nat) :
    RoundsUp value align ∧
      LeastWord (fun payload => 16 ∣ payload ∧ max size 16 ≤ payload)
        (Block.payloadSize? size) ∧
      LeastWord (fun length => pageSize ∣ length ∧
        ∃ capacity, Chunk.freshCapacity length = .ok capacity ∧ size ≤ capacity)
        (Chunk.lengthFor? size) :=
  ⟨roundsUp power value, Block.leastWord_payloadSize? size, Chunk.leastWord_lengthFor? size⟩

end Size

end PagedAlloc

namespace PagedAlloc.Size

attribute [local instance] Size.Paging.common

/-- The least value that is rounded up to the last multiple of 16. -/
theorem rounding_exact_below_limit :
    IsPowerOfTwo (16#64).toNat ∧ roundUp? (limit - 31) 16 = some (limit - 16) ∧
      IsLeast {size | 16 ∣ size ∧ limit - 31 ≤ size} (limit - 16) ∧
        roundUp (limit - 31) 16 = .ok (limit - 16) := by
  have power : IsPowerOfTwo (16#64).toNat := by decide
  have hrounded : roundUp? (limit - 31) 16 = some (limit - 16) := by decide
  obtain ⟨hrounds, -, -⟩ := rounding_exact (BitVec.ofNat 64 (limit - 31)) power 0
  obtain ⟨hleast, -⟩ := (hrounds.least.some_iff (limit - 16)).1 hrounded
  obtain ⟨rounded, hchecked, hplain⟩ := hrounds.agrees_iff.2 (by decide)
  obtain rfl := Option.some.inj (hrounded.symm.trans hchecked)
  exact ⟨power, hrounded, hleast, hplain⟩

/-- The last multiple of an alignment is its own rounding, and the sum without one fits a machine
word, yet rounding that may stop does stop there. -/
theorem rounding_stops_at_last_multiple :
    IsPowerOfTwo 16 ∧ limit - 16 + 16 - 1 < limit ∧
      roundUp? (limit - 16) 16 = some (limit - 16) ∧
        roundUp (limit - 16) 16 = .error .addition := by
  refine ⟨by decide, by decide, by decide, ?_⟩
  exact roundUp_of_large (by decide)

end PagedAlloc.Size
