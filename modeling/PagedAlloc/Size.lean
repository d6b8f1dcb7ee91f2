import PagedAlloc.Machine.Fault

/-!
# Sizes

Sizes, lengths and offsets are natural numbers below `Size.limit`. This module says when a sum or a
product still fits, and rounds sizes to alignments and to pages. Checked arithmetic is what an
allocator relies on and does not expect to fail: where it does fail after all, the fault stops the
operation before a wrong size is stored.
-/

namespace PagedAlloc.Size

/-- Every size that a machine word can hold is below this bound. -/
def limit : Nat := 1 <<< 64

/-- The sum of two sizes, if it fits a machine word. -/
def add? (a b : Nat) : Option Nat :=
  if a + b < limit then some (a + b) else none

/-- The product of two sizes, if it fits a machine word. -/
def mul? (a b : Nat) : Option Nat :=
  if a * b < limit then some (a * b) else none

/-- Alignments are powers of two. -/
def IsPowerOfTwo (n : Nat) : Prop := 0 < n ∧ 1 <<< n.log2 = n

instance (n : Nat) : Decidable (IsPowerOfTwo n) :=
  inferInstanceAs (Decidable (0 < n ∧ 1 <<< n.log2 = n))

/-- Of two powers of two the smaller one divides the other. -/
theorem IsPowerOfTwo.dvd_of_le {a b : Nat} (power : IsPowerOfTwo a) (power' : IsPowerOfTwo b)
    (small : a ≤ b) : a ∣ b := by
  rw [← power.2, ← power'.2, Nat.one_shiftLeft, Nat.one_shiftLeft] at small ⊢
  exact Nat.pow_dvd_pow 2 ((Nat.pow_le_pow_iff_right (by decide)).1 small)

/-- The greatest multiple of `alignment` that is not above `value`. -/
def roundDown (value alignment : Nat) : Nat := value - value % alignment

/-- The least multiple of `alignment` that is not below `value`, if it fits a machine word. -/
def roundUp? (value alignment : Nat) : Option Nat :=
  (add? value (alignment - 1)).map (roundDown · alignment)

/-- What the kernel says of its pages. It says so once, and the answer holds for as long as the
program runs. -/
class Paging where
  /-- Length of a page. The kernel hands out whole pages only. -/
  pageSize : Nat
  /-- It is a power of two. -/
  power : IsPowerOfTwo pageSize
  /-- 65536 bytes are whole pages. The chunks of segregated lists are multiples of these. -/
  divides : pageSize ∣ 65536
  /-- A page is more than what the headers of a chunk and of its first block take. -/
  roomy : 128 ≤ pageSize

export Paging (pageSize)

/-- Pages of 4096 bytes, as most computers have them. -/
abbrev Paging.common : Paging where
  pageSize := 4096
  power := by decide
  divides := by decide
  roomy := by decide

variable [Paging]

theorem pageSize_pos : 0 < pageSize := Nat.lt_of_lt_of_le (by decide) Paging.roomy

theorem pageSize_dvd_limit : pageSize ∣ limit := Nat.dvd_trans Paging.divides (by decide)

/-- Pages are aligned to everything that the headers in them are aligned to. -/
theorem dvd_pageSize {align : Nat} (power : IsPowerOfTwo align) (small : align ≤ 128) :
    align ∣ pageSize :=
  power.dvd_of_le Paging.power (Nat.le_trans small Paging.roomy)

/-- The least whole number of pages that holds `size` bytes, in bytes. -/
def roundToPages? (size : Nat) : Option Nat := roundUp? size pageSize

/-- Length of a pointer. -/
def pointerSize : Nat := 8

/-! ## Checked arithmetic -/

/-- The sum of two sizes that is meant to fit a machine word. -/
def add (a b : Nat) : Except Fault Nat :=
  if a + b < limit then .ok (a + b) else .error .addition

/-- The difference of two sizes that is meant to be no less than zero. -/
def sub (a b : Nat) : Except Fault Nat :=
  if b ≤ a then .ok (a - b) else .error .subtraction

/-- Rounding up that is meant to fit a machine word. The alignment is added before one is taken
away, so a value within one alignment of the limit is a fault. -/
def roundUp (value alignment : Nat) : Except Fault Nat := do
  let sum ← add value alignment
  let top ← sub sum 1
  return roundDown top alignment

end PagedAlloc.Size
