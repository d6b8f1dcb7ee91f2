/-!
# Integers as bytes

Integers are stored with the lowest byte first; negative ones as two's complement. Main statement:
`decode_encode`, an integer that its type can hold is read back.
-/

namespace PagedAlloc

/-- The bytes of a natural number, lowest first. What does not fit is dropped. -/
def littleEndian : (count : Nat) → Nat → List UInt8
  | 0, _ => []
  | count + 1, value => UInt8.ofNat value :: littleEndian count (value / 256)

/-- The natural number with these bytes, lowest first. -/
def ofLittleEndian : List UInt8 → Nat
  | [] => 0
  | first :: rest => first.toNat + 256 * ofLittleEndian rest

/-- A type of integers: how many bytes a value takes, and whether it may be negative. -/
structure IntegerType where
  /-- Bytes of a value. -/
  width : Nat
  /-- Whether values may be negative. -/
  isSigned : Bool
  deriving DecidableEq, Repr

namespace IntegerType

/-- Number of different values. -/
def modulus (type : IntegerType) : Nat := 1 <<< (8 * type.width)

/-- The values of the type. -/
def Holds (type : IntegerType) (value : Int) : Prop :=
  if type.isSigned then -(type.modulus : Int) ≤ 2 * value ∧ 2 * value < type.modulus
  else 0 ≤ value ∧ value < type.modulus

instance (type : IntegerType) (value : Int) : Decidable (type.Holds value) :=
  inferInstanceAs (Decidable (ite _ _ _))

/-- The bytes of a value. -/
def encode (type : IntegerType) (value : Int) : List UInt8 :=
  littleEndian type.width (value % type.modulus).toNat

/-- The value of some bytes. -/
def decode (type : IntegerType) (bytes : List UInt8) : Int :=
  let value := ofLittleEndian bytes
  if type.isSigned ∧ type.modulus ≤ 2 * value then (value : Int) - type.modulus else value

/-- Words of an address. -/
def word : IntegerType := ⟨8, false⟩

/-- The length that goes before a byte string. -/
def lengthPrefix : IntegerType := ⟨4, false⟩

end IntegerType

@[simp]
theorem length_littleEndian (count value : Nat) : (littleEndian count value).length = count := by
  induction count generalizing value with
  | zero => rfl
  | succ count ih => simp [littleEndian, ih]

theorem ofLittleEndian_littleEndian (count value : Nat) :
    ofLittleEndian (littleEndian count value) = value % 1 <<< (8 * count) := by
  induction count generalizing value with
  | zero => simp [littleEndian, ofLittleEndian, Nat.mod_one]
  | succ count ih =>
    simp only [littleEndian, ofLittleEndian, ih, UInt8.toNat_ofNat']
    have grown : 1 <<< (8 * (count + 1)) = 256 * 1 <<< (8 * count) := by
      rw [Nat.one_shiftLeft, Nat.one_shiftLeft, Nat.mul_succ, Nat.pow_add, Nat.mul_comm]
    rw [grown, Nat.mod_mul]

theorem IntegerType.length_encode (type : IntegerType) (value : Int) :
    (type.encode value).length = type.width := length_littleEndian ..

/-- An integer that its type can hold is read back. -/
theorem IntegerType.decode_encode {type : IntegerType} {value : Int} (h : type.Holds value) :
    type.decode (type.encode value) = value := by
  have positive : (0 : Int) < type.modulus := by
    rw [modulus, Nat.one_shiftLeft]
    exact_mod_cast Nat.pow_pos (by decide)
  have range := Int.emod_nonneg value (Int.ne_of_gt positive)
  have below := Int.emod_lt_of_pos value positive
  have stored : ofLittleEndian (type.encode value) = (value % type.modulus).toNat := by
    rw [encode, ofLittleEndian_littleEndian, ← modulus]
    exact Nat.mod_eq_of_lt (by omega)
  rw [decode, stored]
  unfold Holds at h
  -- a negative value is stored above half of the modulus, and only signed types have any
  by_cases nonnegative : 0 ≤ value
  · have small : value < type.modulus := by split at h <;> omega
    rw [Int.emod_eq_of_lt nonnegative small] at *
    have high : ¬ (type.isSigned = true ∧ type.modulus ≤ 2 * value.toNat) := by
      rintro ⟨signed, reach⟩
      rw [if_pos signed] at h
      omega
    simp only [high, if_false]
    omega
  · have signed : type.isSigned = true := by
      by_cases signed : type.isSigned = true
      · exact signed
      · rw [if_neg signed] at h
        omega
    rw [if_pos signed] at h
    have wrapped : value % type.modulus = value + type.modulus := by
      rw [← Int.add_emod_right, Int.emod_eq_of_lt (by omega) (by omega)]
    rw [wrapped] at *
    have high : type.isSigned = true ∧ type.modulus ≤ 2 * (value + type.modulus).toNat :=
      ⟨signed, by omega⟩
    simp only [high, and_self, if_true]
    omega

end PagedAlloc
