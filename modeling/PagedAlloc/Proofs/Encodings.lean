import Mathlib.Algebra.Group.Int.Defs
import Mathlib.Algebra.Group.Nat.Defs
import PagedAlloc.Proofs.ArenaRuns

/-!
# Encodings of additions

What the additions of a build are to leave in an arena, byte by byte and without the arena:
`Arena.encodings` joins the encodings of the single additions, each at the offset where the one
before it ends. Main statements: integers are stored as their digits to the base 256
(`IntegerType.encode_eq_digits`), and writing behind the bytes in use appends to what was built
(`Arena.built_append`).
-/

namespace PagedAlloc

/-- The bytes of an integer, the lowest first: each is one digit of its expansion to the base
256. -/
def digits (width : Nat) (value : Int) : List UInt8 :=
  (List.range width).map fun place => UInt8.ofNat (value / 256 ^ place % 256).toNat

namespace Arena

/-- The bytes that an addition is to leave at an offset. -/
def Addition.encoding (offset : Nat) : Addition → List UInt8
  | bytes values => values
  | zeroes count => List.replicate count 0
  | align alignment => List.replicate ((alignment - offset % alignment) % alignment) 0
  | integer type value => digits type.width value
  | pointer address => digits 8 address
  | terminated value => utf8 value ++ [0]
  | prefixed content => digits 4 content.length ++ content.bytes
  | text value => digits 4 (utf8 value).length ++ utf8 value

/-- The bytes that additions are to leave from an offset on. -/
def encodings (offset : Nat) : List Addition → List UInt8
  | [] => []
  | addition :: rest =>
    let found := addition.encoding offset
    found ++ encodings (offset + found.length) rest

/-- The bytes in use from an offset on. -/
def built (arena : Arena) (start : Nat) : List UInt8 :=
  (arena.cells start (arena.length - start)).bytes

end Arena

/-! ## Digits -/

theorem littleEndian_eq_map (count value : Nat) :
    littleEndian count value =
      (List.range count).map fun place => UInt8.ofNat (value / 256 ^ place) := by
  induction count generalizing value with
  | zero => rfl
  | succ count ih =>
    rw [littleEndian, ih, List.range_succ_eq_map, List.map_cons, List.map_map]
    simp only [Nat.pow_zero, Nat.div_one, List.cons.injEq, true_and]
    refine List.map_congr_left fun place _ => ?_
    rw [Function.comp_apply, Nat.succ_eq_add_one, Nat.pow_succ, Nat.mul_comm,
      Nat.div_div_eq_div_mul]

/-- A digit below the width does not notice that higher ones are dropped. -/
theorem digit_emod {place width : Nat} (hlt : place < width) (value : Int) :
    value % 256 ^ width / 256 ^ place % 256 = value / 256 ^ place % 256 := by
  obtain ⟨more, rfl⟩ := Nat.exists_eq_add_of_lt hlt
  have hbase : (256 : Int) ^ place ≠ 0 := Int.ne_of_gt (Int.pow_pos (by decide))
  have hsplit : (256 : Int) ^ (place + more + 1) = 256 ^ place * (256 * 256 ^ more) := by
    rw [Int.pow_succ, Int.pow_add, Int.mul_assoc, Int.mul_comm (256 ^ more)]
  have hvalue := Int.emod_add_mul_ediv value (256 ^ (place + more + 1))
  generalize value % 256 ^ (place + more + 1) = low at *
  rw [hsplit, Int.mul_assoc] at hvalue
  rw [← hvalue, Int.add_mul_ediv_left _ _ hbase, Int.mul_assoc, Int.add_mul_emod_self_left]

/-- An integer is stored as its digits to the base 256, the least ones first. -/
theorem IntegerType.encode_eq_digits (type : IntegerType) (value : Int) :
    type.encode value = digits type.width value := by
  have hmodulus : (type.modulus : Int) = 256 ^ type.width := by
    rw [modulus, Nat.one_shiftLeft, Nat.pow_mul, Int.natCast_pow]
    rfl
  have hpositive : (0 : Int) < 256 ^ type.width := Int.pow_pos (by decide)
  rw [encode, littleEndian_eq_map, digits]
  refine List.map_congr_left fun place hplace => ?_
  have hlow := Int.emod_nonneg value (Int.ne_of_gt hpositive)
  rw [← digit_emod (List.mem_range.1 hplace) value, hmodulus]
  generalize value % 256 ^ type.width = low at hlow
  obtain ⟨low, rfl⟩ := Int.eq_ofNat_of_zero_le hlow
  apply UInt8.toNat_inj.1
  rw [UInt8.toNat_ofNat', UInt8.toNat_ofNat', Int.toNat_natCast]
  have hcast : ((low : Int) / 256 ^ place % 256) = ((low / 256 ^ place % 256 : Nat) : Int) := by
    rw [Int.natCast_emod, Int.natCast_ediv, Int.natCast_pow]
    rfl
  rw [hcast, Int.toNat_natCast]
  exact (Nat.mod_mod _ 256).symm
/-! ## Bytes of stretches -/

namespace Stretch

@[simp]
theorem length_bytes (stretch : Stretch Empty) : stretch.bytes.length = stretch.length := by
  rw [bytes, List.length_map, length_cells]

/-- A stretch that was made of bytes holds these. -/
@[simp]
theorem bytes_ofBytes (values : List UInt8) : (ofBytes values).bytes = values := by
  rw [bytes, cells_ofBytes, List.map_map]
  exact List.map_id values

@[simp]
theorem bytes_zeros (count : Nat) : (zeros count).bytes = List.replicate count 0 := by
  simp [bytes, zeros, cells, Function.comp_def, Cell.toByte, List.map_const']

end Stretch

/-! ## What was built -/

namespace Arena

variable {arena : Arena} {start : Nat}

/-- What was built are the bytes from its start to the end of what is in use. -/
theorem built_eq (arena : Arena) (start : Nat) :
    arena.built start = (List.range (arena.length - start)).map fun count =>
      (arena.region.memory.cell (start + count)).toByte := by
  rw [built, cells, Stretch.bytes, Memory.cells_read, List.map_map]
  rfl

@[simp]
theorem length_built (arena : Arena) (start : Nat) :
    (arena.built start).length = arena.length - start := by
  rw [built_eq, List.length_map, List.length_range]

/-- Bytes that are written behind those in use are appended to what was built. -/
theorem built_append {content : Stretch Empty} (hstart : start ≤ arena.length)
    (hroom : arena.length + content.length ≤ arena.region.memory.length) :
    built { arena with
        region := { arena.region with memory := arena.region.memory.write arena.length content }
        length := arena.length + content.length } start =
      arena.built start ++ content.bytes := by
  have hlength : arena.length + content.length - start =
      (arena.length - start) + content.length := by omega
  rw [built_eq, built_eq]
  simp only [hlength, List.range_add, List.map_append, List.map_map]
  refine congr (congrArg _ (List.map_congr_left fun count hcount => ?_)) ?_
  · have hlt := List.mem_range.1 hcount
    rw [Memory.cell_write_of_disjoint (by omega) (Or.inl (by omega))]
  · refine List.ext_getElem (by simp) fun count hcount _ => ?_
    simp only [List.length_map, List.length_range] at hcount
    have hplace : start + (arena.length - start + count) = arena.length + count := by omega
    simp only [List.getElem_map, List.getElem_range, Function.comp_apply, hplace, Stretch.bytes]
    rw [Memory.cell_write _ _ _ (by omega), if_pos (Nat.le_add_right ..), Nat.add_sub_cancel_left,
      List.getElem?_eq_getElem (by simpa using hcount), Option.getD_some]

end Arena

end PagedAlloc
