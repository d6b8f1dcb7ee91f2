import PagedAlloc.Arena.Read

/-!
# Texts as bytes

The bytes of a text are the encodings of its characters, one behind the other
(`Arena.utf8_eq`). They give the text back (`Arena.fromUTF8?_utf8`). Of all characters only the null
character has a zero byte in its encoding, so the bytes before the first zero byte are those of the
text before its first null character (`Arena.takeWhile_utf8`).
-/

namespace PagedAlloc

/-- The loop that lists a byte array goes on from any place. -/
theorem byteArray_toList_loop (array : ByteArray) (index : Nat) (found : List UInt8) :
    ByteArray.toList.loop array index found = found.reverse ++ array.data.toList.drop index := by
  fun_induction ByteArray.toList.loop array index found with
  | case1 index found inside ih =>
    have hlt : index < array.data.toList.length := by simpa using inside
    have hget : array.get! index = array.data.toList[index] :=
      (getElem!_pos array.data index (by simpa using hlt)).trans (Array.getElem_toList _).symm
    rw [ih, List.drop_eq_getElem_cons hlt, hget, List.reverse_cons, List.append_assoc]
    rfl
  | case2 index found outside =>
    have hle : array.data.toList.length ≤ index := by simpa using outside
    rw [List.drop_eq_nil_of_le hle, List.append_nil]

theorem byteArray_toList (array : ByteArray) : array.toList = array.data.toList := by
  rw [ByteArray.toList, byteArray_toList_loop]
  rfl

namespace Arena

/-- A text is encoded character by character. -/
theorem utf8_eq (text : String) : utf8 text = text.toList.flatMap String.utf8EncodeChar := by
  have hencode : text.toByteArray = text.toList.utf8Encode := by
    rw [← String.toByteArray_ofList, String.ofList_toList]
  rw [utf8, String.toUTF8_eq_toByteArray, hencode, List.utf8Encode, byteArray_toList,
    List.toList_data_toByteArray]

/-- The bytes of a text are those of no other one. -/
theorem fromUTF8?_utf8 (text : String) :
    String.fromUTF8? (ByteArray.mk (utf8 text).toArray) = some text := by
  have harray : ByteArray.mk (utf8 text).toArray = text.toByteArray := by
    rw [utf8, byteArray_toList, String.toUTF8_eq_toByteArray]
  rw [harray, String.fromUTF8?, dif_pos text.isValidUTF8]
  rfl

/-! ## Null characters -/

/-- A text up to its first null character. -/
def beforeNull (text : String) : String :=
  String.ofList (text.toList.takeWhile (· ≠ '\x00'))

theorem ofNat_ne_zero {value : Nat} (positive : 0 < value) (small : value < 256) :
    (0 : UInt8) ≠ UInt8.ofNat value := by
  intro heq
  have hnat := congrArg UInt8.toNat heq
  rw [UInt8.toNat_ofNat', UInt8.toNat_zero, Nat.mod_eq_of_lt small] at hnat
  omega

/-- Only the null character has a zero byte in its encoding. -/
theorem zero_not_mem_encode {character : Char} (h : character ≠ '\x00') :
    (0 : UInt8) ∉ String.utf8EncodeChar character := by
  have hpositive : character.val.toNat ≠ 0 := fun hzero =>
    h (Char.ext (UInt32.toNat_inj.1 hzero))
  -- every byte of a longer encoding carries a mark in its highest bit
  have hmarked : ∀ low mark : Nat, 0 < mark → low + mark < 256 →
      (0 : UInt8) ≠ UInt8.ofNat (low + mark) := fun low mark hmark =>
    ofNat_ne_zero (Nat.add_pos_right low hmark)
  rw [String.utf8EncodeChar]
  split
  · rw [List.mem_singleton]
    exact ofNat_ne_zero (by omega) (by omega)
  split
  · simp only [List.mem_cons, List.not_mem_nil, or_false, not_or]
    exact ⟨hmarked _ _ (by decide) (by omega), hmarked _ _ (by decide) (by omega)⟩
  split
  · simp only [List.mem_cons, List.not_mem_nil, or_false, not_or]
    exact ⟨hmarked _ _ (by decide) (by omega), hmarked _ _ (by decide) (by omega),
      hmarked _ _ (by decide) (by omega)⟩
  · simp only [List.mem_cons, List.not_mem_nil, or_false, not_or]
    exact ⟨hmarked _ _ (by decide) (by omega), hmarked _ _ (by decide) (by omega),
      hmarked _ _ (by decide) (by omega), hmarked _ _ (by decide) (by omega)⟩

/-- Bytes that end with the first zero byte are found as far as it. -/
theorem untilZero_append (bytes rest : List UInt8) :
    untilZero (bytes ++ 0 :: rest) = some (bytes.takeWhile (· ≠ 0)) := by
  induction bytes with
  | nil => rfl
  | cons first bytes ih =>
    rw [List.cons_append, untilZero, ih, List.takeWhile_cons]
    by_cases hzero : first = 0
    · simp [hzero]
    · simp [hzero]

/-- The bytes up to the first zero byte encode the text up to its first null character. -/
theorem takeWhile_utf8 (text : String) :
    (utf8 text).takeWhile (· ≠ 0) = utf8 (beforeNull text) := by
  rw [utf8_eq, utf8_eq, beforeNull, String.toList_ofList]
  induction text.toList with
  | nil => rfl
  | cons character rest ih =>
    rw [List.flatMap_cons, List.takeWhile_cons]
    by_cases hnull : character = '\x00'
    · subst hnull
      rfl
    · have hbytes : ∀ byte ∈ String.utf8EncodeChar character, decide (byte ≠ 0) = true :=
        fun byte hbyte => decide_eq_true fun hzero => zero_not_mem_encode hnull (hzero ▸ hbyte)
      rw [List.takeWhile_append_of_pos hbytes, ih, if_pos (decide_eq_true hnull),
        List.flatMap_cons]

end Arena

end PagedAlloc
