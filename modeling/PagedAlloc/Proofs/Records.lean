import PagedAlloc.Memory.Record

/-!
# Records and changes of memory

A record depends on its own cells only (`record?_congr`), so a change of memory within one range of
offsets keeps every record outside of this range (`ChangesWithin.record?_eq`).
-/

namespace PagedAlloc

theorem Stretch.getElem?_zeros {H : Type} {count x : Nat} (inside : x < count) :
    (zeros count : Stretch H).cells[x]? = some (.byte 0) := by
  simp [zeros, cells, List.getElem?_range inside]

namespace Memory

variable {H : Type} {memory memory' middle : Memory H} {offset width start stop : Nat}

/-- A record that is stored is seen in its own cells, and nowhere else. -/
theorem cell_store (memory : Memory H) (offset width : Nat) (record : H) {x : Nat}
    (inside : x < memory.length) :
    (memory.store offset width record).cell x =
      if offset ≤ x ∧ x < offset + width then .part record (x - offset) else memory.cell x := by
  rw [store, cell_fill _ _ _ _ inside]
  simp [Run.cell]

/-- After a write a cell is one of those that were written, or the old one. -/
theorem some_cell_write (memory : Memory H) (start : Nat) (content : Stretch H) {x : Nat}
    (inside : x < memory.length) :
    some ((memory.write start content).cell x) =
      if start ≤ x ∧ x < start + content.length then content.cells[x - start]?
      else some (memory.cell x) := by
  by_cases hwritten : start ≤ x ∧ x < start + content.length
  · have hsome : x - start < content.cells.length := by
      rw [Stretch.length_cells]
      omega
    rw [if_pos hwritten, cell_write _ _ _ inside, if_pos hwritten.1, List.getElem?_eq_getElem hsome]
    rfl
  · rw [if_neg hwritten, cell_write_of_disjoint inside (by omega)]

/-- A record depends on its own cells only. -/
theorem record?_congr [DecidableEq H] (positive : 0 < width)
    (length : memory'.length = memory.length)
    (same : ∀ x, offset ≤ x → x < offset + width → x < memory.length →
      memory'.cell x = memory.cell x) :
    memory'.record? offset width = memory.record? offset width := by
  ext record
  rw [record?_eq_some_iff positive, record?_eq_some_iff positive, length]
  refine and_congr_right fun fits => forall₂_congr ?_
  intro index hindex
  rw [same (offset + index) (by omega) (by omega) (by omega)]

/-- Storing a record changes no record that it does not overlap. -/
theorem record?_store_of_disjoint [DecidableEq H] (positive : 0 < width) {place count : Nat}
    {record : H} (apart : offset + width ≤ place ∨ place + count ≤ offset) :
    (memory.store place count record).record? offset width = memory.record? offset width := by
  refine record?_congr positive (length_store ..) ?_
  intro x hle hlt inside
  rw [cell_store _ _ _ _ inside, if_neg (by omega)]

/-! ## Changes within a range -/

/-- Only cells at offsets from `start` up to `stop` are other ones. -/
structure ChangesWithin (start stop : Nat) (memory memory' : Memory H) : Prop where
  length : memory'.length = memory.length
  cells : ∀ x, x < start ∨ stop ≤ x → x < memory.length → memory'.cell x = memory.cell x

namespace ChangesWithin

theorem fill (memory : Memory H) (count : Nat) (run : Run H) (enough : start + count ≤ stop) :
    ChangesWithin start stop memory (memory.fill start count run) where
  length := length_fill ..
  cells x outside inside := by rw [cell_fill _ _ _ _ inside, if_neg (by omega)]

theorem store (memory : Memory H) (width : Nat) (record : H) (enough : start + width ≤ stop) :
    ChangesWithin start stop memory (memory.store start width record) :=
  fill memory width _ enough

/-- Writing a content changes just the range that it covers. -/
theorem write (memory : Memory H) (content : Stretch H) (first : start ≤ offset)
    (enough : offset + content.length ≤ stop) :
    ChangesWithin start stop memory (memory.write offset content) where
  length := length_write ..
  cells x outside inside := cell_write_of_disjoint inside (by omega)

/-- A record outside of the range of a change stays. -/
theorem record?_eq [DecidableEq H] (h : ChangesWithin start stop memory memory')
    (positive : 0 < width) (apart : offset + width ≤ start ∨ stop ≤ offset) :
    memory'.record? offset width = memory.record? offset width :=
  record?_congr positive h.length fun x hle hlt inside => h.cells x (by omega) inside

end ChangesWithin

end Memory

end PagedAlloc
