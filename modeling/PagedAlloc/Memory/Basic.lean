import PagedAlloc.Memory.Tree

/-!
# Memory

The contents of a region: a length and the cells at the offsets below it. Writes put a run or a
stretch at an offset, reads give a stretch back, and memory may get another length.

The view of memory is `cell`. Main statements: `cell_fill`, `cell_write` and `cell_resized` give the
cells after a change, and `cells_read` the cells of a range.
-/

namespace PagedAlloc

/-- The cells of a region of known length. -/
structure Memory (H : Type) where
  /-- Number of cells. -/
  length : Nat
  /-- The cells. -/
  tree : Tree H
  deriving Repr

namespace Memory

/-- Memory that holds zero bytes only. -/
def zeroed (length : Nat) : Memory H := ⟨length, .leaf (Run.constant 0)⟩

/-- The cell at an offset. -/
def cell (memory : Memory H) (offset : Nat) : Cell H := memory.tree.get memory.length offset

/-- Writes the first `count` cells of a run at `start`. -/
def fill (memory : Memory H) (start count : Nat) (run : Run H) : Memory H :=
  if count = 0 then memory
  else { memory with
    tree := memory.tree.fill (memory.length.log2 + 1) memory.length start (start + count) run }

/-- Writes a stretch at `start`. -/
def write (memory : Memory H) (start : Nat) : Stretch H → Memory H
  | [] => memory
  | (run, count) :: rest => (memory.fill start count run).write (start + count) rest

/-- The `count` cells at `start`. -/
def read (memory : Memory H) (start count : Nat) : Stretch H :=
  memory.tree.slice memory.length start (start + count)

/-- Memory of another length: the cells that both lengths have are kept, and what is gained is taken
from `fresh`. -/
def resized (memory : Memory H) (length : Nat) (fresh : Tree H) : Memory H :=
  if length = memory.length then memory
  else Memory.write ⟨length, fresh⟩ 0 (memory.read 0 (min memory.length length))

@[simp]
theorem length_fill (memory : Memory H) (start count : Nat) (run : Run H) :
    (memory.fill start count run).length = memory.length := by
  unfold fill
  split <;> rfl

@[simp]
theorem length_write (memory : Memory H) (start : Nat) (stretch : Stretch H) :
    (memory.write start stretch).length = memory.length := by
  induction stretch generalizing memory start with
  | nil => rfl
  | cons head rest ih => simp [write, ih]

@[simp]
theorem length_resized (memory : Memory H) (length : Nat) (fresh : Tree H) :
    (memory.resized length fresh).length = length := by
  unfold resized
  split
  · exact Eq.symm ‹_›
  · simp

@[simp]
theorem cell_zeroed (length offset : Nat) :
    (zeroed length : Memory H).cell offset = .byte 0 := by
  simp [zeroed, cell, Tree.get]

/-- Filling writes the cells of its range and keeps all others. -/
theorem cell_fill (memory : Memory H) (start count : Nat) (run : Run H) {offset : Nat}
    (inside : offset < memory.length) :
    (memory.fill start count run).cell offset =
      if start ≤ offset ∧ offset < start + count then run.cell (offset - start)
      else memory.cell offset := by
  unfold fill
  split
  · rw [if_neg (by omega)]
  · have fits : memory.length ≤ 1 <<< (memory.length.log2 + 1) := by
      rw [Nat.one_shiftLeft]
      exact Nat.le_of_lt Nat.lt_log2_self
    exact Tree.get_fill _ _ _ _ _ fits inside

/-- Reading gives the cells of its range in order. -/
theorem cells_read (memory : Memory H) (start count : Nat) :
    (memory.read start count).cells =
      (List.range count).map fun index => memory.cell (start + index) := by
  rw [read, Tree.cells_slice, Nat.add_sub_cancel_left]
  rfl

@[simp]
theorem length_read (memory : Memory H) (start count : Nat) :
    (memory.read start count).length = count := by
  rw [← Stretch.length_cells, cells_read]
  simp

/-- Writing puts the cells of a stretch at the offsets from `start` on and keeps all others. -/
theorem cell_write (memory : Memory H) (start : Nat) (stretch : Stretch H) {offset : Nat}
    (inside : offset < memory.length) :
    (memory.write start stretch).cell offset =
      if start ≤ offset then (stretch.cells[offset - start]?).getD (memory.cell offset)
      else memory.cell offset := by
  induction stretch generalizing memory start with
  | nil => simp [write, Stretch.cells]
  | cons head rest ih =>
    obtain ⟨run, count⟩ := head
    rw [write, ih _ _ (by simpa using inside), cell_fill _ _ _ _ inside, Stretch.cells]
    by_cases before : offset < start
    · rw [if_neg (by omega), if_neg (by omega), if_neg (by omega)]
    · by_cases covered : offset < start + count
      · rw [if_neg (by omega), if_pos (by omega), if_pos (by omega),
          List.getElem?_append_left (by simp; omega)]
        simp [List.getElem?_range (show offset - start < count by omega)]
      · rw [if_pos (by omega), if_neg (by omega), if_pos (by omega),
          List.getElem?_append_right (by simp; omega), List.length_map, List.length_range,
          Nat.sub_sub]

/-- Cells outside of the range of a write keep what they hold. -/
theorem cell_write_of_disjoint {memory : Memory H} {start : Nat} {stretch : Stretch H}
    {offset : Nat} (inside : offset < memory.length)
    (apart : offset < start ∨ start + stretch.length ≤ offset) :
    (memory.write start stretch).cell offset = memory.cell offset := by
  rw [cell_write _ _ _ inside]
  split
  · rw [List.getElem?_eq_none (by rw [Stretch.length_cells]; omega)]
    rfl
  · rfl

/-- The cells that both lengths have are kept. -/
theorem cell_resized (memory : Memory H) (length : Nat) (fresh : Tree H) {offset : Nat}
    (old : offset < memory.length) (new : offset < length) :
    (memory.resized length fresh).cell offset = memory.cell offset := by
  unfold resized
  split
  · rfl
  · rw [cell_write _ _ _ new, if_pos (Nat.zero_le _), cells_read]
    simp [List.getElem?_range (show offset < min memory.length length by omega)]

end Memory

end PagedAlloc
