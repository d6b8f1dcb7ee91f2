import PagedAlloc.Memory.Basic

/-!
# Records in memory

An allocator keeps records in the memory that it hands out. A record is stored over as many cells as
it takes bytes, and it is found again only where all its parts still are.

Main statements: `record?_eq_some_iff`, a record is found exactly where all its parts are, and
`record?_store`, a stored record is found.
-/

namespace PagedAlloc.Memory

/-- Writes a record of `width` cells at an offset. -/
def store (memory : Memory H) (offset width : Nat) (record : H) : Memory H :=
  memory.fill offset width (.parts record 0)

/-- Whether a stretch holds the parts of a record from the one at distance `base` on. -/
def continues [DecidableEq H] (record : H) : (base : Nat) → Stretch H → Bool
  | _, [] => true
  | _, (.ramp .., _) :: _ => false
  | base, (.parts found first, count) :: rest =>
    first = base && found = record && continues record (base + count) rest

/-- The record of `width` cells at an offset, if all its parts are there. -/
def record? [DecidableEq H] (memory : Memory H) (offset width : Nat) : Option H :=
  if offset + width ≤ memory.length then
    match memory.read offset width with
    | (.parts record 0, count) :: rest =>
      if continues record count rest then some record else none
    | _ => none
  else none

@[simp]
theorem length_store (memory : Memory H) (offset width : Nat) (record : H) :
    (memory.store offset width record).length = memory.length := length_fill ..

/-- The rest of a record continues a stretch exactly if the stretch holds these parts in order. -/
theorem continues_iff [DecidableEq H] {record : H} {base : Nat} {stretch : Stretch H}
    (positive : ∀ run count, (run, count) ∈ stretch → 0 < count) :
    continues record base stretch = true ↔
      stretch.cells = (List.range stretch.length).map fun index => .part record (base + index) := by
  induction stretch generalizing base with
  | nil => simp [continues, Stretch.cells, Stretch.length]
  | cons head rest ih =>
    obtain ⟨run, count⟩ := head
    have some_cell : 0 < count := positive run count (List.mem_cons_self ..)
    have ih := @ih (base + count) fun run count h => positive run count (List.mem_cons_of_mem _ h)
    -- a run has one first cell, and this one tells which record it belongs to
    have head_cells : (List.range count).map run.cell =
        (List.range count).map (fun index => .part record (base + index)) ↔
          run = .parts record base := by
      constructor
      · intro same
        have zero := List.map_inj_left.1 same 0 (List.mem_range.2 some_cell)
        exact Run.eq_parts_of_cell_zero zero
      · rintro rfl
        rfl
    have split : Stretch.cells ((run, count) :: rest) =
        (List.range (Stretch.length ((run, count) :: rest))).map
          (fun index => .part record (base + index)) ↔
        run = .parts record base ∧ Stretch.cells rest =
          (List.range (Stretch.length rest)).map
            (fun index => .part record (base + count + index)) := by
      rw [Stretch.cells, Stretch.length, List.range_add, List.map_append, List.map_map,
        ← head_cells]
      constructor
      · intro same
        have halves := List.append_inj same (by simp)
        exact ⟨halves.1, by simpa [Function.comp_def, Nat.add_assoc] using halves.2⟩
      · rintro ⟨here, there⟩
        rw [here, there]
        simp [Function.comp_def, Nat.add_assoc]
    rw [split, ← ih]
    cases run with
    | ramp _ _ => simp [continues]
    | parts found first =>
      simp only [continues, Bool.and_eq_true, decide_eq_true_eq, Run.parts.injEq]
      constructor
      · rintro ⟨⟨here, same⟩, there⟩
        exact ⟨⟨same, here⟩, there⟩
      · rintro ⟨⟨same, here⟩, there⟩
        exact ⟨⟨here, same⟩, there⟩

/-- A record is found exactly where all its parts are. -/
theorem record?_eq_some_iff [DecidableEq H] {memory : Memory H} {offset width : Nat} {record : H}
    (positive : 0 < width) :
    memory.record? offset width = some record ↔
      offset + width ≤ memory.length ∧
        ∀ index < width, memory.cell (offset + index) = .part record index := by
  have runs : ∀ run count, (run, count) ∈ memory.read offset width → 0 < count :=
    fun _ _ h => Tree.count_pos_of_mem_slice h
  -- the run-length reading looks for one record whose parts follow each other through all runs
  have found : memory.record? offset width = some record ↔
      offset + width ≤ memory.length ∧ continues record 0 (memory.read offset width) = true := by
    have some_cell : (memory.read offset width).length = width := length_read ..
    unfold record?
    split
    · rename_i fits
      simp only [fits, true_and]
      split
      · rename_i other count rest same
        rw [same]
        simp only [continues, Nat.zero_add, decide_true, Bool.true_and, Bool.and_eq_true,
          decide_eq_true_eq]
        split
        · rename_i here
          constructor
          · rintro ⟨rfl⟩
            exact ⟨rfl, here⟩
          · rintro ⟨rfl, _⟩
            rfl
        · rename_i here
          constructor
          · intro h
            cases h
          · rintro ⟨rfl, h⟩
            exact absurd h here
      · rename_i other
        constructor
        · intro h
          cases h
        · intro h
          exfalso
          match stretch : memory.read offset width with
          | [] =>
            rw [stretch, Stretch.length] at some_cell
            omega
          | (.ramp _ _, _) :: _ => simp [stretch, continues] at h
          | (.parts part base, count) :: rest =>
            rw [stretch] at h
            simp only [continues, Bool.and_eq_true, decide_eq_true_eq] at h
            exact other _ _ _ (by rw [stretch, h.1.1])
    · rename_i short
      simp [short]
  rw [found, continues_iff runs, cells_read, length_read]
  simp only [Nat.zero_add, List.map_inj_left, List.mem_range]

/-- A stored record is found. -/
theorem record?_store [DecidableEq H] (memory : Memory H) {offset width : Nat} (record : H)
    (positive : 0 < width) (fits : offset + width ≤ memory.length) :
    (memory.store offset width record).record? offset width = some record := by
  rw [record?_eq_some_iff positive, length_store]
  refine ⟨fits, fun index h => ?_⟩
  rw [store, cell_fill _ _ _ _ (by omega), if_pos (by omega)]
  simp [Run.cell]

end PagedAlloc.Memory
