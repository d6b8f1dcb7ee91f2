import PagedAlloc.Memory.Run

/-!
# Cell trees

A tree of cells covers a range of known size and halves it at every node. A leaf fills its whole
range by one run, so a freshly mapped region is a single leaf however long it is, and writing a run
splits only the nodes that the ends of the run fall into.

The view of a tree is `get`. Main statements: `get_fill`, filling a range by a run changes exactly
the cells of this range; `cells_slice`, a slice holds the cells of its range in order.
-/

namespace PagedAlloc

/-- Cells of a range, halved at every node. -/
inductive Tree (H : Type) where
  /-- The whole range holds one run. -/
  | leaf (run : Run H)
  /-- The two halves of the range. -/
  | node (left right : Tree H)
  deriving Repr

namespace Tree

/-- The cell at an offset of a tree that covers `size` cells. -/
def get : Tree H → (size offset : Nat) → Cell H
  | leaf run, _, offset => run.cell offset
  | node left right, size, offset =>
    if offset < size / 2 then left.get (size / 2) offset
    else right.get (size - size / 2) (offset - size / 2)

/-- The cells from `start` up to `stop` of a tree that covers `size` cells. -/
def slice : Tree H → (size start stop : Nat) → Stretch H
  | leaf run, _, start, stop => if start < stop then [(run.drop start, stop - start)] else []
  | node left right, size, start, stop =>
    (if start < size / 2 then left.slice (size / 2) start (min stop (size / 2)) else []) ++
      if size / 2 < stop then right.slice (size - size / 2) (start - size / 2) (stop - size / 2)
      else []

/-- The halves of a tree that covers `size` cells. -/
def halves : Tree H → (size : Nat) → Tree H × Tree H
  | leaf run, size => (leaf run, leaf (run.drop (size / 2)))
  | node left right, _ => (left, right)

/-- Writes a run over the cells from `start` up to `stop` of a tree that covers `size` cells, where
`size` is at most two to the power of `depth`. -/
def fill : (depth : Nat) → (size : Nat) → Tree H → (start stop : Nat) → Run H → Tree H
  | depth, size, tree, start, stop, run =>
    if start = 0 ∧ size ≤ stop then leaf run
    else match depth with
      | 0 => tree
      | depth + 1 =>
        let (left, right) := tree.halves size
        let half := size / 2
        node
          (if start < half then fill depth half left start (min stop half) run else left)
          (if half < stop then
            fill depth (size - half) right (start - half) (stop - half) (run.drop (half - start))
          else right)

theorem get_halves_left (tree : Tree H) {size offset : Nat} (h : offset < size / 2) :
    (tree.halves size).1.get (size / 2) offset = tree.get size offset := by
  cases tree with
  | leaf run => rfl
  | node left right => simp [halves, get, h]

theorem get_halves_right (tree : Tree H) {size offset : Nat} (h : size / 2 ≤ offset) :
    (tree.halves size).2.get (size - size / 2) (offset - size / 2) = tree.get size offset := by
  cases tree with
  | leaf run =>
    simp only [halves, get, Run.cell_drop]
    rw [Nat.add_sub_cancel' h]
  | node left right => simp [halves, get, Nat.not_lt.2 h]

/-- Filling a range by a run changes exactly the cells of this range. -/
theorem get_fill (depth : Nat) {size offset : Nat} (tree : Tree H) (start stop : Nat) (run : Run H)
    (fits : size ≤ 1 <<< depth) (inside : offset < size) :
    (fill depth size tree start stop run).get size offset =
      if start ≤ offset ∧ offset < stop then run.cell (offset - start)
      else tree.get size offset := by
  induction depth generalizing size offset tree start stop run with
  | zero =>
    unfold fill
    split
    · rename_i whole
      rw [if_pos (by omega), whole.1]
      rfl
    · rw [if_neg (by omega)]
  | succ depth ih =>
    unfold fill
    split
    · rename_i whole
      rw [if_pos (by omega), whole.1]
      rfl
    · rw [Nat.shiftLeft_succ] at fits
      simp only [get]
      -- a node sends each of its halves the part of the range that is in it
      by_cases low : offset < size / 2
      · rw [if_pos low]
        split
        · rw [ih _ _ _ _ (by omega) low, get_halves_left tree low]
          by_cases covered : start ≤ offset ∧ offset < stop
          · rw [if_pos covered, if_pos (by omega)]
          · rw [if_neg covered, if_neg (by omega)]
        · rw [get_halves_left tree low, if_neg (by omega)]
      · rw [if_neg low]
        split
        · rw [ih _ _ _ _ (by omega) (by omega), get_halves_right tree (by omega), Run.cell_drop]
          by_cases covered : start ≤ offset ∧ offset < stop
          · rw [if_pos covered, if_pos (by omega)]
            congr 1
            omega
          · rw [if_neg covered, if_neg (by omega)]
        · rw [get_halves_right tree (by omega), if_neg (by omega)]

/-- A slice holds the cells of its range in order. -/
theorem cells_slice (tree : Tree H) (size start stop : Nat) :
    (tree.slice size start stop).cells =
      (List.range (stop - start)).map fun index => tree.get size (start + index) := by
  induction tree generalizing size start stop with
  | leaf run =>
    unfold slice
    split
    · simp [Stretch.cells, get, Run.cell_drop]
    · rw [Nat.sub_eq_zero_of_le (by omega)]
      rfl
  | node left right ihl ihr =>
    have leftPart : Stretch.cells (if start < size / 2 then
          left.slice (size / 2) start (min stop (size / 2)) else []) =
        (List.range (min stop (size / 2) - start)).map fun index =>
          (node left right).get size (start + index) := by
      split
      · rw [ihl]
        apply List.map_congr_left
        intro index h
        rw [List.mem_range] at h
        rw [get, if_pos (by omega)]
      · rw [Nat.sub_eq_zero_of_le (by omega)]
        rfl
    have rightPart : Stretch.cells (if size / 2 < stop then
          right.slice (size - size / 2) (start - size / 2) (stop - size / 2) else []) =
        (List.range (stop - max start (size / 2))).map fun index =>
          (node left right).get size (max start (size / 2) + index) := by
      split
      · rw [ihr, show stop - size / 2 - (start - size / 2) = stop - max start (size / 2) by omega]
        apply List.map_congr_left
        intro index h
        rw [List.mem_range] at h
        rw [get, if_neg (by omega)]
        congr 1
        omega
      · rw [Nat.sub_eq_zero_of_le (by omega)]
        rfl
    rw [slice, Stretch.cells_append, leftPart, rightPart]
    -- the range lies in both halves or in one of them only, and then the other part is empty
    by_cases crosses : start < size / 2 ∧ size / 2 < stop
    · have total : stop - start = (size / 2 - start) + (stop - size / 2) := by omega
      rw [Nat.min_eq_right (by omega), Nat.max_eq_right (by omega), total, List.range_add,
        List.map_append, List.map_map]
      congr 1
      apply List.map_congr_left
      intro index _
      simp only [Function.comp]
      congr 1
      omega
    · by_cases low : stop ≤ size / 2
      · rw [Nat.min_eq_left low, show stop - max start (size / 2) = 0 by omega]
        simp
      · rw [show min stop (size / 2) - start = 0 by omega, Nat.max_eq_left (by omega)]
        simp

/-- Every run of a slice has at least one cell. -/
theorem count_pos_of_mem_slice {tree : Tree H} {size start stop : Nat} {run : Run H}
    {count : Nat} (h : (run, count) ∈ tree.slice size start stop) : 0 < count := by
  induction tree generalizing size start stop with
  | leaf whole =>
    unfold slice at h
    split at h
    · simp only [List.mem_singleton, Prod.mk.injEq] at h
      omega
    · simp at h
  | node left right ihl ihr =>
    rw [slice, List.mem_append] at h
    rcases h with h | h
    · split at h
      · exact ihl h
      · simp at h
    · split at h
      · exact ihr h
      · simp at h

end Tree

end PagedAlloc
