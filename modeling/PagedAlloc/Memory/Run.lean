/-!
# Cells and runs

Memory is made of cells. A cell holds a byte, or one part of a record that was written as a whole:
the records that an allocator keeps in the memory it hands out (headers, links) are stored part by
part, so overwriting any part destroys the record.

A run describes consecutive cells by a rule, and a stretch is a list of runs with their lengths. The
view of both is the cell at an index.
-/

namespace PagedAlloc

/-- What one address of memory holds, with records of type `H` among the bytes. -/
inductive Cell (H : Type) where
  /-- A byte. -/
  | byte (value : UInt8)
  /-- The part of `record` at distance `index` from its start. -/
  | part (record : H) (index : Nat)
  deriving DecidableEq, Repr

/-- Memory without records holds nothing but bytes. -/
def Cell.toByte : Cell Empty → UInt8
  | byte value => value

/-- A rule that gives the cell at every distance from a start. -/
inductive Run (H : Type) where
  /-- Bytes that change by the same step from each cell to the next, modulo 256. -/
  | ramp (first step : UInt8)
  /-- The parts of a record, beginning with the one at distance `base` from its start. -/
  | parts (record : H) (base : Nat)
  deriving DecidableEq, Repr

namespace Run

/-- The cell at distance `index` from the start of a run. -/
def cell : Run H → Nat → Cell H
  | ramp first step, index => .byte (first + step * UInt8.ofNat index)
  | parts record base, index => .part record (base + index)

/-- A run without its first `count` cells. -/
def drop : Run H → Nat → Run H
  | ramp first step, count => ramp (first + step * UInt8.ofNat count) step
  | parts record base, count => parts record (base + count)

/-- The same byte everywhere. -/
def constant (value : UInt8) : Run H := ramp value 0

theorem cell_drop (run : Run H) (count index : Nat) :
    (run.drop count).cell index = run.cell (count + index) := by
  cases run with
  | ramp first step =>
    simp only [drop, cell, Cell.byte.injEq, UInt8.ofNat_add]
    rw [UInt8.mul_add, UInt8.add_assoc]
  | parts record base => simp [drop, cell, Nat.add_assoc]

@[simp]
theorem cell_constant (value : UInt8) (index : Nat) :
    (constant value : Run H).cell index = .byte value := by
  simp [constant, cell]

/-- A run that begins with a part of a record holds the parts from there on. -/
theorem eq_parts_of_cell_zero {run : Run H} {record : H} {base : Nat}
    (h : run.cell 0 = .part record base) : run = .parts record base := by
  cases run with
  | ramp first step => simp [cell] at h
  | parts found first => simpa [cell] using h

end Run

/-- Consecutive runs with their lengths. -/
abbrev Stretch (H : Type) := List (Run H × Nat)

namespace Stretch

/-- Number of cells of a stretch. -/
def length : Stretch H → Nat
  | [] => 0
  | (_, count) :: rest => count + length rest

/-- The cells of a stretch, in order. -/
def cells : Stretch H → List (Cell H)
  | [] => []
  | (run, count) :: rest => (List.range count).map run.cell ++ cells rest

/-- A list of bytes, each a run of its own. -/
def ofBytes (bytes : List UInt8) : Stretch H := bytes.map fun value => (Run.constant value, 1)

/-- A number of zero bytes. -/
def zeros (count : Nat) : Stretch H := [(Run.constant 0, count)]

/-- The bytes of a stretch without records. -/
def bytes (stretch : Stretch Empty) : List UInt8 := stretch.cells.map Cell.toByte

/-- A run of equal bytes in front of others, joined with the first of them if it has the same
byte. -/
def joinRun (value : UInt8) (count : Nat) : List (UInt8 × Nat) → List (UInt8 × Nat)
  | (next, more) :: rest =>
    if value = next then (value, count + more) :: rest else (value, count) :: (next, more) :: rest
  | [] => [(value, count)]

/-- The runs of equal bytes of a stretch, each as long as possible. Parts of records are passed
over. -/
def byteRuns : Stretch H → List (UInt8 × Nat)
  | [] => []
  | (.parts .., _) :: rest => byteRuns rest
  | (.ramp first step, count) :: rest =>
    if count = 0 then byteRuns rest
    else if step = 0 then joinRun first count (byteRuns rest)
    else (List.range count).foldr (fun index => joinRun (first + step * UInt8.ofNat index) 1)
      (byteRuns rest)

@[simp]
theorem length_cells (stretch : Stretch H) : stretch.cells.length = stretch.length := by
  induction stretch with
  | nil => rfl
  | cons head rest ih => simp [cells, length, ih]

@[simp]
theorem length_append (a b : Stretch H) : length (a ++ b) = a.length + b.length := by
  induction a with
  | nil => simp [length]
  | cons head rest ih => simp [length, ih, Nat.add_assoc]

@[simp]
theorem cells_append (a b : Stretch H) : cells (a ++ b) = a.cells ++ b.cells := by
  induction a with
  | nil => simp [cells]
  | cons head rest ih => simp [cells, ih]

@[simp]
theorem length_zeros (count : Nat) : (zeros count : Stretch H).length = count := rfl

@[simp]
theorem length_ofBytes (bytes : List UInt8) :
    (ofBytes bytes : Stretch H).length = bytes.length := by
  induction bytes with
  | nil => rfl
  | cons value rest ih =>
    have : (ofBytes (value :: rest) : Stretch H) = (Run.constant value, 1) :: ofBytes rest := rfl
    rw [this, length, ih, List.length_cons, Nat.add_comm]

@[simp]
theorem cells_ofBytes (bytes : List UInt8) :
    (ofBytes bytes : Stretch H).cells = bytes.map Cell.byte := by
  induction bytes with
  | nil => rfl
  | cons value rest ih =>
    have : (ofBytes (value :: rest) : Stretch H) = (Run.constant value, 1) :: ofBytes rest := rfl
    rw [this, cells, ih]
    simp

end Stretch

end PagedAlloc
