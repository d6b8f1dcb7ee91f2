import PagedAlloc.Arena.Build

/-!
# Reading an arena

Contents are read through references, and only while no build is in progress, since every addition
may move the buffer. A range is readable if it starts below the length of the arena and ends within
it. Bytes beyond the length are never read.
-/

namespace PagedAlloc.Arena

/-- The `count` bytes at an offset may be read. -/
def Readable (arena : Arena) (offset count : Nat) : Prop :=
  firstOffset ≤ offset ∧ offset < arena.length ∧ count ≤ arena.length - offset

instance (arena : Arena) (offset count : Nat) : Decidable (arena.Readable offset count) :=
  inferInstanceAs (Decidable (_ ∧ _))

/-- Stops unless the `count` bytes at a reference may be read now. -/
def checkReadable (arena : Arena) (reference : Reference) (count : Nat) : Except Fault Unit :=
  if arena.isBuilding then .error .readWithinBuild
  else if arena.Readable reference.offset count then .ok ()
  else .error (.outOfRange reference.offset count arena.length)

/-- The cells of the buffer from an offset on. -/
def cells (arena : Arena) (offset count : Nat) : Stretch Empty :=
  arena.region.memory.read offset count

/-- The `count` bytes at a reference. -/
def read (arena : Arena) (reference : Reference) (count : Nat) : Except Fault (Stretch Empty) := do
  arena.checkReadable reference count
  return arena.cells reference.offset count

/-- Overwrites the bytes at a reference. -/
def overwrite (reference : Reference) (content : Stretch Empty) :
    Procedure (Machine × Arena) Unit := do
  let arena ← Procedure.own
  Procedure.checked (arena.checkReadable reference content.length)
  Procedure.modifyOwn fun arena => { arena with
    region := { arena.region with
      memory := arena.region.memory.write reference.offset content } }

/-- The integer at a reference. -/
def readInteger (arena : Arena) (reference : Reference) (type : IntegerType) :
    Except Fault Int := do
  let found ← arena.read reference type.width
  return type.decode found.bytes

/-- The bytes before the first zero byte, if there is one. -/
def untilZero : List UInt8 → Option (List UInt8)
  | [] => none
  | first :: rest => if first = 0 then some [] else (untilZero rest).map (first :: ·)

/-- The bytes at a reference before the first zero byte, if there is one. -/
def readTerminated (arena : Arena) (reference : Reference) :
    Except Fault (Option (List UInt8)) := do
  arena.checkReadable reference 0
  return untilZero (arena.cells reference.offset (arena.length - reference.offset)).bytes

/-- The bytes at a reference behind their number. -/
def readPrefixed (arena : Arena) (reference : Reference) : Except Fault (Stretch Empty) := do
  let count := (← arena.readInteger reference .lengthPrefix).toNat
  let width := IntegerType.lengthPrefix.width
  arena.checkReadable reference (width + count)
  return arena.cells (reference.offset + width) count

/-- The text at a reference behind the number of its bytes, if they are the bytes of a text. -/
def readText (arena : Arena) (reference : Reference) : Except Fault (Option String) := do
  let found ← arena.readPrefixed reference
  return String.fromUTF8? (ByteArray.mk found.bytes.toArray)

end PagedAlloc.Arena
