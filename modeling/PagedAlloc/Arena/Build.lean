import PagedAlloc.Arena.Basic
import PagedAlloc.Arena.Integer

/-!
# Building in an arena

Writing happens in builds. A build begins, adds one piece after the other, and is kept by a commit
or discarded by a dismissal. Once an addition fails the build is marked: later additions repeat the
first failure and write nothing, and the commit discards the build.

A push is a build of one piece.
-/

namespace PagedAlloc.Arena

variable [Size.Paging]

open Procedure

/-- Begins a build. -/
def begin : Procedure (Machine × Arena) Unit := do
  let arena ← own
  ensure (arena.build = none) .beginWithinBuild
  modifyOwn fun arena => { arena with build := some ⟨arena.length, none⟩ }

/-- Leaves the build in progress and gives it. -/
def endBuild (call : BuildEnd) : Procedure (Machine × Arena) Build := do
  let arena ← own
  match arena.build with
  | some build =>
    modifyOwn fun arena => { arena with build := none }
    return build
  | none => crash (.endWithoutBegin call)

/-- Keeps what was built and names its first byte. A build that failed is discarded instead, with
its first failure. -/
def commit : Procedure (Machine × Arena) Reference := do
  let build ← endBuild .commit
  match build.failure with
  | some failure =>
    note (.buildRolledBack build.start failure)
    modifyOwn fun arena => { arena with length := build.start }
    fail failure
  | none =>
    let arena ← own
    note (.committed (← checked (Size.sub arena.length build.start)) build.start)
    return ⟨build.start⟩

/-- Discards what was built. -/
def abandon : Procedure (Machine × Arena) Unit := do
  let build ← endBuild .abandon
  modifyOwn fun arena => { arena with length := build.start }

/-- Fails, and marks the build in progress unless it is marked already. -/
def refuse (failure : Failure) : Procedure (Machine × Arena) Unit := do
  note (.addFailed failure)
  modifyOwn fun arena => { arena with
    build := arena.build.map fun build =>
      { build with failure := some (build.failure.getD failure) } }
  fail failure

/-- Adds cells to the build in progress. -/
def add (content : Stretch Empty) : Procedure (Machine × Arena) Unit := do
  let arena ← own
  match arena.build with
  | none => crash .addWithoutBegin
  | some build =>
    match build.failure with
    | some failure => fail failure
    | none =>
      match ← attempt (makeRoom content.length) with
      | .error failure => refuse failure
      | .ok () =>
        modifyOwn fun arena => { arena with
          region := { arena.region with memory := arena.region.memory.write arena.length content }
          length := arena.length + content.length }

/-- Adds bytes. -/
def addBytes (bytes : List UInt8) : Procedure (Machine × Arena) Unit := add (Stretch.ofBytes bytes)

/-- Adds zero bytes. -/
def addZeroes (count : Nat) : Procedure (Machine × Arena) Unit := add (Stretch.zeros count)

/-- Adds zero bytes until the length of the arena is a multiple of `alignment`. -/
def addAlign (alignment : Nat) : Procedure (Machine × Arena) Unit := do
  ensure (Size.IsPowerOfTwo alignment) (.arenaAlignment alignment)
  let arena ← own
  let aligned ← checked (Size.roundUp arena.length alignment)
  addZeroes (← checked (Size.sub aligned arena.length))

/-- Adds an integer. -/
def addInteger (type : IntegerType) (value : Int) : Procedure (Machine × Arena) Unit :=
  addBytes (type.encode value)

/-- Adds an address. -/
def addPointer (address : Nat) : Procedure (Machine × Arena) Unit := addInteger .word address

/-- The bytes of a text. -/
def utf8 (text : String) : List UInt8 := text.toUTF8.toList

/-- Adds a text and a zero byte behind it. -/
def addTerminated (text : String) : Procedure (Machine × Arena) Unit := addBytes (utf8 text ++ [0])

/-- Adds cells behind their number, which has to fit four bytes. -/
def addPrefixed (content : Stretch Empty) : Procedure (Machine × Arena) Unit := do
  if IntegerType.lengthPrefix.modulus ≤ content.length then
    refuse .overflow
  else
    addInteger .lengthPrefix content.length
    add content

/-- Adds a text behind the number of its bytes. -/
def addText (text : String) : Procedure (Machine × Arena) Unit :=
  addPrefixed (Stretch.ofBytes (utf8 text))

/-- A build of one addition. -/
def push (addition : Procedure (Machine × Arena) Unit) : Procedure (Machine × Arena) Reference := do
  begin
  match ← attempt addition with
  | .ok () => commit
  | .error failure =>
    abandon
    fail failure

end PagedAlloc.Arena
