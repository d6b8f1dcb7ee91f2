import PagedAlloc.Region.Resize

/-!
# Arenas

An arena is one growing buffer from which memory is taken in stack order. What is in it is named by
its offset from the start of the buffer, so names stay good when the buffer moves. The first bytes
are never handed out, and the offset zero stands for no reference.

This module holds the state of an arena, its making and giving back, and how its buffer grows.
-/

namespace PagedAlloc

variable [Size.Paging]

/-- A build in progress. -/
structure Build where
  /-- Length of the arena when the build began. -/
  start : Nat
  /-- The first failure of the build, if any. -/
  failure : Option Failure
  deriving DecidableEq, Repr

/-- A growing buffer whose contents are named by offsets. -/
structure Arena where
  /-- The buffer. -/
  region : Region
  /-- Bytes in use: the reserved ones, what was kept, and what the build in progress added. -/
  length : Nat
  /-- How the buffer is obtained, resized and given back. -/
  strategies : Strategies
  /-- The diagnostic switches. -/
  diagnostics : Diagnostics
  /-- The build in progress, if any. -/
  build : Option Build
  deriving Repr

/-- The name of something in an arena. -/
structure Reference where
  /-- Distance from the start of the buffer. -/
  offset : Nat
  deriving DecidableEq, Repr

/-- The reference of an offset; zero is none. -/
def Reference.ofOffset? (offset : Nat) : Option Reference :=
  if offset = 0 then none else some ⟨offset⟩

namespace Arena

open Procedure

/-- Offsets below this one are never handed out. -/
def firstOffset : Nat := 16

/-- Alignment of the buffer. -/
def alignment : Nat := 16

/-- Bytes that the buffer holds. -/
def capacity (arena : Arena) : Nat := arena.region.length

/-- Whether a build is in progress. -/
def isBuilding (arena : Arena) : Bool := arena.build.isSome

/-- Whether nothing is in the arena. -/
def isEmpty (arena : Arena) : Bool := arena.length = firstOffset

/-- An arena that holds `capacity` bytes, the reserved ones among them, before it grows. -/
def create (capacity : Nat) (strategies : Strategies) (diagnostics : Diagnostics) :
    Procedure Machine Arena := do
  ensure strategies.IsConsistent (.mismatchedArena strategies)
  let size ← orFail .overflow (Size.roundUp? (max capacity firstOffset) alignment)
  let region ← Region.allocate strategies.source size alignment
  let memory := region.memory.fill 0 firstOffset (Run.constant 0)
  emit (.arenaCreated region.length region.address strategies)
  return ⟨{ region with memory := memory }, firstOffset, strategies, diagnostics, none⟩

/-- An arena on pages that may move. -/
def onPages (capacity : Nat) : Procedure Machine Arena :=
  create capacity .pages .off

/-- Gives the buffer back. -/
def release : Procedure (Machine × Arena) Unit := do
  let arena ← own
  note (.arenaReleased arena.capacity arena.region.address)
  ask (Region.release arena.strategies.disposal arena.region.address arena.capacity alignment)

/-- Takes a new buffer in place of the present one. -/
def replaceBuffer (region : Region) : Procedure (Machine × Arena) Unit := do
  let arena ← own
  if region.address ≠ arena.region.address then
    note (.bufferMoved arena.region.address region.address arena.capacity region.length)
  modifyOwn fun arena => { arena with region := region }

/-- The capacity that an arena wants in order to hold `needed` bytes: what it has, if that is
enough, and otherwise at least twice of it. -/
def wanted? (arena : Arena) (needed : Nat) : Option Nat :=
  if needed ≤ arena.capacity then some arena.capacity
  else (Size.mul? arena.capacity 2).bind fun doubled =>
    Size.roundUp? (max doubled needed) alignment

/-- Makes room for more bytes. Under forced relocation the buffer moves whether it has room or
not. -/
def makeRoom (additional : Nat) : Procedure (Machine × Arena) Unit := do
  let arena ← own
  let needed ← orFail .overflow (Size.add? arena.length additional)
  let force := arena.diagnostics.forceRelocation && arena.strategies.mayMove
  if needed ≤ arena.capacity ∧ ¬ force then
    return
  let capacity ← orFail .overflow (arena.wanted? needed)
  let region ← ask <|
    if force then
      Region.relocate arena.strategies arena.region arena.capacity capacity alignment
        arena.diagnostics
    else
      Region.resize arena.strategies.resizing arena.region arena.capacity capacity alignment
        arena.diagnostics
  replaceBuffer region

/-- Stops if a build is in progress. -/
def ensureIdle (call : IdleCall) : Procedure (Machine × Arena) Unit := do
  let arena ← own
  ensure (arena.build = none) (.busy call)

/-- Discards a reference and all that came after it. -/
def truncate (reference : Reference) : Procedure (Machine × Arena) Unit := do
  ensureIdle .truncate
  let arena ← own
  ensure (firstOffset ≤ reference.offset ∧ reference.offset ≤ arena.length)
    (.cannotPop reference.offset arena.length)
  note (.popped (arena.length - reference.offset))
  modifyOwn fun arena => { arena with length := reference.offset }

/-- Discards everything and keeps the buffer. -/
def clear : Procedure (Machine × Arena) Unit := do
  ensureIdle .clear
  modifyOwn fun arena => { arena with length := firstOffset }

/-- Makes sure that `additional` more bytes fit without growing. -/
def reserve (additional : Nat) : Procedure (Machine × Arena) Unit := do
  ensureIdle .reserve
  makeRoom additional

/-- Gives unused capacity back, if the buffer may move. -/
def shrink : Procedure (Machine × Arena) Unit := do
  ensureIdle .shrink
  let arena ← own
  let target ← checked (Size.roundUp arena.length alignment)
  if target < arena.capacity ∧ arena.strategies.mayMove then
    let region ← ask <|
      Region.resize arena.strategies.resizing arena.region arena.capacity target alignment
        arena.diagnostics
    replaceBuffer region

/-- The diagnostic notation of a build. -/
def shownBuild : Option Build → String
  | none => "Idle"
  | some build =>
    Text.tagged "Building" <| Text.record "Build"
      [("start", toString build.start), ("failure", Text.optional Failure.shown build.failure)]

/-- The diagnostic notation of an arena. -/
def shown (arena : Arena) : String :=
  Text.record "Arena"
    [("buffer", Text.address arena.region.address), ("len", toString arena.length),
      ("capacity", toString arena.capacity), ("strategies", arena.strategies.shown),
      ("state", shownBuild arena.build)]

end Arena

end PagedAlloc
