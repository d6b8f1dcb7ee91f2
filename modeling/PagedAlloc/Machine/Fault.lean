import PagedAlloc.Failure
import PagedAlloc.Region.Strategy

/-!
# Faults

Broken promises: a caller that breaks the rules of an allocator, or books that contradict the
memory. A fault stops the operation where it is detected.
-/

namespace PagedAlloc

/-- The calls of an arena that end a build. -/
inductive BuildEnd where
  /-- Keeping what was built. -/
  | commit
  /-- Discarding what was built. -/
  | abandon
  deriving DecidableEq, Repr

/-- The calls of an arena that need it idle. -/
inductive IdleCall where
  /-- Discarding a reference and all after it. -/
  | truncate
  /-- Discarding everything. -/
  | clear
  /-- Making room in advance. -/
  | reserve
  /-- Giving unused capacity back. -/
  | shrink
  deriving DecidableEq, Repr

/-- Name of a call that ends a build. -/
def BuildEnd.name : BuildEnd → String
  | commit => "commit"
  | abandon => "dismiss"

/-- Name of a call that needs an idle arena. -/
def IdleCall.name : IdleCall → String
  | truncate => "pop_upto"
  | clear => "clear"
  | reserve => "reserve"
  | shrink => "shrink_to_fit"

/-- Why an operation stopped. -/
inductive Fault where
  /-- A sum does not fit a machine word. -/
  | addition
  /-- A difference would be negative. -/
  | subtraction
  /-- An index is not below the length of its table. -/
  | indexOutOfBounds (length position : Nat)
  /-- A mapping of part of a page was asked for. -/
  | mappingLength (length : Nat)
  /-- Part of a page was to be unmapped. -/
  | unmappingLength (length : Nat)
  /-- A mapping was to be resized from or to part of a page. -/
  | remappingLengths (old new : Nat)
  /-- The kernel did not unmap. -/
  | unmapRefused (length address : Nat)
  /-- A size and an alignment describe no heap region. -/
  | freeingHeap (address : Nat) (failure : Failure)
  /-- A size describes no pages. -/
  | unmappingRegion (size address : Nat)
  /-- The heap refused a request that must not fail. -/
  | aborted (size : Nat)
  /-- Strategies of two families were joined. -/
  | mismatchedStrategies (strategies : Strategies)
  /-- An arena was made from strategies of two families. -/
  | mismatchedArena (strategies : Strategies)
  /-- Something was added to an arena outside a build. -/
  | addWithoutBegin
  /-- An alignment in an arena is not a power of two. -/
  | arenaAlignment (alignment : Nat)
  /-- A build was begun within a build. -/
  | beginWithinBuild
  /-- A build was ended outside a build. -/
  | endWithoutBegin (call : BuildEnd)
  /-- A call that needs an idle arena was made within a build. -/
  | busy (call : IdleCall)
  /-- An arena was read within a build. -/
  | readWithinBuild
  /-- An arena was read past its length. -/
  | outOfRange (reference count length : Nat)
  /-- An arena was cut at an offset that it does not reach. -/
  | cannotPop (reference length : Nat)
  /-- An address is in no chunk of a list of fixed blocks. -/
  | foreignBlock (address : Nat)
  /-- An address is inside a fixed block. -/
  | notBlockStart (address : Nat)
  /-- A fixed block was given back to a chunk that has none in use. -/
  | idleChunk (address : Nat)
  /-- A block was given back twice. -/
  | doubleFree (address : Nat)
  /-- An address belongs to no category of a segregated list. -/
  | foreignPayload (address : Nat)
  /-- A block reaches beyond its chunk. -/
  | pastChunkEnd (address : Nat)
  /-- The chunk of a block is not in the chain of its category. -/
  | strayChunk (address : Nat)
  /-- A chunk was mapped that cannot hold the block it was mapped for. -/
  | freshChunkTooSmall (length size : Nat)
  /-- A block was to shrink to more than it holds. -/
  | shrinkAboveSize (size requested : Nat)
  /-- Memory holds no record where one is expected. -/
  | missingRecord (address : Nat)
  deriving DecidableEq, Repr

namespace Fault

/-- The sentence that is printed when a fault stops an operation. -/
def message : Fault → String
  | addition => "attempt to add with overflow"
  | subtraction => "attempt to subtract with overflow"
  | indexOutOfBounds length position =>
    s!"index out of bounds: the len is {length} but the index is {position}"
  | mappingLength length => s!"mapping length {length} is not page aligned"
  | unmappingLength length => s!"unmapping length {length} is not page aligned"
  | remappingLengths old new => s!"remapping lengths {old} -> {new} are not page aligned"
  | unmapRefused length address => s!"failed to unmap {length} bytes at {Text.address address}"
  | freeingHeap address failure =>
    s!"cannot free heap region at {Text.address address}: {failure.message}"
  | unmappingRegion size address =>
    s!"cannot unmap region of {size} bytes at {Text.address address}"
  | aborted size => s!"memory allocation of {size} bytes failed"
  | mismatchedStrategies strategies => s!"mismatched strategies: {strategies.shown}"
  | mismatchedArena strategies => s!"mismatched arena strategies: {strategies.shown}"
  | addWithoutBegin => "arena: add called without begin"
  | arenaAlignment alignment => s!"arena: alignment {alignment} is not a power of two"
  | beginWithinBuild => "arena: begin called while a build is in progress"
  | endWithoutBegin call => s!"arena: {call.name} called without begin"
  | busy call => s!"arena: {call.name} while a build is in progress"
  | readWithinBuild => "arena: reference dereferenced while a build is in progress"
  | outOfRange reference count length =>
    s!"arena: reference {reference} (+{count} bytes) out of range, arena length is {length}"
  | cannotPop reference length =>
    s!"arena: cannot pop to {reference}, arena length is {length}"
  | foreignBlock address =>
    s!"fixed free list: {Text.address address} does not belong to any chunk"
  | notBlockStart address =>
    s!"fixed free list: {Text.address address} is not the start of a block"
  | idleChunk address =>
    s!"fixed free list: {Text.address address} freed but its chunk has no blocks in use"
  | doubleFree address =>
    s!"segregated free list: double free of block at {Text.address address}"
  | foreignPayload address =>
    s!"segregated free list: {Text.address address} was not allocated here"
  | pastChunkEnd address => s!"block at {Text.address address} runs past the end of its chunk"
  | strayChunk address => s!"chunk at {Text.address address} is not in the chain of its category"
  | freshChunkTooSmall length size => s!"chunk of {length} bytes cannot serve {size} bytes"
  | shrinkAboveSize size requested => s!"block of {size} bytes cannot shrink to {requested} bytes"
  | missingRecord address => s!"no record at {Text.address address}"

end Fault

/-- Joins three strategies, which have to belong to one family. -/
def Strategies.join (source : Source) (resizing : Resizing) (disposal : Disposal) :
    Except Fault Strategies :=
  let strategies : Strategies := ⟨source, resizing, disposal⟩
  if strategies.IsConsistent then .ok strategies else .error (.mismatchedStrategies strategies)

/-- What ends an operation early. -/
inductive Stop where
  /-- The request was not served. -/
  | failure (failure : Failure)
  /-- A promise was broken. -/
  | fault (fault : Fault)
  deriving DecidableEq, Repr

end PagedAlloc
