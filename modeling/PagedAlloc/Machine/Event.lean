import PagedAlloc.Failure
import PagedAlloc.Region.Strategy

/-!
# Events

What allocators write to the log, each with its level and its text. The log of a machine keeps the
events themselves, so that statements about a run need not read texts.
-/

namespace PagedAlloc

/-- How much an event matters. -/
inductive Level where
  /-- Every step. -/
  | trace
  /-- Steps that are rare. -/
  | debug
  /-- Requests that were not served. -/
  | warning
  /-- The end of the process. -/
  | error
  deriving DecidableEq, Repr

/-- Name of a level. -/
def Level.name : Level → String
  | trace => "TRACE"
  | debug => "DEBUG"
  | warning => "WARN"
  | error => "ERROR"

/-- A logged step of an allocator. -/
inductive Event where
  /-- Pages were mapped. -/
  | mapped (length address : Nat)
  /-- The kernel refused to map pages. -/
  | mapRefused (length : Nat)
  /-- Pages are about to be unmapped. -/
  | unmapping (length address : Nat)
  /-- A mapping was resized and is elsewhere now. -/
  | remapped (old new length : Nat)
  /-- A mapping was resized where it is. -/
  | resized (address length : Nat)
  /-- The kernel refused to resize a mapping. -/
  | remapRefused (old new address : Nat)
  /-- The heap refused a region. -/
  | heapRefused (size : Nat)
  /-- The heap refused to resize a region. -/
  | heapGrowthRefused (old new : Nat)
  /-- The heap refused a region that the process cannot go on without. -/
  | aborting (size align : Nat)
  /-- A region was moved on purpose. -/
  | relocated (size old new : Nat)
  /-- The debug layer moved a heap region. -/
  | heapMoved (old new : Nat)
  /-- The debug layer moved a mapping. -/
  | mappingMoved (old new : Nat)
  /-- The debug layer could not take away the access to an abandoned mapping. -/
  | staleUnprotected (address : Nat)
  /-- An arena was made. -/
  | arenaCreated (length address : Nat) (strategies : Strategies)
  /-- An addition to a build failed. -/
  | addFailed (failure : Failure)
  /-- A failed build was rolled back. -/
  | buildRolledBack (start : Nat) (failure : Failure)
  /-- A build was kept. -/
  | committed (count start : Nat)
  /-- The end of an arena was cut off. -/
  | popped (count : Nat)
  /-- The buffer of an arena is elsewhere now. -/
  | bufferMoved (old new capacity length : Nat)
  /-- An arena was given back. -/
  | arenaReleased (length address : Nat)
  /-- A list of fixed blocks got another chunk. -/
  | fixedChained (count address blocks size : Nat)
  /-- A fixed block was handed out. -/
  | fixedTaken (address : Nat)
  /-- A fixed block was given back. -/
  | fixedReturned (address : Nat)
  /-- All fixed blocks are in use. -/
  | fixedExhausted (count size : Nat)
  /-- A list of fixed blocks is about to be given back. -/
  | fixedReleasing (count size : Nat)
  /-- A category got another chunk. -/
  | chunkChained (category count address length : Nat)
  /-- A category gave a chunk back. -/
  | chunkReleased (category length : Nat)
  /-- A block of a segregated list was handed out. -/
  | allocated (category size address : Nat)
  /-- A segregated list could not serve a request. -/
  | allocationFailed (size : Nat) (failure : Failure)
  /-- A block of a segregated list is about to be given back. -/
  | freed (category size address : Nat)
  /-- The contents of a block were moved to another. -/
  | contentsMoved (count old new : Nat)
  deriving DecidableEq, Repr

namespace Event

/-- Level of an event. -/
def level : Event → Level
  | mapped .. | unmapping .. | resized .. | committed .. | popped .. | fixedTaken ..
  | fixedReturned .. | allocated .. | freed .. | contentsMoved .. => .trace
  | remapped .. | relocated .. | heapMoved .. | mappingMoved .. | arenaCreated ..
  | bufferMoved .. | arenaReleased .. | fixedChained .. | fixedReleasing .. | chunkChained ..
  | chunkReleased .. => .debug
  | mapRefused .. | remapRefused .. | heapRefused .. | heapGrowthRefused .. | staleUnprotected ..
  | addFailed .. | buildRolledBack .. | fixedExhausted .. | allocationFailed .. => .warning
  | aborting .. => .error

/-- Text of an event. -/
def text : Event → String
  | mapped length address => s!"mapped {length} bytes at {Text.address address}"
  | mapRefused length => s!"kernel refused to map {length} bytes"
  | unmapping length address => s!"unmapping {length} bytes at {Text.address address}"
  | remapped old new length =>
    s!"mapping moved from {Text.address old} to {Text.address new} ({length} bytes)"
  | resized address length => s!"mapping at {Text.address address} resized to {length} bytes"
  | remapRefused old new address =>
    s!"failed to remap {old} -> {new} bytes at {Text.address address}"
  | heapRefused size => s!"heap refused {size} bytes"
  | heapGrowthRefused old new => s!"heap refused to grow {old} -> {new} bytes"
  | aborting size align =>
    s!"heap allocation of {size} bytes (align {align}) failed, aborting"
  | relocated size old new =>
    s!"relocated {size} bytes from {Text.address old} to {Text.address new}"
  | heapMoved old new =>
    s!"debug layer moved heap region {Text.address old} -> {Text.address new}"
  | mappingMoved old new =>
    s!"debug layer moved mapping {Text.address old} -> {Text.address new}, old pages poisoned"
  | staleUnprotected address =>
    s!"could not protect stale mapping at {Text.address address}, poisoning instead"
  | arenaCreated length address strategies =>
    s!"arena created with {length} bytes at {Text.address address} ({strategies.shown})"
  | addFailed failure => s!"arena add failed: {failure.message}"
  | buildRolledBack start failure =>
    s!"arena build failed, rolling back to {start}: {failure.message}"
  | committed count start => s!"arena committed {count} bytes at {start}"
  | popped count => s!"arena popped {count} bytes"
  | bufferMoved old new capacity length =>
    s!"arena buffer moved {Text.address old} -> {Text.address new}, {capacity} -> {length} bytes"
  | arenaReleased length address => s!"arena released {length} bytes at {Text.address address}"
  | fixedChained count address blocks size =>
    s!"fixed free list chained chunk #{count} at {Text.address address} " ++
      s!"({blocks} blocks of {size} bytes)"
  | fixedTaken address => s!"fixed free list handed out {Text.address address}"
  | fixedReturned address => s!"fixed free list got back {Text.address address}"
  | fixedExhausted count size =>
    s!"fixed free list exhausted: {count} blocks of {size} bytes in use"
  | fixedReleasing count size =>
    s!"fixed free list releasing {count} chunks of {size} bytes"
  | chunkChained category count address length =>
    s!"category {category} chained chunk #{count} at {Text.address address} ({length} bytes)"
  | chunkReleased category length => s!"category {category} released chunk of {length} bytes"
  | allocated category size address =>
    s!"category {category} allocated {size} bytes at {Text.address address}"
  | allocationFailed size failure =>
    s!"segregated free list failed to allocate {size} bytes: {failure.message}"
  | freed category size address =>
    s!"category {category} freed {size} bytes at {Text.address address}"
  | contentsMoved count old new =>
    s!"moved {count} bytes from {Text.address old} to {Text.address new}"

end Event

end PagedAlloc
