import PagedAlloc.Machine.Heap
import PagedAlloc.Region.Strategy

/-!
# Regions

A region is the memory at an address together with the length its owner may use. The owner holds the
contents as a value, and the ledger of the machine holds the address and the length.

This module obtains regions and gives them back, each by a strategy.
-/

namespace PagedAlloc

variable [Size.Paging]

/-- Owned memory. -/
structure Region where
  /-- Address of the first byte. -/
  address : Nat
  /-- Number of bytes that the owner may use. Mapped memory goes on to the end of its last page. -/
  length : Nat
  /-- The contents. -/
  memory : Memory Empty
  deriving Repr

namespace Region

open Procedure

/-- A region whose usable length is all of its memory. -/
def ofMemory (address : Nat) (memory : Memory Empty) : Region := ⟨address, memory.length, memory⟩

/-- Stops with the invalid layout unless size and alignment describe a heap region. -/
def ensureLayout (size align : Nat) : Procedure σ Unit :=
  if Heap.IsLayout size align then pure () else fail (.invalidLayout size align)

/-- The heap refused: the process ends if the source says so, and otherwise the request fails. -/
def refused (aborts : Bool) (size align : Nat) (event : Event) : Procedure Machine α := do
  if aborts then
    emit (.aborting size align)
    crash (.aborted size)
  else
    emit event
    fail (.outOfMemory size)

/-- Obtains whole pages that hold at least `size` bytes. -/
def allocatePages (size align : Nat) : Procedure Machine Region := do
  if size = 0 ∨ ¬ Size.IsPowerOfTwo align ∨ Size.pageSize < align then
    fail (.invalidLayout size align)
  let length ← orFail .overflow (Size.roundToPages? size)
  let address ← orFail (.outOfMemory length) (← Pages.map length)
  return ofMemory address (Memory.zeroed length)

/-- Obtains just `size` bytes from the heap. -/
def allocateHeap (source : Source) (size align : Nat) : Procedure Machine Region := do
  ensureLayout size align
  match ← Heap.allocate size align with
  | some address =>
    let environment ← environment
    return ofMemory address <|
      if source.zeroes then Memory.zeroed size else ⟨size, environment.residue address size⟩
  | none => refused source.aborts size align (.heapRefused size)

/-- Obtains at least `size` bytes at a multiple of `align`. Mapped regions are whole pages. -/
def allocate (source : Source) (size align : Nat) : Procedure Machine Region :=
  match source with
  | .pageMap => allocatePages size align
  | .heapOrAbort | .heapOrFail | .heapZeroedOrAbort | .heapZeroedOrFail =>
    allocateHeap source size align

/-- Gives back a region of `size` usable bytes at an address. -/
def release (disposal : Disposal) (address size align : Nat) : Procedure Machine Unit :=
  match disposal with
  | .heapFree =>
    if Heap.IsLayout size align then Heap.free address size align
    else crash (.freeingHeap address (.invalidLayout size align))
  | .pageUnmap =>
    match Size.roundToPages? size with
    | some length => Pages.unmap address length
    | none => crash (.unmappingRegion size address)

end Region

end PagedAlloc
