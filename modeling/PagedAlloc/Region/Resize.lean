import PagedAlloc.Diagnostics
import PagedAlloc.Region.Basic

/-!
# Resizing regions

A region changes its length by the strategy of its owner, and keeps the bytes that both lengths
have. When a request is not served, the owner still has the region as it was.

Under the debug layer every resize that may move does move. What is left behind is poisoned, so that
a stale address is noticed: pages lose all access and are never given back, heap regions are
overwritten.
-/

namespace PagedAlloc.Region

variable [Size.Paging]

open Procedure

/-- The contents of fresh memory after the first `count` bytes of a region are copied into it. -/
def copied (region : Region) (count : Nat) (fresh : Memory Empty) : Memory Empty :=
  fresh.write 0 (region.memory.read 0 count)

/-- Moves a heap region of `size` bytes to a new one. The old one is poisoned and freed. -/
def moveHeap (source : Source) (region : Region) (size newSize align : Nat) :
    Procedure Machine Region := do
  let target ← allocate source newSize align
  let moved := ofMemory target.address (region.copied (min size newSize) target.memory)
  release .heapFree region.address size align
  emit (.heapMoved region.address moved.address)
  return moved

/-- Moves a mapping of `length` bytes to a new one. The old one loses all access and stays mapped,
so its address is never used again. -/
def moveMapping (region : Region) (length newLength : Nat) : Procedure Machine Region := do
  let address ← orFail (.outOfMemory newLength) (← Pages.map newLength)
  let moved := ofMemory address (region.copied (min length newLength) (Memory.zeroed newLength))
  if ¬ (← Pages.protect region.address length .none) then
    emit (.staleUnprotected region.address)
  emit (.mappingMoved region.address moved.address)
  return moved

/-- Resizes a heap region of `size` bytes. -/
def resizeHeap (source : Source) (region : Region) (size newSize align : Nat) :
    Procedure Machine Region := do
  ensureLayout size align
  ensureLayout newSize align
  match ← Heap.resize region.address size newSize align with
  | some address =>
    let environment ← environment
    return ofMemory address (region.memory.resized newSize (environment.residue address newSize))
  | none => refused source.aborts newSize align (.heapGrowthRefused size newSize)

/-- Resizes a mapping of `length` bytes. -/
def resizeMapping (region : Region) (length newLength : Nat) (mayMove : Bool) :
    Procedure Machine Region := do
  match ← Pages.remap region.address length newLength mayMove with
  | some address =>
    return ofMemory address (region.memory.resized newLength (.leaf (Run.constant 0)))
  | none => fail (if mayMove then .outOfMemory newLength else .cannotGrow length newLength)

/-- Resizes a region of `size` usable bytes. Mapped regions become whole pages. -/
def resize (resizing : Resizing) (region : Region) (size newSize align : Nat)
    (diagnostics : Diagnostics) : Procedure Machine Region := do
  match resizing with
  | .noOp =>
    if newSize ≤ size then return { region with length := size }
    else fail (.cannotGrow size newSize)
  | .heapOrAbort | .heapOrFail =>
    let source := if resizing = .heapOrAbort then .heapOrAbort else .heapOrFail
    if diagnostics.debugLayer then moveHeap source region size newSize align
    else resizeHeap source region size newSize align
  | .remapMayMove | .remapKeepAddress =>
    let length ← orFail .overflow (Size.roundToPages? size)
    let newLength ← orFail .overflow (Size.roundToPages? newSize)
    let mayMove := resizing.mayMove
    if mayMove && diagnostics.debugLayer && newLength ≠ 0 then moveMapping region length newLength
    else if newLength = 0 then fail (.invalidLayout newSize align)
    else resizeMapping region length newLength mayMove

/-- Moves a region of `size` usable bytes to a new one, also where it could stay. Regions that can
never move are refused. -/
def relocate (strategies : Strategies) (region : Region) (size newSize align : Nat)
    (diagnostics : Diagnostics) : Procedure Machine Region := do
  if ¬ strategies.mayMove then fail (.cannotGrow size newSize)
  else if diagnostics.debugLayer then
    resize strategies.resizing region size newSize align diagnostics
  else
    let target ← allocate strategies.source newSize align
    let moved :=
      ofMemory target.address (region.copied (min size target.length) target.memory)
    release strategies.disposal region.address size align
    emit (.relocated size region.address moved.address)
    return moved

end PagedAlloc.Region
