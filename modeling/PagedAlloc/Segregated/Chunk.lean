import PagedAlloc.Memory.Record
import PagedAlloc.Segregated.Block

/-!
# Chunks

A chunk is a mapping that begins with a header of its own and is tiled by blocks behind it. The
chunk remembers the payload size of its largest free block, so a search can pass over a chunk that
has nothing to offer.

Splitting and merging change the headers of the blocks involved: the two blocks of a split or a
merge and the link of the block after them. A header that a merge gives up stays in memory until
something is written there. Each step looks at everything it needs before it writes. -/

namespace PagedAlloc

variable [Size.Paging]

/-- A mapping that is tiled by blocks. -/
structure Chunk where
  /-- Bytes of the mapping, the header of the chunk among them. -/
  size : Nat
  /-- Index of the category that the chunk belongs to. -/
  category : Nat
  /-- Payload size of the largest free block; zero if no block is free. -/
  largestFree : Nat
  /-- The mapped memory. -/
  memory : Memory BlockHeader
  deriving Repr

namespace Chunk

/-- Bytes of the header of a chunk. -/
def headerSize : Nat := 48

/-- Length of the mapping for one block of `size` bytes, if it fits a machine word. -/
def lengthFor? (size : Nat) : Option Nat :=
  (Size.add? (headerSize + Block.headerSize) size).bind Size.roundToPages?

/-- The largest payload of a fresh chunk of `length` bytes. -/
def freshCapacity (length : Nat) : Except Fault Nat := do
  let area ← Size.sub length headerSize
  Size.sub area Block.headerSize

/-- The first block of the chunk at an address. -/
def firstBlock (address : Nat) : BlockRef := ⟨address, headerSize⟩

/-- The header of a block. -/
def header (chunk : Chunk) (ref : BlockRef) : Except Fault BlockHeader :=
  match chunk.memory.record? ref.offset Block.headerSize with
  | some header => .ok header
  | none => .error (.missingRecord ref.address)

/-- Writes the header of a block. -/
def setHeader (chunk : Chunk) (ref : BlockRef) (header : BlockHeader) : Chunk :=
  { chunk with memory := chunk.memory.store ref.offset Block.headerSize header }

/-- The block behind one with this header, if there is one. -/
def after (chunk : Chunk) (ref : BlockRef) (header : BlockHeader) :
    Except Fault (Option BlockRef) := do
  let total ← header.total
  let next := ref.offset + total
  if chunk.size < next then
    throw (.pastChunkEnd ref.address)
  return if next < chunk.size then some ⟨ref.chunk, next⟩ else none

/-- The block behind another, if there is one. -/
def next (chunk : Chunk) (ref : BlockRef) : Except Fault (Option BlockRef) := do
  chunk.after ref (← chunk.header ref)

/-- At most `bound` blocks from one on, with their headers. -/
def walk (chunk : Chunk) : (bound : Nat) → BlockRef → Except Fault (List (BlockRef × BlockHeader))
  | 0, _ => .ok []
  | bound + 1, ref => do
    let header ← chunk.header ref
    match ← chunk.after ref header with
    | none => return [(ref, header)]
    | some next => return (ref, header) :: (← chunk.walk bound next)

/-- The blocks from one on, with their headers. Each block takes at least the bytes of a header,
which bounds their number. -/
def blocksFrom (chunk : Chunk) (ref : BlockRef) : Except Fault (List (BlockRef × BlockHeader)) :=
  chunk.walk (chunk.size / Block.headerSize + 1) ref

/-- The blocks of the chunk at an address, with their headers. -/
def blocks (chunk : Chunk) (address : Nat) : Except Fault (List (BlockRef × BlockHeader)) :=
  chunk.blocksFrom (firstBlock address)

/-- Turns all that is behind the header of the chunk into one free block. -/
def freeAll (chunk : Chunk) (address : Nat) : Except Fault Chunk := do
  let size ← freshCapacity chunk.size
  return { chunk.setHeader (firstBlock address) ⟨address, none, size, true⟩ with
    largestFree := size }

/-- Payload size of the largest free block among some blocks, or `before` if that is more. -/
def largestOf (before : Nat) (blocks : List (BlockRef × BlockHeader)) : Nat :=
  blocks.foldl (fun largest (_, header) =>
    if header.isFree then max largest header.size else largest) before

/-- Finds out the largest free block again, from the blocks at `ref` and behind it. The free blocks
in front of `ref` hold at most `before` bytes. -/
def measureFrom (chunk : Chunk) (ref : BlockRef) (before : Nat) : Except Fault Chunk := do
  return { chunk with largestFree := largestOf before (← chunk.blocksFrom ref) }

/-- Finds out the largest free block again. -/
def measure (chunk : Chunk) (address : Nat) : Except Fault Chunk :=
  chunk.measureFrom (firstBlock address) 0

/-- Accounts for a free block that came up. -/
def raiseLargest (chunk : Chunk) (size : Nat) : Chunk :=
  { chunk with largestFree := max chunk.largestFree size }

/-- Whether the chunk is a single free block. -/
def isUnused (chunk : Chunk) (address : Nat) : Except Fault Bool := do
  let header ← chunk.header (firstBlock address)
  if header.isFree then
    return (← chunk.after (firstBlock address) header).isNone
  else
    return false

/-- The first free block with at least `size` bytes of payload, and the payload size of the largest
free block in front of it. -/
def firstFit (size : Nat) : (before : Nat) → List (BlockRef × BlockHeader) → Option (BlockRef × Nat)
  | _, [] => none
  | before, (ref, header) :: rest =>
    if header.isFree then
      if size ≤ header.size then some (ref, before)
      else firstFit size (max before header.size) rest
    else firstFit size before rest

/-- Links the block at `ref`, if there is one, back to the block at `prev`. -/
def linkBack (chunk : Chunk) (ref : Option BlockRef) (prev : Nat) : Except Fault Chunk :=
  match ref with
  | none => .ok chunk
  | some ref => do
    let header ← chunk.header ref
    return chunk.setHeader ref { header with prev := some prev }

/-- Cuts a block after `size` bytes of payload, if what is left can be a block. Gives the new, free
block. -/
def split (chunk : Chunk) (ref : BlockRef) (size : Nat) :
    Except Fault (Option BlockRef × Chunk) := do
  let header ← chunk.header ref
  if ← Block.splits header.size size then
    let following ← chunk.after ref header
    let rest ← Size.sub (← Size.sub header.size size) Block.headerSize
    let remainder : BlockRef := ⟨ref.chunk, ref.payloadOffset + size⟩
    let cut := (chunk.setHeader remainder ⟨header.chunk, some ref.offset, rest, true⟩).setHeader ref
      { header with size := size }
    return (some remainder, ← cut.linkBack following remainder.offset)
  else
    return (none, chunk)

/-- Merges the block behind another into it. -/
def absorbNext (chunk : Chunk) (ref : BlockRef) : Except Fault Chunk := do
  let header ← chunk.header ref
  match ← chunk.after ref header with
  | none => return chunk
  | some next =>
    let absorbed ← chunk.header next
    let following ← chunk.after next absorbed
    let size ← Size.add header.size (← absorbed.total)
    (chunk.setHeader ref { header with size := size }).linkBack following ref.offset

/-- Whether there is a block at `ref` and it is free. -/
def isFreeAt (chunk : Chunk) (ref : Option BlockRef) : Except Fault Bool :=
  match ref with
  | none => .ok false
  | some ref => return (← chunk.header ref).isFree

/-- Merges the block behind another into it, if the one behind is free. -/
def absorbFreeNext (chunk : Chunk) (ref : BlockRef) : Except Fault Chunk := do
  if ← chunk.isFreeAt (← chunk.next ref) then chunk.absorbNext ref else return chunk

/-- Merges a free block with the block behind it and with the one in front of it, if they are free.
Gives the resulting block. -/
def coalesce (chunk : Chunk) (ref : BlockRef) : Except Fault (BlockRef × Chunk) := do
  let chunk ← chunk.absorbFreeNext ref
  match (← chunk.header ref).prev with
  | none => return (ref, chunk)
  | some offset =>
    let prev : BlockRef := ⟨ref.chunk, offset⟩
    if (← chunk.header prev).isFree then
      return (prev, ← chunk.absorbNext prev)
    else
      return (ref, chunk)

end Chunk

end PagedAlloc
