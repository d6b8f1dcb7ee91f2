import PagedAlloc.Machine.Fault
import PagedAlloc.Memory.Record
import PagedAlloc.Size

/-!
# Chunks of fixed blocks

A chunk of a fixed list is a mapping with a header and an array of blocks of one size. A free block
holds a link to the next free block of its chunk. A link may instead say that this block and all
behind it are free: taking such a block hands the mark on to the block behind it, so blocks that
were never used need no links. -/

namespace PagedAlloc

/-- What a free block holds. -/
structure FreeLink where
  /-- Offset in the chunk of the next free block, if there is one. -/
  next : Option Nat
  /-- This block and all behind it are free, and `next` means nothing. -/
  restFree : Bool
  deriving DecidableEq, Repr

/-- A mapping that is an array of blocks. -/
structure FixedChunk where
  /-- Offset of the first free block, if there is one. -/
  free : Option Nat
  /-- Bytes of the mapping, the header of the chunk among them. -/
  size : Nat
  /-- Number of blocks in use. -/
  inUse : Nat
  /-- The mapped memory. -/
  memory : Memory FreeLink
  deriving Repr

namespace FixedChunk

/-- Bytes of the header of a chunk. The first block begins behind it. -/
def headerSize : Nat := 48

/-- Bytes of a link. No block is smaller. -/
def linkSize : Nat := 16

/-- Bytes of the smallest chunk for blocks of a size, if they fit a machine word: the header and one
block, and at least two headers. -/
def minSize? (blockSize : Nat) : Option Nat :=
  (Size.add? headerSize blockSize).map (max · (2 * headerSize))

/-- Makes every block free. -/
def freeAll (chunk : FixedChunk) : FixedChunk :=
  { chunk with
    memory := chunk.memory.store headerSize linkSize ⟨none, true⟩
    free := some headerSize
    inUse := 0 }

/-- Takes the first free block of the chunk at `address` into use and zeroes it. The block is at
`offset` in the chunk. -/
def take (chunk : FixedChunk) (address offset blockSize : Nat) : Except Fault FixedChunk :=
  match chunk.memory.record? offset linkSize with
  | none => .error (.missingRecord (address + offset))
  | some link =>
    let following := offset + blockSize
    let marks := link.restFree && following + blockSize ≤ chunk.size
    let memory :=
      if marks then chunk.memory.store following linkSize ⟨none, true⟩ else chunk.memory
    .ok { chunk with
      free := if link.restFree then (if marks then some following else none) else link.next
      inUse := chunk.inUse + 1
      memory := memory.fill offset blockSize (Run.constant 0) }

/-- Puts the block at `offset` in front of the free blocks. -/
def give (chunk : FixedChunk) (offset : Nat) : FixedChunk :=
  { chunk with
    memory := chunk.memory.store offset linkSize ⟨chunk.free, false⟩
    free := some offset
    inUse := chunk.inUse - 1 }

end FixedChunk

end PagedAlloc
