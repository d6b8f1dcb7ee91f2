import PagedAlloc.Size

/-!
# Blocks

A chunk of a segregated list is tiled by blocks. Each begins with a header, which lies in the same
memory as the payload behind it. The header tells the chunk, the block before, the size of the
payload and whether the block is free; the block after begins where the payload ends.
-/

namespace PagedAlloc

/-- What is stored in front of a payload. -/
structure BlockHeader where
  /-- Address of the chunk. -/
  chunk : Nat
  /-- Offset in the chunk of the block right before, if there is one. -/
  prev : Option Nat
  /-- Bytes of the payload. -/
  size : Nat
  /-- Whether nobody uses the payload. -/
  isFree : Bool
  deriving DecidableEq, Repr

/-- Where a block is. -/
structure BlockRef where
  /-- Address of its chunk. -/
  chunk : Nat
  /-- Distance of its header from the start of the chunk. -/
  offset : Nat
  deriving DecidableEq, Repr

namespace Block

/-- Bytes of a header. -/
def headerSize : Nat := 32

/-- Every payload begins at a multiple of this and has a multiple of this as its size. -/
def payloadAlign : Nat := 16

/-- The smallest payload. -/
def minPayload : Nat := 16

/-- The size of the payload that serves a request, if it fits a machine word. -/
def payloadSize? (size : Nat) : Option Nat := Size.roundUp? (max size minPayload) payloadAlign

/-- Whether `available` bytes of payload can be cut into `size` bytes and another block. -/
def splits (available size : Nat) : Except Fault Bool := do
  let header ← Size.add size headerSize
  let least ← Size.add header minPayload
  return least ≤ available

end Block

namespace BlockHeader

/-- Bytes of the block, header and payload. -/
def total (header : BlockHeader) : Except Fault Nat := Size.add Block.headerSize header.size

end BlockHeader

namespace BlockRef

/-- Address of the header. -/
def address (ref : BlockRef) : Nat := ref.chunk + ref.offset

/-- Distance of the payload from the start of the chunk. -/
def payloadOffset (ref : BlockRef) : Nat := ref.offset + Block.headerSize

/-- Address of the payload. -/
def payload (ref : BlockRef) : Nat := ref.chunk + ref.payloadOffset

end BlockRef

end PagedAlloc
