import PagedAlloc.Chain
import PagedAlloc.Machine.Pages
import PagedAlloc.Segregated.Chunk

/-!
# Categories

A category serves payloads of one range of sizes from a chain of its own chunks. A shared category
maps chunks of one length and cuts blocks out of them; it splits free blocks on demand and merges
free neighbours at once. The dedicated category maps a chunk for each payload and never cuts it.

A search takes the first fit: the first chunk of the chain that remembers a large enough free block,
and the first such block in it. Chunks go back to the kernel only when asked.
-/

namespace PagedAlloc

variable [Size.Paging]

/-- One size class of a segregated list. -/
structure Category where
  /-- Index in the segregated list, stored in every chunk. -/
  index : Nat
  /-- Length of each chunk; none if each chunk is made for one payload. -/
  chunkSize : Option Nat
  /-- The chunks at their addresses. -/
  chunks : Chain Chunk
  /-- Mapped bytes. -/
  mapped : Nat
  /-- Payload bytes of the blocks in use. -/
  used : Nat
  deriving Repr

/-- What a category tells about its use. -/
structure Usage where
  /-- Number of chunks. -/
  chunks : Nat
  /-- Mapped bytes. -/
  mapped : Nat
  /-- Payload bytes of the blocks in use. -/
  used : Nat
  deriving DecidableEq, Repr

/-- What is in a chunk. -/
structure ChunkLayout where
  /-- Bytes of the mapping. -/
  size : Nat
  /-- Index of the category. -/
  category : Nat
  /-- Payload size of the largest free block, as the chunk remembers it. -/
  largestFree : Nat
  /-- Headers of the blocks in order of their addresses. -/
  blocks : List BlockHeader
  deriving DecidableEq, Repr

/-- The diagnostic notation of the use of a category. -/
def Usage.shown (usage : Usage) : String :=
  Text.record "CategoryStats"
    [("chunks", toString usage.chunks), ("total_memory_usage", toString usage.mapped),
      ("total_user_memory_usage", toString usage.used)]

namespace Category

open Procedure

/-- A category that has no chunk yet. -/
def empty (index : Nat) (chunkSize : Option Nat) : Category := ⟨index, chunkSize, .empty, 0, 0⟩

/-- The use of a category. -/
def usage (category : Category) : Usage :=
  ⟨category.chunks.length, category.mapped, category.used⟩

/-- What is in some chunks. -/
def layoutOf : List (Nat × Chunk) → Except Fault (List ChunkLayout)
  | [] => .ok []
  | (address, chunk) :: rest => do
    let blocks := (← chunk.blocks address).map Prod.snd
    return ⟨chunk.size, chunk.category, chunk.largestFree, blocks⟩ :: (← layoutOf rest)

/-- What is in the chunks, in the order of the chain. -/
def layout (category : Category) : Except Fault (List ChunkLayout) :=
  layoutOf category.chunks.toList

/-- The chunk at an address. -/
def chunkAt (address : Nat) : Procedure (Machine × Category) Chunk := do
  let category ← own
  match category.chunks.get? address with
  | some chunk => return chunk
  | none => crash (.missingRecord address)

/-- Puts a chunk back at its address. -/
def putChunk (address : Nat) (chunk : Chunk) : Procedure (Machine × Category) Unit :=
  modifyOwn fun category => { category with chunks := category.chunks.put address chunk }

/-- Changes the chunk at an address. -/
def onChunk (address : Nat) (step : Chunk → Except Fault (α × Chunk)) :
    Procedure (Machine × Category) α := do
  let chunk ← chunkAt address
  let (value, changed) ← checked (step chunk)
  putChunk address changed
  return value

/-- Changes the chunk at an address and gives nothing. -/
def updateChunk (address : Nat) (step : Chunk → Except Fault Chunk) :
    Procedure (Machine × Category) Unit :=
  onChunk address fun chunk => return ((), ← step chunk)

/-- The header of a block. -/
def header (ref : BlockRef) : Procedure (Machine × Category) BlockHeader := do
  checked ((← chunkAt ref.chunk).header ref)

/-- Adds to the bytes in use. -/
def addUsed (size : Nat) : Procedure (Machine × Category) Unit := do
  let used ← checked (Size.add (← own).used size)
  modifyOwn fun category => { category with used := used }

/-- Takes away from the bytes in use. -/
def subUsed (size : Nat) : Procedure (Machine × Category) Unit := do
  let used ← checked (Size.sub (← own).used size)
  modifyOwn fun category => { category with used := used }

/-- The first free block with at least `size` bytes in some chunks, and the payload size of the
largest free block in front of it in its chunk. Chunks that remember only smaller free blocks are
passed over. -/
def firstFit (size : Nat) : List (Nat × Chunk) → Except Fault (Option (BlockRef × Nat))
  | [] => .ok none
  | (address, chunk) :: rest => do
    if size ≤ chunk.largestFree then
      match Chunk.firstFit size 0 (← chunk.blocks address) with
      | some found => return some found
      | none => firstFit size rest
    else
      firstFit size rest

/-- The length of a chunk that is mapped for a payload of `size` bytes. -/
def chunkLength (size : Nat) : Procedure (Machine × Category) Nat := do
  match (← own).chunkSize with
  | some length => return length
  | none => orFail .overflow (Chunk.lengthFor? size)

/-- Puts a fresh mapping at the end of the chain, as one free block. -/
def chainChunk (address length : Nat) : Procedure (Machine × Category) Unit := do
  let chunk : Chunk := ⟨length, (← own).index, 0, Memory.zeroed length⟩
  modifyOwn fun category => { category with chunks := category.chunks.append address chunk }
  updateChunk address (·.freeAll address)
  let mapped ← checked (Size.add (← own).mapped length)
  modifyOwn fun category => { category with mapped := mapped }
  let category ← own
  note (.chunkChained category.index category.chunks.length address length)

/-- Maps a chunk that holds at least `size` bytes of payload, as one free block, and gives its
address. -/
def mapChunk (size : Nat) : Procedure (Machine × Category) Nat := do
  let length ← chunkLength size
  ensure (size ≤ (← checked (Chunk.freshCapacity length))) (.freshChunkTooSmall length size)
  let address ← orFail (.outOfMemory length) (← ask (Pages.map length))
  chainChunk address length
  return address

/-- A free block of at least `size` bytes, in a fresh chunk if no other chunk has one, and the
payload size of the largest free block in front of it in its chunk. -/
def findOrMap (size : Nat) : Procedure (Machine × Category) (BlockRef × Nat) := do
  match ← checked (firstFit size (← own).chunks.toList) with
  | some found => return found
  | none => return (Chunk.firstBlock (← mapChunk size), 0)

/-- Marks a free block as used. Before it was cut it held `whole` bytes, and the free blocks in
front of it hold at most `before` bytes. -/
def occupy (ref : BlockRef) (whole before : Nat) : Procedure (Machine × Category) Unit := do
  let found ← header ref
  updateChunk ref.chunk fun chunk => .ok (chunk.setHeader ref { found with isFree := false })
  addUsed found.size
  if whole = (← chunkAt ref.chunk).largestFree then
    updateChunk ref.chunk (·.measureFrom ref before)

/-- Takes a free block of at least `size` bytes into use, without what it does not need. The free
blocks in front of it hold at most `before` bytes. -/
def take (ref : BlockRef) (size before : Nat) : Procedure (Machine × Category) Unit := do
  let whole := (← header ref).size
  if (← own).chunkSize.isSome then
    discard <| onChunk ref.chunk (·.split ref size)
  occupy ref whole before

/-- Takes a block of at least `size` bytes, which is a valid payload size, into use. -/
def allocate (size : Nat) : Procedure (Machine × Category) BlockRef := do
  let (ref, before) ← findOrMap size
  take ref size before
  return ref

/-- Merges a free block with its free neighbours and remembers how large it became. -/
def coalesceAt (ref : BlockRef) : Procedure (Machine × Category) Unit := do
  let merged ← onChunk ref.chunk (·.coalesce ref)
  updateChunk merged.chunk fun chunk => do
    return chunk.raiseLargest (← chunk.header merged).size

/-- Gives a block back. -/
def free (ref : BlockRef) : Procedure (Machine × Category) Unit := do
  let found ← header ref
  ensure (found.isFree = false) (.doubleFree ref.address)
  subUsed found.size
  updateChunk ref.chunk fun chunk => .ok (chunk.setHeader ref { found with isFree := true })
  coalesceAt ref

/-- Shrinks a block in use to `size` bytes, if the rest of it can be a block. -/
def shrink (ref : BlockRef) (size : Nat) : Procedure (Machine × Category) Unit := do
  let old := (← header ref).size
  ensure (size ≤ old) (.shrinkAboveSize old size)
  if (← own).chunkSize.isSome then
    match ← onChunk ref.chunk (·.split ref size) with
    | none => return
    | some remainder =>
      subUsed (← checked (Size.sub old (← header ref).size))
      coalesceAt remainder

/-- Grows a block in use to at least `size` bytes by taking in the block behind it, if that one is
free and large enough. Tells whether it did so. -/
def grow (ref : BlockRef) (size : Nat) : Procedure (Machine × Category) Bool := do
  if (← own).chunkSize.isNone then
    return false
  let chunk ← chunkAt ref.chunk
  match ← checked (chunk.next ref) with
  | none => return false
  | some next =>
    let behind ← header next
    let old := (← header ref).size
    if behind.isFree = false then
      return false
    if (← checked (do Size.add old (← behind.total))) < size then
      return false
    updateChunk ref.chunk (·.absorbNext ref)
    discard <| onChunk ref.chunk (·.split ref size)
    addUsed (← checked (Size.sub (← header ref).size old))
    if behind.size = (← chunkAt ref.chunk).largestFree then
      updateChunk ref.chunk (·.measure ref.chunk)
    return true

/-- Turns each of some chunks into one free block. -/
def freeEach : List Nat → Procedure (Machine × Category) Unit
  | [] => return
  | address :: rest => do
    updateChunk address (·.freeAll address)
    freeEach rest

/-- Forgets every block in use. The chunks stay mapped. -/
def clear : Procedure (Machine × Category) Unit := do
  freeEach (← own).chunks.addresses
  modifyOwn fun category => { category with used := 0 }

/-- Gives a chunk back to the kernel, and tells how many bytes that were. -/
def unmapChunk (address : Nat) : Procedure (Machine × Category) Nat := do
  let length := (← chunkAt address).size
  modifyOwn fun category => { category with chunks := category.chunks.remove address }
  ask (Pages.unmap address length)
  let mapped ← checked (Size.sub (← own).mapped length)
  modifyOwn fun category => { category with mapped := mapped }
  note (.chunkReleased (← own).index length)
  return length

/-- Gives some chunks back to the kernel, and tells how many bytes that were together. -/
def releaseEach : List Nat → Procedure (Machine × Category) Nat
  | [] => return 0
  | address :: rest => do
    let length ← unmapChunk address
    let others ← releaseEach rest
    checked (Size.add length others)

/-- The chunks without a block in use. -/
def unused : List (Nat × Chunk) → Except Fault (List Nat)
  | [] => .ok []
  | (address, chunk) :: rest => do
    let isUnused ← chunk.isUnused address
    let others ← unused rest
    return if isUnused then address :: others else others

/-- Gives the chunks without a block in use back to the kernel. Tells how many bytes that were. -/
def trim : Procedure (Machine × Category) Nat := do
  releaseEach (← checked (unused (← own).chunks.toList))

/-- Gives every chunk back to the kernel. -/
def release : Procedure (Machine × Category) Unit := do
  discard <| releaseEach (← own).chunks.addresses
  modifyOwn fun category => { category with used := 0 }

end Category

end PagedAlloc
