import PagedAlloc.Chain
import PagedAlloc.Fixed.Chunk
import PagedAlloc.Machine.Pages

/-!
# Fixed lists

A fixed list hands out blocks of one size. It takes the first free block of the first chunk of its
chain that has one, and chains another chunk when there is none, unless that is disabled. Given
back, a block goes in front of the free blocks of its chunk, which is found by the range of its
addresses. -/

namespace PagedAlloc

variable [Size.Paging]

/-- What a fixed list is to be like. -/
structure FixedConfig where
  /-- Bytes of a block, before rounding. -/
  blockSize : Nat
  /-- Bytes of a chunk, before rounding. -/
  chunkSize : Nat
  /-- Whether another chunk is chained when all blocks are in use. -/
  mayExtend : Bool
  deriving DecidableEq, Repr

/-- Bytes of a chunk unless something else is asked for. -/
def FixedConfig.defaultChunkSize : Nat := 65536

/-- Chunks of the usual size, chained on demand. -/
def FixedConfig.ofBlockSize (blockSize : Nat) : FixedConfig :=
  ⟨blockSize, defaultChunkSize, true⟩

/-- A free list of blocks of one size. -/
structure FixedList where
  /-- The chunks at their addresses. -/
  chunks : Chain FixedChunk
  /-- Bytes of a block. -/
  blockSize : Nat
  /-- Bytes of a chunk. -/
  chunkSize : Nat
  /-- Blocks of a chunk. -/
  blocksPerChunk : Nat
  /-- Whether another chunk is chained when all blocks are in use. -/
  mayExtend : Bool
  /-- Number of blocks in use. -/
  inUse : Nat
  deriving Repr

namespace FixedList

open Procedure

/-- Changes the chunk at an address. -/
def updateChunk (address : Nat) (step : FixedChunk → Except Fault FixedChunk) :
    Procedure (Machine × FixedList) Unit := do
  match (← own).chunks.get? address with
  | none => crash (.missingRecord address)
  | some chunk =>
    let changed ← checked (step chunk)
    modifyOwn fun list => { list with chunks := list.chunks.put address changed }

/-- Chains another chunk and gives its address. -/
def extend : Procedure (Machine × FixedList) Nat := do
  let list ← own
  let address ← orFail (.outOfMemory list.chunkSize) (← ask (Pages.map list.chunkSize))
  let chunk : FixedChunk := ⟨none, list.chunkSize, 0, Memory.zeroed list.chunkSize⟩
  modifyOwn fun list => { list with chunks := list.chunks.append address chunk }
  updateChunk address (.ok ·.freeAll)
  note (.fixedChained (← own).chunks.length address list.blocksPerChunk list.blockSize)
  return address

/-- Gives some chunks back to the kernel. -/
def releaseEach : List Nat → Procedure (Machine × FixedList) Unit
  | [] => return
  | address :: rest => do
    match (← own).chunks.get? address with
    | none => crash (.missingRecord address)
    | some chunk =>
      modifyOwn fun list => { list with chunks := list.chunks.remove address }
      ask (Pages.unmap address chunk.size)
      releaseEach rest

/-- Gives every chunk back to the kernel. -/
def release : Procedure (Machine × FixedList) Unit := do
  let list ← own
  note (.fixedReleasing list.chunks.length list.chunkSize)
  releaseEach list.chunks.addresses

/-- The list that a configuration describes, before it has chunks: sizes are rounded, blocks can
hold a link, and chunks can hold a block. -/
def plan (config : FixedConfig) : Except Failure FixedList := do
  let some rounded := Size.roundUp? config.blockSize Size.pointerSize | throw .overflow
  let blockSize := max rounded FixedChunk.linkSize
  let some chunkSize := Size.roundToPages? config.chunkSize | throw .overflow
  let some least := FixedChunk.minSize? blockSize | throw .overflow
  if chunkSize < least then
    throw (.chunkTooSmall config.chunkSize blockSize)
  return {
    chunks := .empty
    blockSize
    chunkSize
    blocksPerChunk := (chunkSize - FixedChunk.headerSize) / blockSize
    mayExtend := config.mayExtend
    inUse := 0 }

/-- Makes a list with one chunk. A list that does not get its chunk is given back. -/
def ofConfig (config : FixedConfig) : Procedure Machine FixedList :=
  match plan config with
  | .error failure => fail failure
  | .ok list => making list (cleanedBy extend release)

/-- Makes a list of blocks of a size, whose chunks have the usual size unless one block needs
more. -/
def ofBlockSize (blockSize : Nat) : Procedure Machine FixedList := do
  let rounded ← orFail .overflow (Size.roundUp? blockSize Size.pointerSize)
  let least ← orFail .overflow (FixedChunk.minSize? rounded)
  ofConfig { FixedConfig.ofBlockSize blockSize with
    chunkSize := max least FixedConfig.defaultChunkSize }

/-- The chunk whose blocks an address is in, with its address. -/
def chunkOf? (list : FixedList) (address : Nat) : Option (Nat × FixedChunk) :=
  list.chunks.toList.find? fun (start, _) =>
    start + FixedChunk.headerSize ≤ address &&
      address < start + FixedChunk.headerSize + list.blocksPerChunk * list.blockSize

/-- The position in the chain of the chunk whose blocks an address is in, and the distance of the
address from the start of that chunk. -/
def placeOf? (list : FixedList) (address : Nat) : Option (Nat × Nat) :=
  (list.chunkOf? address).map fun (start, _) =>
    (list.chunks.addresses.idxOf start, address - start)

/-- Whether an address is in a block of the list. -/
def contains (list : FixedList) (address : Nat) : Bool := (list.chunkOf? address).isSome

/-- The first chunk with a free block, and the offset of that block. -/
def available? (list : FixedList) : Option (Nat × Nat) :=
  list.chunks.toList.findSome? fun (address, chunk) =>
    chunk.free.map fun offset => (address, offset)

/-- Takes a free block of a chunk into use and gives its address. -/
def take (address offset : Nat) : Procedure (Machine × FixedList) Nat := do
  let blockSize := (← own).blockSize
  updateChunk address (·.take address offset blockSize)
  modifyOwn fun list => { list with inUse := list.inUse + 1 }
  return address + offset

/-- Hands out the address of a zeroed block for `size` bytes. -/
def allocate (size : Nat) : Procedure (Machine × FixedList) Nat := do
  let list ← own
  if list.blockSize < size then
    fail (.blockTooLarge size list.blockSize)
  else
    let (chunk, offset) ← match list.available? with
      | some found => pure found
      | none =>
        if list.mayExtend then
          do pure (← extend, FixedChunk.headerSize)
        else do
          note (.fixedExhausted list.inUse list.blockSize)
          fail .exhausted
    let address ← take chunk offset
    note (.fixedTaken address)
    return address

/-- Gives a block back. -/
def free (address : Nat) : Procedure (Machine × FixedList) Unit := do
  let list ← own
  match list.chunkOf? address with
  | none => crash (.foreignBlock address)
  | some (start, chunk) =>
    let offset := address - start
    ensure ((offset - FixedChunk.headerSize) % list.blockSize = 0) (.notBlockStart address)
    ensure (0 < chunk.inUse) (.idleChunk address)
    updateChunk start (.ok <| ·.give offset)
    let inUse ← checked (Size.sub list.inUse 1)
    modifyOwn fun list => { list with inUse := inUse }
    note (.fixedReturned address)

/-- Makes every block of some chunks free. -/
def freeEach : List Nat → Procedure (Machine × FixedList) Unit
  | [] => return
  | address :: rest => do
    updateChunk address (.ok ·.freeAll)
    freeEach rest

/-- Makes every block free. The chunks stay mapped. -/
def clear : Procedure (Machine × FixedList) Unit := do
  freeEach (← own).chunks.addresses
  modifyOwn fun list => { list with inUse := 0 }

/-- The chunk whose mapping an address is in, with the address of the chunk. -/
def chunkHolding? (list : FixedList) (address : Nat) : Option (Nat × FixedChunk) :=
  list.chunks.toList.find? fun (start, chunk) =>
    start ≤ address && address < start + chunk.size

/-- The `count` cells that begin at distance `offset` from an address in a chunk. -/
def read (list : FixedList) (address offset count : Nat) : Except Fault (Stretch FreeLink) :=
  match list.chunkHolding? address with
  | none => .error (.foreignBlock address)
  | some (start, chunk) => .ok (chunk.memory.read (address - start + offset) count)

/-- Writes cells at distance `offset` from an address in a chunk. -/
def write (address offset : Nat) (content : Stretch FreeLink) :
    Procedure (Machine × FixedList) Unit := do
  match (← own).chunkHolding? address with
  | none => crash (.foreignBlock address)
  | some (start, _) =>
    updateChunk start fun chunk =>
      .ok { chunk with memory := chunk.memory.write (address - start + offset) content }

/-- The diagnostic notation of a list. -/
def shown (list : FixedList) : String :=
  Text.record "FixedFreeList"
    [("block_size", toString list.blockSize), ("chunk_size", toString list.chunkSize),
      ("chunks", toString list.chunks.length), ("in_use", toString list.inUse)]

end FixedList

end PagedAlloc
