import PagedAlloc.Segregated.Category

/-!
# Segregated lists

A segregated list sorts requests by size into six categories, so that small and large payloads never
share a chunk. A payload is known by its address alone: the header in front of it tells the chunk,
and the chunk tells the category.

Resizing stays in place where the category remains the same and the block can be cut or can take in
the free block behind it. Otherwise the contents move to a new block and the old one is freed.
-/

namespace PagedAlloc

variable [Size.Paging]

/-- Number of categories. -/
def categoryCount : Nat := 6

/-- A free list of blocks of all sizes, sorted by size. -/
structure SegregatedList where
  /-- The categories, from the smallest payloads to the largest. -/
  categories : Vector Category categoryCount
  deriving Repr

namespace SegregatedList

open Procedure

/-- The largest payload of each shared category. All else goes to the dedicated category. -/
def limits : List Nat := [64, 512, 4096, 32768, 262144]

/-- The lengths of the chunks, category by category. -/
def chunkSizes : Vector (Option Nat) categoryCount :=
  #v[some 65536, some 262144, some 1048576, some 4194304, some 8388608, none]

/-- The length of the chunks of a category; none for the dedicated category. -/
def chunkSizeOf (index : Fin categoryCount) : Option Nat := chunkSizes[index]

/-- A list that has nothing mapped yet. -/
def empty : SegregatedList :=
  ⟨Vector.ofFn fun index => Category.empty index (chunkSizeOf index)⟩

/-- The category at an index. -/
def category (list : SegregatedList) (index : Fin categoryCount) : Category := list.categories[index]

/-- A list with another category at an index. -/
def withCategory (list : SegregatedList) (index : Fin categoryCount) (category : Category) :
    SegregatedList :=
  ⟨list.categories.set index category⟩

/-- The category that serves requests of a size: the first one whose limit reaches it. -/
def categoryFor (size : Nat) : Fin categoryCount :=
  ⟨limits.findIdx (size ≤ ·), Nat.lt_succ_of_le List.findIdx_le_length⟩

/-- Runs a procedure on one category. -/
def onCategory (index : Fin categoryCount) (procedure : Procedure (Machine × Category) α) :
    Procedure (Machine × SegregatedList) α :=
  within (fun (machine, list) => (machine, list.category index))
    (fun (machine, category) (_, list) => (machine, list.withCategory index category)) procedure

/-- The use of a category. -/
def usage (list : SegregatedList) (index : Nat) : Except Fault Usage :=
  if h : index < categoryCount then .ok (list.category ⟨index, h⟩).usage
  else .error (.indexOutOfBounds categoryCount index)

/-- The chunks of a category that satisfy a test, with the index of the category. -/
def chunkWhere? (list : SegregatedList) (test : Nat → Chunk → Bool) :
    Option (Fin categoryCount × Nat × Chunk) :=
  (List.finRange categoryCount).findSome? fun index =>
    ((list.category index).chunks.toList.find? fun (address, chunk) => test address chunk).map
      fun (address, chunk) => (index, address, chunk)

/-- The chunk whose memory an address is in, with the index of the category in whose chain it is. -/
def chunkHolding? (list : SegregatedList) (address : Nat) :
    Option (Fin categoryCount × Nat × Chunk) :=
  list.chunkWhere? fun start chunk => start ≤ address && address < start + chunk.size

/-- The chunk that begins at an address. -/
def chunkFrom? (list : SegregatedList) (address : Nat) : Option Chunk :=
  (list.chunkWhere? fun start _ => start = address).map fun (_, _, chunk) => chunk

/-- The block of a payload, with the header in front of the payload. -/
def blockOf (list : SegregatedList) (address : Nat) : Except Fault (BlockRef × BlockHeader) :=
  match list.chunkHolding? address with
  | none => .error (.foreignPayload address)
  | some (_, start, chunk) =>
    let offset := address - start - Block.headerSize
    match chunk.memory.record? offset Block.headerSize with
    | none => .error (.missingRecord (start + offset))
    | some header => .ok (⟨header.chunk, start + offset - header.chunk⟩, header)

/-- The index of a category as the chunk of a block tells it. -/
def categoryAt (list : SegregatedList) (ref : BlockRef) : Except Fault Nat :=
  match list.chunkFrom? ref.chunk with
  | none => .error (.missingRecord ref.chunk)
  | some chunk => .ok chunk.category

/-- Bytes that may be used at the address of a payload. -/
def usableSize (list : SegregatedList) (address : Nat) : Except Fault Nat := do
  return (← list.blockOf address).2.size

/-- Where a payload is. -/
structure Place where
  /-- Index of the category, as the chunk tells it. -/
  category : Nat
  /-- Position of the chunk in the chain it is in. -/
  position : Nat
  /-- Distance of the payload from the start of the chunk. -/
  offset : Nat
  /-- Bytes that may be used. -/
  usable : Nat
  deriving DecidableEq, Repr

/-- Where the payload at an address is. -/
def placeOf (list : SegregatedList) (address : Nat) : Except Fault Place := do
  let (ref, header) ← list.blockOf address
  let position := match list.chunkHolding? address with
    | some (index, start, _) => (list.category index).chunks.addresses.idxOf start
    | none => 0
  return ⟨← list.categoryAt ref, position, ref.payloadOffset, header.size⟩

/-- What is in the chunks of the category of a payload. -/
def layoutAt (list : SegregatedList) (address : Nat) : Except Fault (List ChunkLayout) := do
  let index ← list.categoryAt (← list.blockOf address).1
  if h : index < categoryCount then (list.category ⟨index, h⟩).layout
  else throw (.foreignPayload address)

/-- The `count` cells of the payload at an address that begin at distance `offset` from it. -/
def read (list : SegregatedList) (address offset count : Nat) :
    Except Fault (Stretch BlockHeader) :=
  match list.chunkHolding? address with
  | none => .error (.foreignPayload address)
  | some (_, start, chunk) => .ok (chunk.memory.read (address - start + offset) count)

/-- Writes cells into the payload at an address, at distance `offset` from it. -/
def write (address offset : Nat) (content : Stretch BlockHeader) :
    Procedure (Machine × SegregatedList) Unit := do
  match (← own).chunkHolding? address with
  | none => crash (.foreignPayload address)
  | some (index, start, _) =>
    onCategory index <| Category.updateChunk start fun chunk =>
      .ok { chunk with memory := chunk.memory.write (address - start + offset) content }

/-- Hands out the address of a payload of at least `size` bytes, zero filled on demand. -/
def allocate (size : Nat) (zero : Bool) : Procedure (Machine × SegregatedList) Nat := do
  let size ← orFail .overflow (Block.payloadSize? size)
  let index := categoryFor size
  match ← attempt (onCategory index (Category.allocate size)) with
  | .error failure =>
    note (.allocationFailed size failure)
    fail failure
  | .ok ref =>
    if zero then
      write ref.payload 0 (Stretch.zeros (← onCategory index (Category.header ref)).size)
    note (.allocated index size ref.payload)
    return ref.payload

/-- Gives a payload back. -/
def free (address : Nat) : Procedure (Machine × SegregatedList) Unit := do
  let list ← own
  let (ref, header) ← checked (list.blockOf address)
  let index ← checked (list.categoryAt ref)
  if h : index < categoryCount then
    ensure ((list.category ⟨index, h⟩).chunks.get? ref.chunk).isSome (.strayChunk ref.chunk)
    note (.freed index header.size address)
    onCategory ⟨index, h⟩ (Category.free ref)
  else
    crash (.foreignPayload address)

/-- Resizes a block where it is, and tells whether that was possible. On demand the bytes that the
payload gains are zeroed. -/
def resizeInPlace (index : Fin categoryCount) (ref : BlockRef) (old size : Nat) (zero : Bool) :
    Procedure (Machine × SegregatedList) Bool := do
  if size ≤ old then
    onCategory index (Category.shrink ref size)
    return true
  else if ← onCategory index (Category.grow ref size) then
    if zero then
      let grown := (← onCategory index (Category.header ref)).size
      write ref.payload old (Stretch.zeros (← checked (Size.sub grown old)))
    return true
  else
    return false

/-- Moves the first bytes of the payload at an address, which has `old` bytes, to a new payload of
`size` bytes, and frees the old one. On demand the bytes that were not moved are zeroed. -/
def move (address old size : Nat) (zero : Bool) : Procedure (Machine × SegregatedList) Nat := do
  let target ← allocate size false
  let usable ← checked ((← own).usableSize target)
  let count := min old size
  write target 0 (← checked ((← own).read address 0 count))
  if zero then
    write target count (Stretch.zeros (← checked (Size.sub usable count)))
  note (.contentsMoved count address target)
  free address
  return target

/-- Makes a payload hold `size` bytes and gives its address, which may be another one. Bytes that
both sizes have are kept, and on demand the others are zeroed. Without an address this allocates. -/
def reallocate (address : Option Nat) (size : Nat) (zero : Bool) :
    Procedure (Machine × SegregatedList) Nat := do
  match address with
  | none => allocate size zero
  | some address =>
    let size ← orFail .overflow (Block.payloadSize? size)
    let list ← own
    let (ref, header) ← checked (list.blockOf address)
    let present ← checked (list.categoryAt ref)
    let ideal := categoryFor size
    if present = ideal then
      if ← resizeInPlace ideal ref header.size size zero then
        return address
    move address header.size size zero

/-- Runs a procedure on some categories, one after the other, and adds up what they give. -/
def sumOver (procedure : Procedure (Machine × Category) Nat) :
    List (Fin categoryCount) → Procedure (Machine × SegregatedList) Nat
  | [] => return 0
  | index :: rest => do
    let here ← onCategory index procedure
    let others ← sumOver procedure rest
    checked (Size.add here others)

/-- Runs a procedure on some categories, one after the other. -/
def onEach (procedure : Procedure (Machine × Category) Unit) :
    List (Fin categoryCount) → Procedure (Machine × SegregatedList) Unit
  | [] => return
  | index :: rest => do
    onCategory index procedure
    onEach procedure rest

/-- Forgets every payload. The chunks stay mapped. -/
def clear : Procedure (Machine × SegregatedList) Unit :=
  onEach Category.clear (List.finRange categoryCount)

/-- Gives the chunks without a payload in use back to the kernel, and tells how many bytes that
were. -/
def trim : Procedure (Machine × SegregatedList) Nat :=
  sumOver Category.trim (List.finRange categoryCount)

/-- Gives every chunk back to the kernel. -/
def release : Procedure (Machine × SegregatedList) Unit :=
  onEach Category.release (List.finRange categoryCount)

/-- The diagnostic notation of a list. -/
def shown (list : SegregatedList) : String :=
  Text.sequence (list.categories.toList.map fun category => category.usage.shown)

end SegregatedList

end PagedAlloc
