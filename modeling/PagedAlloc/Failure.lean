import PagedAlloc.Text

/-!
# Failures

The recoverable outcomes of a request for memory. A caller checks them and reacts: it retries with
another size, grows, or gives up. Broken promises are no failures but faults.
-/

namespace PagedAlloc

/-- Why a request for memory was not served. -/
inductive Failure where
  /-- The heap or the kernel refused to hand out more memory. -/
  | outOfMemory (size : Nat)
  /-- A request for nothing, or one whose alignment is not a power of two. -/
  | invalidLayout (size align : Nat)
  /-- The region may not move and cannot be extended where it is. -/
  | cannotGrow (capacity requested : Nat)
  /-- A list of fixed blocks serves requests up to its block size only. -/
  | blockTooLarge (requested blockSize : Nat)
  /-- Every chunk is full and no further chunk may be chained. -/
  | exhausted
  /-- A chunk has to hold its header and one block, and at least two headers. -/
  | chunkTooSmall (chunkSize blockSize : Nat)
  /-- A size does not fit a machine word. -/
  | overflow
  deriving DecidableEq, Repr

namespace Failure

/-- Name of the kind of failure. -/
def kind : Failure → String
  | outOfMemory .. => "OutOfMemory"
  | invalidLayout .. => "InvalidLayout"
  | cannotGrow .. => "CannotGrow"
  | blockTooLarge .. => "BlockTooLarge"
  | exhausted => "Exhausted"
  | chunkTooSmall .. => "ChunkTooSmall"
  | overflow => "Overflow"

/-- The sentence that tells a user what went wrong. -/
def message : Failure → String
  | outOfMemory size => s!"out of memory while requesting {size} bytes"
  | invalidLayout size align => s!"invalid layout: size {size}, alignment {align}"
  | cannotGrow capacity requested =>
    s!"cannot grow from {capacity} to {requested} bytes without moving"
  | blockTooLarge requested blockSize =>
    s!"requested {requested} bytes but blocks hold {blockSize} bytes"
  | exhausted => "every chunk is full and chaining new chunks is disabled"
  | chunkTooSmall chunkSize blockSize =>
    s!"chunk of {chunkSize} bytes cannot hold blocks of {blockSize} bytes"
  | overflow => "size computation overflowed"

/-- The sizes that a failure carries, by name. -/
def details : Failure → List (String × Nat)
  | outOfMemory size => [("size", size)]
  | invalidLayout size align => [("size", size), ("align", align)]
  | cannotGrow capacity requested => [("capacity", capacity), ("requested", requested)]
  | blockTooLarge requested blockSize => [("requested", requested), ("block_size", blockSize)]
  | exhausted => []
  | chunkTooSmall chunkSize blockSize => [("chunk_size", chunkSize), ("block_size", blockSize)]
  | overflow => []

/-- The failure of a kind, with its sizes by name. -/
def ofKind? (kind : String) (size : String → Nat) : Option Failure :=
  [outOfMemory (size "size"), invalidLayout (size "size") (size "align"),
    cannotGrow (size "capacity") (size "requested"),
    blockTooLarge (size "requested") (size "block_size"), exhausted,
    chunkTooSmall (size "chunk_size") (size "block_size"), overflow].find? (·.kind = kind)

/-- The diagnostic notation of a failure: its kind, then its sizes. -/
def shown (failure : Failure) : String :=
  match failure.details with
  | [] => failure.kind
  | details => Text.record failure.kind (details.map fun (key, value) => (key, toString value))

end Failure

end PagedAlloc
