import PagedAlloc.Text

/-!
# Strategies

How an allocator gets, resizes and gives back its regions. Memory comes from one of two families,
the heap or whole pages of the kernel, and a region stays within its family:
`Strategies.IsConsistent` says that three strategies never mix them. -/

namespace PagedAlloc

/-- Where the memory of a region comes from. -/
inductive Family where
  /-- The process heap. -/
  | heap
  /-- Pages of the kernel. -/
  | pages
  deriving DecidableEq, Repr

/-- How regions are obtained. -/
inductive Source where
  /-- From the heap; the process ends if it refuses. -/
  | heapOrAbort
  /-- From the heap; a refusal is reported. -/
  | heapOrFail
  /-- Zero filled from the heap; the process ends if it refuses. -/
  | heapZeroedOrAbort
  /-- Zero filled from the heap; a refusal is reported. -/
  | heapZeroedOrFail
  /-- Anonymous pages, always zero filled. -/
  | pageMap
  deriving DecidableEq, Repr

/-- How regions change their length. -/
inductive Resizing where
  /-- Never: a smaller length is granted without doing anything, a greater one is refused. -/
  | noOp
  /-- By the heap; the process ends if it refuses. -/
  | heapOrAbort
  /-- By the heap; a refusal is reported. -/
  | heapOrFail
  /-- By remapping pages; the kernel may pick a new address. -/
  | remapMayMove
  /-- By remapping pages at the same address. -/
  | remapKeepAddress
  deriving DecidableEq, Repr

/-- How regions are given back. -/
inductive Disposal where
  /-- To the heap. -/
  | heapFree
  /-- To the kernel. -/
  | pageUnmap
  deriving DecidableEq, Repr

namespace Source

/-- Every source. -/
def all : List Source := [heapOrAbort, heapOrFail, heapZeroedOrAbort, heapZeroedOrFail, pageMap]

/-- Name of a source. -/
def name : Source → String
  | heapOrAbort => "HeapOrAbort"
  | heapOrFail => "HeapOrFail"
  | heapZeroedOrAbort => "HeapZeroedOrAbort"
  | heapZeroedOrFail => "HeapZeroedOrFail"
  | pageMap => "PageMap"

/-- The family that a source draws from. -/
def family : Source → Family
  | pageMap => .pages
  | heapOrAbort | heapOrFail | heapZeroedOrAbort | heapZeroedOrFail => .heap

/-- Whether a refusal ends the process. -/
def aborts : Source → Bool
  | heapOrAbort | heapZeroedOrAbort => true
  | heapOrFail | heapZeroedOrFail | pageMap => false

/-- Whether regions of this source are zero filled. -/
def zeroes : Source → Bool
  | heapZeroedOrAbort | heapZeroedOrFail | pageMap => true
  | heapOrAbort | heapOrFail => false

end Source

namespace Resizing

/-- Every way of resizing. -/
def all : List Resizing := [noOp, heapOrAbort, heapOrFail, remapMayMove, remapKeepAddress]

/-- Name of a way of resizing. -/
def name : Resizing → String
  | noOp => "NoOp"
  | heapOrAbort => "HeapOrAbort"
  | heapOrFail => "HeapOrFail"
  | remapMayMove => "RemapMayMove"
  | remapKeepAddress => "RemapKeepAddress"

/-- The family whose regions can be resized in this way; none if those of both can. -/
def family? : Resizing → Option Family
  | noOp => none
  | heapOrAbort | heapOrFail => some .heap
  | remapMayMove | remapKeepAddress => some .pages

/-- Whether a resized region may be at another address. -/
def mayMove : Resizing → Bool
  | heapOrAbort | heapOrFail | remapMayMove => true
  | noOp | remapKeepAddress => false

end Resizing

namespace Disposal

/-- Every way of giving a region back. -/
def all : List Disposal := [heapFree, pageUnmap]

/-- Name of a way of giving a region back. -/
def name : Disposal → String
  | heapFree => "HeapFree"
  | pageUnmap => "PageUnmap"

/-- The family whose regions can be given back in this way. -/
def family : Disposal → Family
  | heapFree => .heap
  | pageUnmap => .pages

end Disposal

/-- The three strategies of an allocator. -/
structure Strategies where
  /-- How it obtains regions. -/
  source : Source
  /-- How it resizes them. -/
  resizing : Resizing
  /-- How it gives them back. -/
  disposal : Disposal
  deriving DecidableEq, Repr

namespace Strategies

/-- Heap memory that may move when it grows. -/
def heap : Strategies := ⟨.heapOrFail, .heapOrFail, .heapFree⟩

/-- Pages that may move when they grow. -/
def pages : Strategies := ⟨.pageMap, .remapMayMove, .pageUnmap⟩

/-- Heap memory that never grows. -/
def fixedHeap : Strategies := ⟨.heapOrFail, .noOp, .heapFree⟩

/-- Pages that never grow. -/
def fixedPages : Strategies := ⟨.pageMap, .noOp, .pageUnmap⟩

/-- All three strategies belong to one family. -/
def IsConsistent (strategies : Strategies) : Prop :=
  strategies.source.family = strategies.disposal.family ∧
    ∀ family ∈ strategies.resizing.family?, family = strategies.source.family

instance (strategies : Strategies) : Decidable strategies.IsConsistent :=
  inferInstanceAs (Decidable (_ ∧ _))

/-- Whether regions under these strategies may change their address. -/
def mayMove (strategies : Strategies) : Bool := strategies.resizing.mayMove

/-- The diagnostic notation of three strategies. -/
def shown (strategies : Strategies) : String :=
  Text.record "Strategies"
    [("alloc", strategies.source.name), ("realloc", strategies.resizing.name),
      ("dealloc", strategies.disposal.name)]

end Strategies

end PagedAlloc
