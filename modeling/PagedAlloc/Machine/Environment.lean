import PagedAlloc.Machine.Ledger
import PagedAlloc.Machine.Protection
import PagedAlloc.Memory.Basic

/-!
# The environment

What the kernel and the heap decide and no allocator can foresee: which requests they serve, where
they put what they serve, what stays where it is when it is resized, and what fresh heap memory
holds. Every answer may depend on all that is live at the moment. Of the places it is only known that
nothing is live there and that they are aligned: addresses may be used again, and a region may begin
where another one ends.
-/

namespace PagedAlloc

/-- Nothing that is live ends above the top of the books. -/
theorem Ledger.stop_le_top {ledger : Ledger} {holding : Holding} (hmem : holding ∈ ledger) :
    holding.stop ≤ ledger.top := by
  induction ledger with
  | nil => cases hmem
  | cons first rest ih =>
    rcases List.mem_cons.1 hmem with rfl | hrest
    · exact Nat.le_max_left ..
    · exact Nat.le_trans (ih hrest) (Nat.le_max_right ..)

/-- The decisions of the kernel and the heap. -/
structure Environment where
  /-- Where a new region of this length and alignment is put. -/
  place : Ledger → (length align : Nat) → Nat
  /-- The kernel maps this many bytes of pages, or resizes a mapping to them. -/
  grantsPages : Ledger → (length : Nat) → Bool
  /-- The kernel makes room behind a mapping so that it grows where it is. -/
  growsInPlace : Ledger → (address old new : Nat) → Bool
  /-- The kernel unmaps a range of pages. -/
  grantsUnmap : Ledger → (address length : Nat) → Bool
  /-- The kernel changes the access to a range of pages. -/
  grantsProtect : Ledger → (address length : Nat) → Bool
  /-- The heap serves a request for this size and alignment. -/
  grantsHeap : Ledger → (size align : Nat) → Bool
  /-- The heap resizes a region where it is. -/
  resizesInPlace : Ledger → (address old new : Nat) → Bool
  /-- What a fresh heap region of this address and length holds. -/
  residue : (address length : Nat) → Tree Empty
  /-- A region is put at a multiple of its alignment. -/
  place_aligned : ∀ (ledger : Ledger) length align, 0 < align → align ∣ place ledger length align
  /-- A region is put where nothing is live. -/
  place_vacant : ∀ (ledger : Ledger) length align, 0 < align →
    ledger.Vacant (place ledger length align) (place ledger length align + length)

/-- An ordinary machine: the kernel and the heap serve whatever keeps all live regions together
below 2^60 bytes, and put it right behind the live regions. Mappings and heap regions move whenever
they grow, and fresh heap memory happens to be zero. The kernel refuses ranges of no length, and
changes the access from the start of a page only. -/
def Environment.ordinary [Size.Paging] : Environment where
  place ledger _ align := Size.roundDown (ledger.top + (align - 1)) align
  grantsPages ledger length := 0 < length && ledger.total + length < 1 <<< 60
  growsInPlace _ _ _ _ := false
  grantsUnmap _ _ length := 0 < length && length < 1 <<< 60
  grantsProtect _ address length := address % Size.pageSize = 0 && length < 1 <<< 60
  grantsHeap ledger size align := ledger.total + size < 1 <<< 60 && align < 1 <<< 60
  resizesInPlace _ _ old new := new ≤ old
  residue _ _ := .leaf (Run.constant 0)
  place_aligned ledger _ align _ := Nat.dvd_sub_mod (ledger.top + (align - 1))
  place_vacant ledger length align positive holding hmem := by
    have htop := Ledger.stop_le_top hmem
    have hmod := Nat.mod_lt (ledger.top + (align - 1)) positive
    rw [Size.roundDown]
    omega

end PagedAlloc
