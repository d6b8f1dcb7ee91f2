import PagedAlloc.Machine.Pages

/-!
# The heap

The requests that the process heap serves: a region of a size and an alignment, a region resized,
and a region given back. Whoever resizes or frees a region names the size and alignment it has.
-/

namespace PagedAlloc.Heap

open Procedure

/-- A size and an alignment describe a heap region if the alignment is a power of two, and the size
is not zero and rounds up to the alignment below 2^63. -/
def IsLayout (size align : Nat) : Prop :=
  size ≠ 0 ∧ Size.IsPowerOfTwo align ∧ size + align ≤ 1 <<< 63

instance (size align : Nat) : Decidable (IsLayout size align) :=
  inferInstanceAs (Decidable (_ ∧ _))

/-- Asks for a region and gives its address. -/
def allocate (size align : Nat) : Procedure Machine (Option Nat) := do
  let environment ← environment
  let machine ← get
  if environment.grantsHeap machine.ledger size align then
    return some (← Machine.claim align size (.heap align))
  else
    return none

/-- Resizes a region and gives its address. The first bytes keep their contents, as many as both
sizes have. -/
def resize (address old new align : Nat) : Procedure Machine (Option Nat) := do
  let environment ← environment
  let machine ← get
  let holding : Holding := ⟨address, old, .heap align⟩
  Machine.countStray (holding ∈ machine.ledger)
  if environment.grantsHeap machine.ledger new align then
    modify fun machine => { machine with ledger := machine.ledger.erase holding }
    if environment.resizesInPlace machine.ledger address old new &&
        machine.ledger.Vacant (address + old) (address + new) then
      modify fun machine => { machine with ledger := ⟨address, new, .heap align⟩ :: machine.ledger }
      return some address
    else
      return some (← Machine.claim align new (.heap align))
  else
    return none

/-- Gives a region back. -/
def free (address size align : Nat) : Procedure Machine Unit := do
  let machine ← get
  let holding : Holding := ⟨address, size, .heap align⟩
  Machine.countStray (holding ∈ machine.ledger)
  modify fun machine => { machine with ledger := machine.ledger.erase holding }

end PagedAlloc.Heap
