import PagedAlloc.Machine.Procedure

/-!
# Pages

The requests that the kernel serves: mapping pages, unmapping them, changing the access to them and
resizing a mapping. Fresh pages hold zeros, and so do the pages that a mapping gains by growing. A
mapping that the kernel does not grant is reported by the absence of an address; a length that is no
whole number of pages, or pages that cannot be given back, are faults of the caller.
-/

namespace PagedAlloc

variable [Size.Paging]

namespace Machine

/-- Enters a new region into the books, at the address where the kernel or the heap puts it. -/
def claim (align length : Nat) (origin : Origin) : Procedure Machine Nat :=
  fun environment machine =>
    let address := environment.place machine.ledger length align
    (.ok address, { machine with ledger := ⟨address, length, origin⟩ :: machine.ledger })

/-- Counts a request that names no live region. -/
def countStray (known : Bool) : Procedure Machine Unit :=
  Procedure.modify fun machine =>
    if known then machine else { machine with strays := machine.strays + 1 }

end Machine

namespace Pages

open Procedure

/-- Maps pages and gives their address. -/
def serve (request : MapRequest) : Procedure Machine (Option Nat) := do
  ensure (request.size % Size.pageSize = 0) (.mappingLength request.size)
  if request.size = 0 then
    return none
  let environment ← environment
  let machine ← get
  if request.flags.isAnonymous && environment.grantsPages machine.ledger request.size then
    let address ← Machine.claim Size.pageSize request.size (.pages (request.protection = .none))
    emit (.mapped request.size address)
    return some address
  else
    emit (.mapRefused request.size)
    return none

/-- Maps the pages that `size` bytes need, for reading and writing. -/
def map (size : Nat) : Procedure Machine (Option Nat) :=
  match Size.roundToPages? size with
  | some length => serve (.anonymous length)
  | none => return none

/-- Gives a range of pages back to the kernel. -/
def unmap (address length : Nat) : Procedure Machine Unit := do
  ensure (length % Size.pageSize = 0) (.unmappingLength length)
  emit (.unmapping length address)
  let environment ← environment
  let machine ← get
  Machine.countStray (machine.ledger.pages? address length).isSome
  ensure (environment.grantsUnmap machine.ledger address length) (.unmapRefused length address)
  modify fun machine =>
    { machine with ledger := machine.ledger.withoutPages address (address + length) }

/-- Changes the access to a range of pages, and tells whether the kernel did so. -/
def protect (address length : Nat) (protection : Protection) : Procedure Machine Bool := do
  let environment ← environment
  let machine ← get
  if environment.grantsProtect machine.ledger address length then
    modify fun machine =>
      { machine with ledger :=
          machine.ledger.withAccess address (address + length) (protection = .none) }
    return true
  else
    return false

/-- Enters a mapping that got another length, and maybe another address, into the books. -/
def rebook (address old : Nat) (replacement : Holding) : Procedure Machine Unit :=
  modify fun machine =>
    { machine with ledger := replacement :: machine.ledger.withoutPages address (address + old) }

/-- Resizes a mapping and gives its address. The first bytes keep their contents, as many as both
lengths have. -/
def remap (address old new : Nat) (mayMove : Bool) : Procedure Machine (Option Nat) := do
  ensure (old % Size.pageSize = 0 ∧ new % Size.pageSize = 0) (.remappingLengths old new)
  let environment ← environment
  let machine ← get
  let holding := machine.ledger.pages? address old
  Machine.countStray holding.isSome
  let origin := (holding.map Holding.origin).getD (.pages false)
  let stays := new ≤ old || environment.growsInPlace machine.ledger address old new &&
    machine.ledger.Vacant (address + old) (address + new)
  if environment.grantsPages machine.ledger new && (stays || mayMove) then
    if stays then
      rebook address old ⟨address, new, origin⟩
      emit (.resized address new)
      return some address
    else
      modify fun machine =>
        { machine with ledger := machine.ledger.withoutPages address (address + old) }
      let target ← Machine.claim Size.pageSize new origin
      emit (.remapped address target new)
      return some target
  else
    emit (.remapRefused old new address)
    return none

end Pages

end PagedAlloc
