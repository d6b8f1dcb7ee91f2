/-!
# The ledger

The books of a machine: every region that is live, with its address, its length and its origin. The
ledger holds no contents; these belong to whoever owns the region.
-/

namespace PagedAlloc

/-- Who granted a region. -/
inductive Origin where
  /-- The heap, for a region of this alignment. -/
  | heap (align : Nat)
  /-- The kernel; `isSealed` if no access to any of the pages is left. -/
  | pages (isSealed : Bool)
  deriving DecidableEq, Repr

/-- A live region as the books know it. -/
structure Holding where
  /-- Address of the first byte. -/
  address : Nat
  /-- Number of bytes. -/
  length : Nat
  /-- Who granted it. -/
  origin : Origin
  deriving DecidableEq, Repr

namespace Holding

/-- Address after the last byte. -/
def stop (holding : Holding) : Nat := holding.address + holding.length

/-- What is left of a holding when the pages from `start` up to `stop` are unmapped. Heap regions
are not made of pages. -/
def outside (holding : Holding) (start stop : Nat) : List Holding :=
  match holding.origin with
  | .heap _ => [holding]
  | .pages _ =>
    if holding.stop ≤ start ∨ stop ≤ holding.address then [holding]
    else
      [{ holding with length := start - holding.address },
        { holding with address := stop, length := holding.stop - stop }].filter (0 < ·.length)

end Holding

/-- The live regions. -/
abbrev Ledger := List Holding

namespace Ledger

/-- Bytes of all live regions together. -/
def total : Ledger → Nat
  | [] => 0
  | holding :: rest => holding.length + total rest

/-- No live region reaches beyond this address. The first addresses are left alone. -/
def top : Ledger → Nat
  | [] => 65536
  | holding :: rest => max holding.stop (top rest)

/-- No live region reaches into the addresses from `start` up to `stop`. -/
def Vacant (ledger : Ledger) (start stop : Nat) : Prop :=
  ∀ holding ∈ ledger, holding.stop ≤ start ∨ stop ≤ holding.address

instance (ledger : Ledger) (start stop : Nat) : Decidable (ledger.Vacant start stop) :=
  inferInstanceAs (Decidable (∀ _ ∈ ledger, _))

/-- The live region of exactly this address and length that the kernel granted. -/
def pages? (ledger : Ledger) (address length : Nat) : Option Holding :=
  ledger.find? fun holding =>
    holding.address = address && holding.length = length &&
      match holding.origin with
      | .pages _ => true
      | .heap _ => false

/-- The ledger after the pages from `start` up to `stop` are unmapped. -/
def withoutPages (ledger : Ledger) (start stop : Nat) : Ledger :=
  ledger.flatMap (·.outside start stop)

/-- The ledger after the access to a range of pages is changed. The books tell only whether all
access to a whole mapping is gone, so a range that covers part of a mapping can open but not seal
it. -/
def withAccess (ledger : Ledger) (start stop : Nat) (isSealed : Bool) : Ledger :=
  ledger.map fun holding =>
    match holding.origin with
    | .heap _ => holding
    | .pages _ =>
      if holding.stop ≤ start ∨ stop ≤ holding.address then holding
      else if isSealed = false ∨ (start ≤ holding.address ∧ holding.stop ≤ stop) then
        { holding with origin := .pages isSealed }
      else holding

end Ledger

end PagedAlloc
