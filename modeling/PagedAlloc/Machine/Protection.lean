import PagedAlloc.Size
import PagedAlloc.Text

/-!
# Requests for pages

What the kernel has to know to hand out pages: the access that the pages allow, the kind of mapping,
the length, and an address where the mapping would be welcome.
-/

namespace PagedAlloc

/-- The accesses that a page allows. -/
structure Protection where
  /-- Loads. -/
  read : Bool
  /-- Stores. -/
  write : Bool
  /-- Running as code. -/
  execute : Bool
  deriving DecidableEq, Repr

namespace Protection

/-- No access at all. -/
def none : Protection := ⟨false, false, false⟩

/-- Ordinary data pages. -/
def readWrite : Protection := ⟨true, true, false⟩

/-- The accesses with their names, in the order of their bits. -/
def members (protection : Protection) : List (String × Bool) :=
  [("READ", protection.read), ("WRITE", protection.write), ("EXEC", protection.execute)]

/-- What either of two protections allows. -/
def union (a b : Protection) : Protection :=
  ⟨a.read || b.read, a.write || b.write, a.execute || b.execute⟩

/-- The protections that have a name. -/
def named : List (String × Protection) :=
  [("READ", ⟨true, false, false⟩), ("WRITE", ⟨false, true, false⟩), ("EXEC", ⟨false, false, true⟩),
    ("READ_WRITE", readWrite)]

end Protection

/-- The kind of a mapping. -/
structure MapFlags where
  /-- Writes stay within the process. -/
  isPrivate : Bool
  /-- Writes are seen by all who map the same pages. -/
  isShared : Bool
  /-- The pages belong to no file. -/
  isAnonymous : Bool
  /-- The pages are kept in memory. -/
  isLocked : Bool
  /-- The pages are provided at once. -/
  isPopulated : Bool
  /-- Huge pages of 2 MiB. -/
  isHuge2MB : Bool
  /-- Huge pages of 1 GiB. -/
  isHuge1GB : Bool
  deriving DecidableEq, Repr

namespace MapFlags

/-- No flag at all. -/
def none : MapFlags := ⟨false, false, false, false, false, false, false⟩

/-- Private pages that belong to no file. -/
def privateAnonymous : MapFlags := ⟨true, false, true, false, false, false, false⟩

/-- The flags with their names, in the order of their bits. -/
def members (flags : MapFlags) : List (String × Bool) :=
  [("PRIVATE", flags.isPrivate), ("SHARED", flags.isShared), ("ANONYMOUS", flags.isAnonymous),
    ("LOCKED", flags.isLocked), ("POPULATE", flags.isPopulated), ("HUGE_2MB", flags.isHuge2MB),
    ("HUGE_1GB", flags.isHuge1GB)]

/-- The flags of either of two sets. -/
def union (a b : MapFlags) : MapFlags :=
  ⟨a.isPrivate || b.isPrivate, a.isShared || b.isShared, a.isAnonymous || b.isAnonymous,
    a.isLocked || b.isLocked, a.isPopulated || b.isPopulated, a.isHuge2MB || b.isHuge2MB,
    a.isHuge1GB || b.isHuge1GB⟩

/-- The flags by name. -/
def named : List (String × MapFlags) :=
  [("PRIVATE", { none with isPrivate := true }), ("SHARED", { none with isShared := true }),
    ("ANONYMOUS", { none with isAnonymous := true }), ("LOCKED", { none with isLocked := true }),
    ("POPULATE", { none with isPopulated := true }), ("HUGE_2MB", { none with isHuge2MB := true }),
    ("HUGE_1GB", { none with isHuge1GB := true })]

end MapFlags

/-- The number whose bits, from the lowest on, are the members of a set. -/
def bitValue : List (String × Bool) → Nat
  | [] => 0
  | (_, present) :: rest => present.toNat + 2 * bitValue rest

/-- The names of the members that are present. -/
def presentNames (members : List (String × Bool)) : List String :=
  (members.filter (·.2)).map (·.1)

/-- Bits of a protection. -/
def Protection.bits (protection : Protection) : Nat := bitValue protection.members

/-- The diagnostic notation of a protection. -/
def Protection.shown (protection : Protection) : String :=
  Text.bits "Protection" (presentNames protection.members)

/-- Bits of a set of flags. -/
def MapFlags.bits (flags : MapFlags) : Nat := bitValue flags.members

/-- The diagnostic notation of a set of flags. -/
def MapFlags.shown (flags : MapFlags) : String := Text.bits "MapFlags" (presentNames flags.members)

/-- A request for pages. -/
structure MapRequest where
  /-- Where the mapping would be welcome; the kernel is free to choose. -/
  hint : Option Nat
  /-- Length in bytes, a multiple of the page size. -/
  size : Nat
  /-- Access of the new pages. -/
  protection : Protection
  /-- Kind of the mapping. -/
  flags : MapFlags
  deriving DecidableEq, Repr

/-- Private pages for reading and writing, as all allocators use them. -/
def MapRequest.anonymous (size : Nat) : MapRequest :=
  ⟨none, size, .readWrite, .privateAnonymous⟩

end PagedAlloc
