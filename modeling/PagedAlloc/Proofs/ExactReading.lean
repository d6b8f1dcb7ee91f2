import Mathlib.Data.Nat.Digits.Defs
import PagedAlloc.Proofs.Bounds
import PagedAlloc.Proofs.Lockstep

/-!
# Exact readability

What a reading needs is said by bounds on natural numbers, which never wrap around: the arena is
idle, and everything that is read is in use, as is the place where it begins
(`Arena.Reading.Allowed`). What it gives is said by the bytes at the offsets it names
(`Arena.Reading.yields`). A reading that is allowed gives just that. Any other one is stopped, by a
build or by a range that is not in use (`Arena.Barred`), and changes nothing
(`Arena.Reachable.reads_exactly`).

The bytes behind a length are read whatever the four bytes of the length hold: nothing is relied on
but the bound that they give.
-/

namespace PagedAlloc.Arena

variable {paging : Size.Paging}

open Procedure

/-- The byte at an offset. -/
def byteAt (arena : Arena) (offset : Nat) : UInt8 := (arena.region.memory.cell offset).toByte

/-- The `count` bytes from an offset on. -/
def bytesAt (arena : Arena) (offset count : Nat) : List UInt8 :=
  (List.range count).map fun index => arena.byteAt (offset + index)

/-- The number whose digits to the base 256 are the four bytes from an offset on, the lowest
first. -/
def countAt (arena : Arena) (offset : Nat) : Nat :=
  Nat.ofDigits 256 ((arena.bytesAt offset 4).map UInt8.toNat)

/-- The `count` bytes from an offset on are in use, and also the offset if there are none. -/
def InUse (arena : Arena) (offset count : Nat) : Prop :=
  firstOffset ≤ offset ∧ offset < arena.length ∧ offset + count ≤ arena.length

instance (arena : Arena) (offset count : Nat) : Decidable (arena.InUse offset count) :=
  inferInstanceAs (Decidable (_ ∧ _))

/-- What may be read at a reference now. The bytes behind a length are read if the length is in use
and they are as well, as many as it says. -/
def Reading.Allowed (arena : Arena) (reference : Reference) (reading : Reading) : Prop :=
  arena.build = none ∧
    match reading with
    | bytes count => arena.InUse reference.offset count
    | integer type => arena.InUse reference.offset type.width
    | terminated => arena.InUse reference.offset 0
    | prefixed | text => arena.InUse reference.offset 4 ∧
        arena.InUse reference.offset (4 + arena.countAt reference.offset)

instance (arena : Arena) (reference : Reference) :
    (reading : Reading) → Decidable (reading.Allowed arena reference)
  | .bytes _ | .integer _ | .terminated =>
    inferInstanceAs (Decidable (arena.build = none ∧ arena.InUse _ _))
  | .prefixed | .text =>
    inferInstanceAs (Decidable (arena.build = none ∧ arena.InUse _ _ ∧ arena.InUse _ _))

/-- The bytes that there are before the first zero byte, if there is a zero byte. -/
def beforeZero (bytes : List UInt8) : Option (List UInt8) :=
  if 0 ∈ bytes then some (bytes.takeWhile (· ≠ 0)) else none

/-- What a reading gives, by the bytes from its offset on. -/
def Reading.yields (arena : Arena) (offset : Nat) : Reading → Answer
  | bytes count => .bytes (Stretch.ofBytes (arena.bytesAt offset count))
  | integer type => .integer (type.decode (arena.bytesAt offset type.width))
  | terminated => .terminated (beforeZero (arena.bytesAt offset (arena.length - offset)))
  | prefixed =>
    .bytes (Stretch.ofBytes (arena.bytesAt (offset + 4) (arena.countAt offset)))
  | text => .text <| String.fromUTF8? <| ByteArray.mk
      (arena.bytesAt (offset + 4) (arena.countAt offset)).toArray

/-- Why nothing may be read at an offset: a build is in progress, or a range that begins there is
not in use. -/
inductive Barred (arena : Arena) (offset : Nat) : Fault → Prop where
  | building (busy : arena.build ≠ none) : Barred arena offset .readWithinBuild
  | outside (count : Nat) (idle : arena.build = none) (beyond : ¬ arena.InUse offset count) :
      Barred arena offset (.outOfRange offset count arena.length)

/-- What a write into borrowed bytes leaves behind: they are what was written, and nothing else of
the arena is changed. -/
structure Overwritten (before : Arena) (offset : Nat) (content : Stretch Empty) (after : Arena) :
    Prop where
  written : after.bytesAt offset content.length = content.bytes
  others : ∀ place < before.capacity, place < offset ∨ offset + content.length ≤ place →
    after.byteAt place = before.byteAt place
  rest : after =
    { before with region := { before.region with memory := after.region.memory } }

variable {arena : Arena} {reference : Reference} {reading : Reading} {count : Nat}

/-! ## Bytes of an arena -/

@[simp]
theorem length_bytesAt (arena : Arena) (offset count : Nat) :
    (arena.bytesAt offset count).length = count := by
  rw [bytesAt, List.length_map, List.length_range]

theorem bytes_cells (arena : Arena) (offset count : Nat) :
    (arena.cells offset count).bytes = arena.bytesAt offset count := by
  rw [cells, Stretch.bytes, Memory.cells_read, List.map_map]
  rfl

/-- The number that bytes stand for is that of their digits. -/
theorem ofLittleEndian_eq (bytes : List UInt8) :
    ofLittleEndian bytes = Nat.ofDigits 256 (bytes.map UInt8.toNat) := by
  induction bytes with
  | nil => rfl
  | cons first rest ih => rw [ofLittleEndian, ih, List.map_cons, Nat.ofDigits_cons]

/-- A length is never negative. -/
theorem decode_lengthPrefix (bytes : List UInt8) :
    IntegerType.lengthPrefix.decode bytes =
      (Nat.ofDigits 256 (bytes.map UInt8.toNat) : Nat) := by
  rw [← ofLittleEndian_eq]
  rfl

/-- What is read up to a zero byte is what stands before the first one. -/
theorem untilZero_eq (bytes : List UInt8) : untilZero bytes = beforeZero bytes := by
  induction bytes with
  | nil => rfl
  | cons first rest ih =>
    rw [untilZero, ih, beforeZero, beforeZero]
    by_cases hfirst : first = 0
    · simp [hfirst]
    · by_cases hrest : 0 ∈ rest
      · simp [hfirst, hrest]
      · simp [hfirst, hrest, Ne.symm hfirst]

/-! ## Readings -/

/-- A check lets pass what is in use while the arena is idle, and nothing else. -/
theorem checkReadable_cases (arena : Arena) (reference : Reference) (count : Nat) :
    (arena.build = none ∧ arena.InUse reference.offset count) ∧
        arena.checkReadable reference count = .ok () ∨
      ¬ (arena.build = none ∧ arena.InUse reference.offset count) ∧
        ∃ fault, arena.checkReadable reference count = .error fault ∧
          arena.Barred reference.offset fault := by
  have hinside : arena.Readable reference.offset count ↔ arena.InUse reference.offset count := by
    unfold Readable InUse
    omega
  by_cases hidle : arena.build = none
  · by_cases hused : arena.InUse reference.offset count
    · exact Or.inl ⟨⟨hidle, hused⟩, checkReadable_of_idle hidle (hinside.2 hused)⟩
    · refine Or.inr ⟨fun h => hused h.2, _, ?_, .outside count hidle hused⟩
      rw [checkReadable, isBuilding, hidle, if_neg (by simp), if_neg (mt hinside.1 hused)]
  · refine Or.inr ⟨fun h => hidle h.1, _, ?_, .building hidle⟩
    rw [checkReadable, isBuilding, if_pos (Option.isSome_iff_ne_none.2 hidle)]

/-- An idle arena gives the bytes of every range in use. -/
theorem read_of_inUse (idle : arena.build = none) (used : arena.InUse reference.offset count) :
    arena.read reference count = .ok (arena.cells reference.offset count) := by
  rcases checkReadable_cases arena reference count with ⟨-, hcheck⟩ | ⟨hnot, -⟩
  · rw [read, hcheck]
    rfl
  · exact absurd ⟨idle, used⟩ hnot

/-- The length before some bytes is read like any integer of its width. -/
theorem readCount_of_inUse (idle : arena.build = none) (used : arena.InUse reference.offset 4) :
    arena.readInteger reference .lengthPrefix = .ok (arena.countAt reference.offset : Nat) := by
  rw [readInteger, show IntegerType.lengthPrefix.width = 4 from rfl, read_of_inUse idle used]
  show Except.ok (IntegerType.lengthPrefix.decode _) = _
  rw [bytes_cells, decode_lengthPrefix]
  rfl

/-- The bytes behind a length are given as far as the length says. -/
theorem readPrefixed_of_inUse (idle : arena.build = none) (counted : arena.InUse reference.offset 4)
    (used : arena.InUse reference.offset (4 + arena.countAt reference.offset)) :
    arena.readPrefixed reference =
      .ok (arena.cells (reference.offset + 4) (arena.countAt reference.offset)) := by
  rcases checkReadable_cases arena reference (4 + arena.countAt reference.offset) with
    ⟨-, hcheck⟩ | ⟨hnot, -⟩
  · rw [readPrefixed, readCount_of_inUse idle counted]
    show (arena.checkReadable reference (4 + arena.countAt reference.offset) >>= fun _ => _) = _
    rw [hcheck]
    rfl
  · exact absurd ⟨idle, used⟩ hnot

/-- A reading that is allowed gives the bytes that it names. -/
theorem Reading.Allowed.find (allowed : reading.Allowed arena reference) :
    (reading.find arena reference).map Answer.plain =
      .ok (reading.yields arena reference.offset) := by
  obtain ⟨hidle, hused⟩ := allowed
  cases reading with
  | bytes count =>
    rw [Reading.find, read_of_inUse hidle hused, yields, ← bytes_cells]
    rfl
  | integer type =>
    rw [Reading.find, readInteger, read_of_inUse hidle hused, yields, ← bytes_cells]
    rfl
  | terminated =>
    rcases checkReadable_cases arena reference 0 with ⟨-, hcheck⟩ | ⟨hnot, -⟩
    · rw [Reading.find, readTerminated, hcheck, yields, ← bytes_cells, ← untilZero_eq]
      rfl
    · exact absurd ⟨hidle, hused⟩ hnot
  | prefixed =>
    rw [Reading.find, readPrefixed_of_inUse hidle hused.1 hused.2, yields, ← bytes_cells]
    rfl
  | text =>
    rw [Reading.find, readText, readPrefixed_of_inUse hidle hused.1 hused.2, yields, ← bytes_cells]
    rfl

/-- Anything else stops, and the reason is the build or the range. -/
theorem read_barred (barred : ¬ (arena.build = none ∧ arena.InUse reference.offset count)) :
    ∃ fault, arena.read reference count = .error fault ∧ arena.Barred reference.offset fault := by
  rcases checkReadable_cases arena reference count with ⟨hused, -⟩ | ⟨-, fault, hcheck, hbarred⟩
  · exact absurd hused barred
  · refine ⟨fault, ?_, hbarred⟩
    rw [read, hcheck]
    rfl

/-- An integer of which a byte is not in use stops the reading. -/
theorem readInteger_barred (type : IntegerType)
    (barred : ¬ (arena.build = none ∧ arena.InUse reference.offset type.width)) :
    ∃ fault, arena.readInteger reference type = .error fault ∧
      arena.Barred reference.offset fault := by
  obtain ⟨fault, hread, hbarred⟩ := read_barred barred
  refine ⟨fault, ?_, hbarred⟩
  rw [readInteger, hread]
  rfl

/-- Bytes behind a length are not read if the length is not in use, or not all of them are. -/
theorem readPrefixed_barred (barred : ¬ (arena.build = none ∧ arena.InUse reference.offset 4 ∧
      arena.InUse reference.offset (4 + arena.countAt reference.offset))) :
    ∃ fault, arena.readPrefixed reference = .error fault ∧
      arena.Barred reference.offset fault := by
  -- the length is read under its own bound, and whatever it holds bounds the second look
  by_cases hcounted : arena.build = none ∧ arena.InUse reference.offset 4
  · obtain ⟨hidle, hcount⟩ := hcounted
    rcases checkReadable_cases arena reference (4 + arena.countAt reference.offset) with
      ⟨⟨-, hused⟩, -⟩ | ⟨-, fault, hcheck, hbarred⟩
    · exact absurd ⟨hidle, hcount, hused⟩ barred
    · refine ⟨fault, ?_, hbarred⟩
      rw [readPrefixed, readCount_of_inUse hidle hcount]
      show (arena.checkReadable reference (4 + arena.countAt reference.offset) >>= fun _ => _) = _
      rw [hcheck]
      rfl
  · obtain ⟨fault, hread, hbarred⟩ := readInteger_barred .lengthPrefix hcounted
    refine ⟨fault, ?_, hbarred⟩
    rw [readPrefixed, hread]
    rfl

/-- A reading that is not allowed is stopped. -/
theorem Reading.find_barred (barred : ¬ reading.Allowed arena reference) :
    ∃ fault, reading.find arena reference = .error fault ∧ arena.Barred reference.offset fault := by
  cases reading with
  | bytes count =>
    obtain ⟨fault, hread, hbarred⟩ := read_barred barred
    exact ⟨fault, by rw [Reading.find, hread]; rfl, hbarred⟩
  | integer type =>
    obtain ⟨fault, hread, hbarred⟩ := readInteger_barred type barred
    exact ⟨fault, by rw [Reading.find, hread]; rfl, hbarred⟩
  | terminated =>
    rcases checkReadable_cases arena reference 0 with ⟨hused, -⟩ | ⟨-, fault, hcheck, hbarred⟩
    · exact absurd hused barred
    · exact ⟨fault, by rw [Reading.find, readTerminated, hcheck]; rfl, hbarred⟩
  | prefixed =>
    obtain ⟨fault, hread, hbarred⟩ := readPrefixed_barred barred
    exact ⟨fault, by rw [Reading.find, hread]; rfl, hbarred⟩
  | text =>
    obtain ⟨fault, hread, hbarred⟩ := readPrefixed_barred barred
    exact ⟨fault, by rw [Reading.find, readText, hread]; rfl, hbarred⟩

/-! ## Writing into borrowed bytes -/

/-- Cells that are written behind each other are found where they were written. -/
theorem WellFormed.overwritten (h : arena.WellFormed) {offset : Nat} {content : Stretch Empty}
    (used : arena.InUse offset content.length) :
    arena.Overwritten offset content { arena with
      region := { arena.region with memory := arena.region.memory.write offset content } } where
  written := by
    have hwhole : arena.region.memory.length = arena.capacity := h.whole
    have hfits := h.fits
    obtain ⟨-, -, hend⟩ := used
    refine List.ext_getElem (by simp) fun index hindex _ => ?_
    rw [length_bytesAt] at hindex
    have hinside : offset + index < arena.region.memory.length := by omega
    simp only [bytesAt, byteAt, List.getElem_map, List.getElem_range, Stretch.bytes]
    rw [Memory.cell_write _ _ _ hinside, if_pos (Nat.le_add_right ..), Nat.add_sub_cancel_left,
      List.getElem?_eq_getElem (by rwa [Stretch.length_cells]), Option.getD_some]
  others place hplace hother := by
    have hinside : place < arena.region.memory.length := h.whole ▸ hplace
    exact congrArg Cell.toByte (Memory.cell_write_of_disjoint hinside hother)
  rest := rfl

/-- Bytes are overwritten just where as many could be read. -/
theorem overwrite_exactly (h : arena.WellFormed) (content : Stretch Empty)
    (environment : Environment) (machine : Machine) :
    (Reading.bytes content.length).Allowed arena reference ∧ (∃ after,
        overwrite reference content environment (machine, arena) = (.ok (), machine, after) ∧
          arena.Overwritten reference.offset content after) ∨
      ¬ (Reading.bytes content.length).Allowed arena reference ∧ ∃ fault,
        overwrite reference content environment (machine, arena) =
          (.error (.fault fault), machine, arena) ∧ arena.Barred reference.offset fault := by
  rcases checkReadable_cases arena reference content.length with
    ⟨hallowed, hcheck⟩ | ⟨hnot, fault, hcheck, hbarred⟩
  · refine Or.inl ⟨hallowed, _, ?_, h.overwritten hallowed.2⟩
    rw [overwrite, bind_apply_ok _ _ (own_apply ..), hcheck, bind_apply_ok _ _ (checked_ok ..)]
    rfl
  · refine Or.inr ⟨hnot, fault, ?_, hbarred⟩
    rw [overwrite, bind_apply_ok _ _ (own_apply ..), hcheck,
      bind_apply_error _ _ (checked_error ..)]

/-! ## Exactly what is in use -/

/-- In every reachable arena and at every reference, a reading gives the bytes that it names if it
is allowed, and otherwise it is stopped. Bytes are borrowed for writing just if they may be read,
and then what is written into them is written there and nowhere else. Nothing that is stopped
changes anything. -/
theorem Reachable.reads_exactly (h : arena.Reachable) (reference : Reference)
    (environment : Environment) (machine : Machine) :
    (∀ reading : Reading,
      reading.Allowed arena reference ∧
          (Answer.plain <$> (Operation.read reference reading).run) environment (machine, arena) =
            (.ok (reading.yields arena reference.offset), machine, arena) ∨
        ¬ reading.Allowed arena reference ∧ ∃ fault,
          (Operation.read reference reading).run environment (machine, arena) =
            (.error (.fault fault), machine, arena) ∧ arena.Barred reference.offset fault) ∧
    ∀ content : Stretch Empty,
      (Reading.bytes content.length).Allowed arena reference ∧ (∃ after,
          (Operation.overwrite reference content).run environment (machine, arena) =
            (.ok .done, machine, after) ∧ arena.Overwritten reference.offset content after) ∨
        ¬ (Reading.bytes content.length).Allowed arena reference ∧ ∃ fault,
          (Operation.overwrite reference content).run environment (machine, arena) =
            (.error (.fault fault), machine, arena) ∧ arena.Barred reference.offset fault := by
  refine ⟨fun reading => ?_, fun content => ?_⟩
  · -- a reading is what it finds, and touches nothing
    have hread : (Operation.read reference reading).run environment (machine, arena) =
        checked (reading.find arena reference) environment (machine, arena) :=
      bind_apply_ok _ _ (own_apply ..)
    by_cases hallowed : reading.Allowed arena reference
    · refine Or.inl ⟨hallowed, ?_⟩
      have hfind := hallowed.find
      cases hfound : reading.find arena reference with
      | error fault =>
        rw [hfound] at hfind
        cases hfind
      | ok answer =>
        rw [hfound] at hfind hread
        have hplain : answer.plain = _ := Except.ok.inj hfind
        rw [map_apply _ _ (hread.trans (checked_ok ..))]
        exact congrArg (fun answer => (Except.ok answer, machine, arena)) hplain
    · obtain ⟨fault, hfind, hbarred⟩ := Reading.find_barred hallowed
      refine Or.inr ⟨hallowed, fault, ?_, hbarred⟩
      rw [hread, hfind, checked_error]
  · rcases overwrite_exactly h.wellFormed content environment machine with
      ⟨hallowed, after, hrun, hwritten⟩ | ⟨hnot, fault, hrun, hbarred⟩
    · exact Or.inl ⟨hallowed, after, map_apply _ _ hrun, hwritten⟩
    · exact Or.inr ⟨hnot, fault, map_apply _ _ hrun, hbarred⟩

end PagedAlloc.Arena

namespace PagedAlloc.Arena

open Procedure

attribute [local instance] Size.Paging.common

theorem reads_exactly_false_length :
    let arena : Arena :=
      ⟨⟨65536, 32, (Memory.zeroed 32).fill 0 16 (Run.constant 0)⟩, 16, .fixedHeap, .off, none⟩
    let pushed := arena.after .ordinary .fresh (.push (.bytes [2, 0, 0, 0, 7, 8, 200, 0, 0, 0]))
    pushed.length = 26 ∧
      (Answer.plain <$> (Operation.read ⟨16⟩ .prefixed).run) .ordinary (.fresh, pushed) =
        (.ok (.bytes (Stretch.ofBytes [7, 8])), .fresh, pushed) ∧
      ∃ fault, (Operation.read ⟨22⟩ .prefixed).run .ordinary (.fresh, pushed) =
        (.error (.fault fault), .fresh, pushed) ∧ pushed.Barred 22 fault := by
  intro arena pushed
  have hcreated : arena.Reachable := .start .ordinary .fresh _ 32 .fixedHeap .off _ rfl
  have hpushed : pushed.Reachable := hcreated.step .ordinary .fresh _
  refine ⟨by decide +kernel, ?_, ?_⟩
  · rcases (hpushed.reads_exactly ⟨16⟩ .ordinary .fresh).1 .prefixed with ⟨-, hrun⟩ | ⟨hnot, -⟩
    · have hyields : Reading.prefixed.yields pushed 16 = .bytes (Stretch.ofBytes [7, 8]) := by
        rw [Reading.yields, show pushed.bytesAt (16 + 4) (pushed.countAt 16) = [7, 8] by
          decide +kernel]
      rw [hrun, hyields]
    · exact absurd (by decide +kernel) hnot
  · rcases (hpushed.reads_exactly ⟨22⟩ .ordinary .fresh).1 .prefixed with ⟨hallowed, -⟩ | ⟨-, hstop⟩
    · exact absurd hallowed (by decide +kernel)
    · exact hstop

end PagedAlloc.Arena
