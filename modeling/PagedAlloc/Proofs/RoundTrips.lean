import PagedAlloc.Proofs.BuildProtocol
import PagedAlloc.Proofs.KeptBytes
import PagedAlloc.Proofs.Texts

/-!
# Round trips through an arena

What is added to a build can be read where it was added once the build is committed. A build of some
additions is followed call by call (`Arena.Building`); its bytes are held from the reference on that
the commit gives (`Arena.Building.holds`), under all operations that spare them (`Arena.Sparing`). So
each addition gives back what was added (`Arena.Reachable.fields_found`), as long as there is anything
to read: at the very end of an arena not even nothing can be read.
-/

namespace PagedAlloc.Arena

variable {paging : Size.Paging}

open Procedure

/-- The values that the types of an addition allow. -/
def Addition.Proper : Addition → Prop
  | integer type value => 0 < type.width ∧ type.Holds value
  | pointer address => address < Size.limit
  | _ => True

/-- What was added is read at a reference. -/
def Addition.Found (arena : Arena) (reference : Reference) : Addition → Prop
  | bytes values => values ≠ [] ∨ reference.offset < arena.length →
      (arena.read reference values.length).map Stretch.bytes = .ok values
  | zeroes count => 0 < count ∨ reference.offset < arena.length →
      (arena.read reference count).map Stretch.bytes = .ok (List.replicate count 0)
  | align _ => True
  | integer type value => arena.readInteger reference type = .ok value
  | pointer address => arena.readInteger reference .word = .ok address
  | terminated value => arena.readTerminated reference = .ok (some (utf8 (beforeNull value)))
  | prefixed content => (arena.readPrefixed reference).map Stretch.bytes = .ok content.bytes
  | text value => arena.readText reference = .ok (some value)

/-- The arenas in which a build is in progress that began in an idle one, after some additions. Each
of them may have failed, but none was stopped on the way. -/
inductive Building [Size.Paging] (arena : Arena) : List Addition → Arena → Prop where
  | begin (idle : arena.build = none) (environment : Environment) (machine : Machine) :
      Building arena [] (arena.after environment machine .begin)
  | add {additions : List Addition} {middle : Arena} (before : Building arena additions middle)
      (environment : Environment) (machine : Machine) (addition : Addition)
      (goes_on : ∀ fault, (addition.run environment (machine, middle)).1 ≠ .error (.fault fault)) :
      Building arena (additions ++ [addition]) (middle.after environment machine (.add addition))

/-- The arenas that operations lead to which spare the bytes between two offsets. -/
inductive Sparing [Size.Paging] (start stop : Nat) (arena : Arena) : Arena → Prop where
  | refl : Sparing start stop arena arena
  | step {middle : Arena} (before : Sparing start stop arena middle) (environment : Environment)
      (machine : Machine) {operation : Operation} (spares : operation.Spares start stop) :
      Sparing start stop arena (middle.after environment machine operation)

variable {environment : Environment} {machine : Machine} {arena built later : Arena}
  {reference : Reference} {additions : List Addition}
  {offset start : Nat} {bytes : List UInt8}

/-! ## Reading what is held -/

/-- An integer is read back from its digits. -/
theorem Holds.readInteger {type : IntegerType} {value : Int}
    (h : arena.Holds offset (digits type.width value)) (idle : arena.build = none)
    (positive : 0 < type.width) (holds : type.Holds value) :
    arena.readInteger ⟨offset⟩ type = .ok value := by
  rw [← IntegerType.encode_eq_digits] at h
  have hlength : (type.encode value).length = type.width := IntegerType.length_encode ..
  have hread := h.read idle (h.starts idle (List.length_pos_iff.1 (hlength ▸ positive)))
  rw [hlength] at hread
  rw [Arena.readInteger]
  cases hfound : arena.read ⟨offset⟩ type.width with
  | error fault =>
    rw [hfound] at hread
    cases hread
  | ok found =>
    rw [hfound] at hread
    have hbytes : found.bytes = type.encode value := Except.ok.inj hread
    show Except.ok (type.decode found.bytes) = _
    rw [hbytes, IntegerType.decode_encode holds]

theorem length_digits (width : Nat) (value : Int) : (digits width value).length = width := by
  rw [digits, List.length_map, List.length_range]

/-- What stands behind its length is read back. -/
theorem Holds.readPrefixed (h : arena.Holds offset (digits 4 bytes.length ++ bytes))
    (idle : arena.build = none) (counted : bytes.length < IntegerType.lengthPrefix.modulus) :
    (arena.readPrefixed ⟨offset⟩).map Stretch.bytes = .ok bytes := by
  have hholds : IntegerType.lengthPrefix.Holds bytes.length :=
    ⟨Int.natCast_nonneg _, Int.ofNat_lt.2 counted⟩
  have hcount := Holds.readInteger (h.left : arena.Holds offset (digits 4 bytes.length)) idle
    (by decide) hholds
  have hstarts := h.left.starts idle (List.length_pos_iff.1 (by rw [length_digits]; decide))
  have hlength : (digits 4 bytes.length ++ bytes).length = 4 + bytes.length := by
    rw [List.length_append, length_digits]
  have hreadable : arena.checkReadable ⟨offset⟩ (4 + bytes.length) = .ok () :=
    h.readable idle hstarts (Nat.le_of_eq hlength.symm)
  have hbytes := h.right.bytes_eq
  rw [length_digits] at hbytes
  rw [Arena.readPrefixed, hcount]
  show ((arena.checkReadable ⟨offset⟩ (4 + bytes.length) >>= fun _ =>
    Except.ok (arena.cells (offset + 4) bytes.length)).map Stretch.bytes) = _
  rw [hreadable]
  exact congrArg Except.ok hbytes

/-- The bytes in use go on behind those that are held. -/
theorem Holds.built_eq (h : arena.Holds offset bytes) (idle : arena.build = none) :
    arena.built offset = bytes ++ arena.built (offset + bytes.length) := by
  have hwithin := h.within
  rw [floor_of_idle idle] at hwithin
  have hlength : arena.length - offset =
      bytes.length + (arena.length - (offset + bytes.length)) := by omega
  have hheld := h.bytes_eq
  rw [Arena.cells, Stretch.bytes, Memory.cells_read, List.map_map] at hheld
  rw [Arena.built_eq, Arena.built_eq, hlength, List.range_add, List.map_append, List.map_map]
  refine congr (congrArg _ hheld) (List.map_congr_left fun index _ => ?_)
  rw [Function.comp_apply, Nat.add_assoc]

/-- A terminated text is read back up to its first zero. -/
theorem Holds.readTerminated (h : arena.Holds offset (bytes ++ [0])) (idle : arena.build = none) :
    arena.readTerminated ⟨offset⟩ = .ok (some (bytes.takeWhile (· ≠ 0))) := by
  have hreadable := h.readable idle (h.starts idle (by simp)) (Nat.zero_le _)
  have hbuilt := h.built_eq idle
  rw [List.append_assoc, List.singleton_append, built] at hbuilt
  rw [Arena.readTerminated, hreadable]
  show Except.ok (untilZero (arena.cells offset (arena.length - offset)).bytes) = _
  rw [hbuilt, untilZero_append]

/-- What was added is found where its encoding is held. -/
theorem Holds.found {field : Addition} (h : arena.Holds offset (field.encoding offset))
    (idle : arena.build = none) (proper : field.Proper) (counted : ¬ field.Oversized) :
    field.Found arena ⟨offset⟩ := by
  have hplain : ∀ values : List UInt8, arena.Holds offset values →
      values ≠ [] ∨ offset < arena.length →
        (arena.read ⟨offset⟩ values.length).map Stretch.bytes = .ok values := by
    rintro values hvalues (hsome | hstarts)
    · exact hvalues.read idle (hvalues.starts idle hsome)
    · exact hvalues.read idle hstarts
  -- integers are read by their width, the others by the length that goes in front or the zero that
  -- ends them
  cases field with
  | bytes values => exact hplain values h
  | zeroes count =>
    intro hsome
    have hvalues : 0 < count → List.replicate count (0 : UInt8) ≠ [] := fun hpositive hnil =>
      Nat.ne_of_gt hpositive (List.replicate_eq_nil_iff _ |>.1 hnil)
    have hread := hplain _ h (hsome.imp_left hvalues)
    rwa [Addition.encoding, List.length_replicate] at hread
  | align alignment => exact trivial
  | integer type value => exact h.readInteger idle proper.1 proper.2
  | pointer address =>
    have hword : IntegerType.word.Holds address :=
      ⟨Int.natCast_nonneg _, Int.ofNat_lt.2 proper⟩
    exact Holds.readInteger (h : arena.Holds offset (digits IntegerType.word.width address)) idle
      (by decide) hword
  | terminated value =>
    rw [Addition.Found, ← takeWhile_utf8]
    exact h.readTerminated idle
  | prefixed content =>
    rw [Addition.encoding, ← Stretch.length_bytes] at h
    refine h.readPrefixed idle ?_
    rw [Stretch.length_bytes]
    exact Nat.not_le.1 counted
  | text value =>
    have hread := h.readPrefixed idle (Nat.not_le.1 counted)
    rw [Addition.Found, Arena.readText]
    cases hfound : arena.readPrefixed ⟨offset⟩ with
    | error fault =>
      rw [hfound] at hread
      cases hread
    | ok found =>
      rw [hfound] at hread
      have hbytes : found.bytes = utf8 value := Except.ok.inj hread
      show Except.ok (String.fromUTF8? (ByteArray.mk found.bytes.toArray)) = _
      rw [hbytes, fromUTF8?_utf8]

/-! ## Builds -/

/-- Additions are laid down one behind the other, and later ones are padded from where the earlier
ones end. -/
theorem encodings_append (offset : Nat) (first second : List Addition) :
    encodings offset (first ++ second) = encodings offset first ++
      encodings (offset + (encodings offset first).length) second := by
  induction first generalizing offset with
  | nil => rfl
  | cons addition rest ih =>
    simp only [List.cons_append, encodings, ih, List.append_assoc, List.length_append,
      Nat.add_assoc]

theorem ok_of_toOption {α : Type} {result : Except Stop α} {value : α}
    (h : result.toOption = some value) : result = .ok value := by
  cases result with
  | ok found => exact congrArg Except.ok (Option.some.inj h)
  | error reason => cases h

/-- An addition that succeeds is not stopped. -/
theorem Building.succeeds (h : Building arena additions built) (environment : Environment)
    (machine : Machine) (addition : Addition)
    (hok : (addition.run environment (machine, built)).1.toOption = some ()) :
    Building arena (additions ++ [addition])
      (built.after environment machine (.add addition)) := by
  refine h.add environment machine addition fun fault hfault => ?_
  rw [hfault] at hok
  cases hok

/-- A build is made by operations, so it is reachable. -/
theorem Building.reachable (h : Building arena additions built) (hreach : arena.Reachable) :
    built.Reachable := by
  induction h with
  | begin idle environment machine => exact hreach.step environment machine .begin
  | add before environment machine addition goes_on ih =>
    exact ih.step environment machine (.add addition)

/-- A build that has not failed holds the encodings of all additions, each of which can be
counted. -/
theorem Building.built_eq (h : Building arena additions built) (hreach : arena.Reachable)
    (hbuild : built.build = some ⟨start, none⟩) :
    start = arena.length ∧ built.built start = encodings arena.length additions ∧
      ∀ addition ∈ additions, ¬ addition.Oversized := by
  induction h generalizing start with
  | begin idle environment machine =>
    rw [after, Operation.run, map_state, begin_idle idle] at hbuild ⊢
    obtain rfl : arena.length = start := congrArg Build.start (Option.some.inj hbuild)
    refine ⟨rfl, ?_, by simp⟩
    rw [Arena.built_eq]
    simp [encodings]
  | @add additions middle before environment machine addition goes_on ih =>
    rw [after, Operation.run, map_state] at hbuild ⊢
    obtain ⟨-, hbefore, hcounted, hbuilt⟩ :=
      (before.reachable hreach).built_add hbuild rfl goes_on
    obtain ⟨rfl, hearlier, hall⟩ := ih hbefore
    have hstart := ((before.reachable hreach).wellFormed.started _ hbefore).2
    -- what is added next begins where the encodings of all before it end
    have hlength : middle.length =
        arena.length + (encodings arena.length additions).length := by
      rw [← hearlier, length_built]
      simp only at hstart
      omega
    refine ⟨rfl, ?_, ?_⟩
    · rw [hbuilt, hearlier, encodings_append, encodings, encodings, List.append_nil, hlength]
    · intro other hother
      rcases List.mem_append.1 hother with hold | hnew
      · exact hall other hold
      · exact List.mem_singleton.1 hnew ▸ hcounted

/-- A commit that gives a reference names the start of the build and ends it. -/
theorem commit_eq_ok (hformed : arena.WellFormed)
    (hcommit : (commit environment (machine, arena)).1 = .ok reference) :
    arena.build = some ⟨reference.offset, none⟩ ∧
      arena.after environment machine .commit = { arena with build := none } := by
  rw [after, Operation.run, map_state]
  cases hbuild : arena.build with
  | none =>
    rw [commit, bind_apply_error _ _ (endBuild_none hbuild _)] at hcommit
    cases hcommit
  | some build =>
    obtain ⟨start, failure⟩ := build
    obtain ⟨_, hrun⟩ := commit_staged hbuild (hformed.started _ hbuild).2 environment machine
    rw [hrun] at hcommit ⊢
    cases failure with
    | none =>
      cases hcommit
      exact ⟨rfl, rfl⟩
    | some failure => cases hcommit

/-- The encodings of all additions are held from the committed reference on. -/
theorem Building.holds (h : Building arena additions built) (hreach : arena.Reachable)
    (hcommit : (commit environment (machine, built)).1 = .ok reference) :
    (built.after environment machine .commit).Holds reference.offset
        (encodings reference.offset additions) ∧
      ∀ addition ∈ additions, ¬ addition.Oversized := by
  have hformed := (h.reachable hreach).wellFormed
  obtain ⟨hbuild, hafter⟩ := commit_eq_ok hformed hcommit
  obtain ⟨hreserved, hle⟩ := hformed.started _ hbuild
  obtain ⟨hstart, hencoded, hcounted⟩ := h.built_eq hreach hbuild
  rw [← hstart] at hencoded
  rw [hafter]
  exact ⟨holds_of_built rfl hreserved hle hencoded, hcounted⟩

/-! ## Later operations -/

/-- What is done while some bytes are spared is done by operations, so the state after it is
reachable. -/
theorem Sparing.reachable {stop : Nat} (h : Sparing start stop arena later)
    (hreach : arena.Reachable) : later.Reachable := by
  induction h with
  | refl => exact hreach
  | step before environment machine spares ih => exact ih.step ..

/-- Bytes are held as long as they are spared. -/
theorem Sparing.holds (h : Sparing offset (offset + bytes.length) arena later)
    (hreach : arena.Reachable) (hholds : arena.Holds offset bytes) : later.Holds offset bytes := by
  induction h with
  | refl => exact hholds
  | step before environment machine spares ih =>
    exact ih.after (before.reachable hreach).wellFormed environment machine spares

/-- Each addition of a committed build is found again: at the reference that the commit gave, moved
on by the encodings of all additions before it, and in every idle arena that later operations lead
to, unless they cut it off or overwrite it. Nothing is found at the end of such an arena, not even an
empty byte string. -/
theorem Reachable.fields_found (h : arena.Reachable) (hbuilding : Building arena additions built)
    (hcommit : (commit environment (machine, built)).1 = .ok reference)
    {before rest : List Addition} {field : Addition} (hfield : additions = before ++ field :: rest)
    (proper : field.Proper) :
    let offset := reference.offset + (encodings reference.offset before).length
    ∀ later, Sparing offset (offset + (field.encoding offset).length)
        (built.after environment machine .commit) later →
      later.build = none → field.Found later ⟨offset⟩ ∧
        ∀ reference : Reference, later.length ≤ reference.offset → ∀ count,
          ∃ fault, later.read reference count = .error fault := by
  intro offset later hsparing idle
  obtain ⟨hholds, hcounted⟩ := hbuilding.holds h hcommit
  have hcommitted := (hbuilding.reachable h).step environment machine .commit
  rw [hfield, encodings_append, encodings] at hholds
  exact ⟨(hsparing.holds hcommitted hholds.right.left).found idle proper
      (hcounted field (hfield ▸ List.mem_append_right _ (List.mem_cons_self ..))),
    fun _ beyond => read_beyond beyond⟩

end PagedAlloc.Arena

namespace PagedAlloc.Arena

open Procedure

attribute [local instance] Size.Paging.common

theorem fields_found_after_growth :
    let arena : Arena :=
      ⟨⟨65536, 16, ⟨16, .leaf (Run.constant 0)⟩⟩, 16, .heap, ⟨true, true⟩, none⟩
    let begun := arena.after .ordinary .fresh .begin
    let first := begun.after .ordinary .fresh (.add (.integer ⟨2, true⟩ (-2)))
    let second := first.after .ordinary .fresh (.add (.align 4))
    let built := second.after .ordinary .fresh (.add (.text "naïve"))
    let committed := built.after .ordinary .fresh .commit
    let grown := committed.after .ordinary .fresh (.push (.zeroes 100))
    built.length = 30 ∧ grown.length = 130 ∧ grown.readText ⟨20⟩ = .ok (some "naïve") := by
  intro arena begun first second built committed grown
  have hreach : arena.Reachable := .start .ordinary .fresh _ 16 .heap ⟨true, true⟩ _ rfl
  have hbuilding : Building arena [.integer ⟨2, true⟩ (-2), .align 4, .text "naïve"] built :=
    (((Building.begin rfl .ordinary .fresh).succeeds .ordinary .fresh (.integer ⟨2, true⟩ (-2))
      (by decide +kernel)).succeeds .ordinary .fresh (.align 4) (by decide +kernel)).succeeds
        .ordinary .fresh (.text "naïve") (by decide +kernel)
  have hcommit : (commit .ordinary (.fresh, built)).1 = .ok ⟨16⟩ :=
    ok_of_toOption (by decide +kernel)
  have hplace : (⟨16⟩ : Reference).offset + (encodings (⟨16⟩ : Reference).offset
      [.integer ⟨2, true⟩ (-2), .align 4]).length = 20 := by decide +kernel
  obtain ⟨hfound, -⟩ := hreach.fields_found hbuilding hcommit
    (show _ = [.integer ⟨2, true⟩ (-2), .align 4] ++ .text "naïve" :: [] from rfl) trivial grown
    (.step .refl .ordinary .fresh trivial) (by decide +kernel)
  rw [hplace] at hfound
  exact ⟨by decide +kernel, by decide +kernel, hfound⟩

/-- Nothing can be read at the end of an arena, not even the empty byte string that was added there
last. -/
theorem empty_bytes_not_found :
    let arena : Arena :=
      ⟨⟨65536, 64, (Memory.zeroed 64).fill 0 16 (Run.constant 0)⟩, 16, .fixedHeap, .off, none⟩
    let begun := arena.after .ordinary .fresh .begin
    let first := begun.after .ordinary .fresh (.add (.integer ⟨1, false⟩ 7))
    let built := first.after .ordinary .fresh (.add (.bytes []))
    let committed := built.after .ordinary .fresh .commit
    arena.Reachable ∧ Building arena [.integer ⟨1, false⟩ 7, .bytes []] built ∧
      (commit .ordinary (.fresh, built)).1 = .ok ⟨16⟩ ∧ committed.build = none ∧
      (committed.read ⟨17⟩ 0).map Stretch.bytes ≠ .ok [] := by
  intro arena begun first built committed
  have hbuilding : Building arena [.integer ⟨1, false⟩ 7, .bytes []] built :=
    ((Building.begin rfl .ordinary .fresh).succeeds .ordinary .fresh (.integer ⟨1, false⟩ 7)
      (by decide +kernel)).succeeds .ordinary .fresh (.bytes []) (by decide +kernel)
  have hcommit : (commit .ordinary (.fresh, built)).1 = .ok ⟨16⟩ :=
    ok_of_toOption (by decide +kernel)
  have hlength : committed.length = 17 := by decide +kernel
  refine ⟨.start .ordinary .fresh _ 64 .fixedHeap .off _ rfl, hbuilding, hcommit,
    by decide +kernel, fun hread => ?_⟩
  obtain ⟨fault, hfault⟩ := read_beyond
    (show committed.length ≤ (⟨17⟩ : Reference).offset from Nat.le_of_eq hlength) 0
  rw [hfault] at hread
  cases hread

end PagedAlloc.Arena
