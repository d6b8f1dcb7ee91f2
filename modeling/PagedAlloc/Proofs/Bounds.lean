import PagedAlloc.Proofs.StackDiscipline

/-!
# Bounds

What is in use of an arena lies between the reserved bytes and the end of its buffer, and so does
the start of a build in progress (`Arena.Bounded`). The capacity is rounded in each of the places
where an arena asks for a buffer, and the strategies only round it further. So everything that is
written or read is inside of the buffer, and no reference names a reserved byte
(`Arena.Reachable.in_bounds`).
-/

namespace PagedAlloc.Arena

variable {paging : Size.Paging}

open Procedure

variable {environment : Environment} {machine : Machine} {arena : Arena} {source : Source}
  {size length capacity : Nat}

/-- The capacity of an arena is rounded to its alignment. -/
structure Rounded [Size.Paging] (arena : Arena) : Prop where
  backed : arena.Backed
  aligned : alignment ∣ arena.capacity

/-- The arena and its build are within the buffer, behind the reserved bytes. -/
structure Bounded [Size.Paging] (arena : Arena) : Prop where
  reserved : firstOffset ≤ arena.length
  fits : arena.length ≤ arena.capacity
  aligned : alignment ∣ arena.capacity
  paged : arena.strategies.source.family = .pages → Size.pageSize ∣ arena.capacity
  whole : arena.region.memory.length = arena.capacity
  started : ∀ build ∈ arena.build, firstOffset ≤ build.start ∧ build.start ≤ arena.length

/-! ## Rounded capacities -/

/-- A granted request is as long as it was asked for, or rounded to whole pages. -/
theorem aligned_of_answer (positive : 0 < size) (aligned : alignment ∣ size) {ledger : Ledger}
    (h : source.answer environment ledger alignment size = .ok length) : alignment ∣ length := by
  have hsuits := Source.suits_of_answer positive h
  cases hfamily : source.family with
  | pages =>
    rw [hfamily] at hsuits
    exact Nat.dvd_trans (Size.dvd_pageSize alignment_power (by decide)) hsuits.1
  | heap =>
    simp only [Source.answer, hfamily] at h
    split at h
    · split at h
      · exact Except.ok.inj h ▸ aligned
      · cases h
    · cases h

/-- An arena wants its own capacity, or one that is rounded. -/
theorem Rounded.wanted (h : arena.Rounded) {needed : Nat}
    (wanted : arena.wanted? needed = some capacity) : alignment ∣ capacity := by
  -- room that is there already is asked for again only if every push moves the buffer
  by_cases hfits : needed ≤ arena.capacity
  · rw [wanted?, if_pos hfits] at wanted
    exact Option.some.inj wanted ▸ h.aligned
  · rw [wanted?, if_neg hfits] at wanted
    obtain ⟨doubled, -, hround⟩ := Option.bind_eq_some_iff.1 wanted
    exact Size.dvd_of_roundUp?_eq_some hround

/-- A buffer that never moves keeps its capacity on the heap. -/
theorem Rounded.of_fixed (h : arena.Rounded) (stays : arena.strategies.mayMove = false)
    {region : Region} {machine' : Machine}
    (hrun : Region.resize arena.strategies.resizing arena.region arena.capacity capacity alignment
      arena.diagnostics environment machine = (.ok region, machine'))
    (suits : arena.strategies.source.family.Suits alignment region.length) :
    alignment ∣ region.length := by
  cases hfamily : arena.strategies.source.family with
  | pages =>
    rw [hfamily] at suits
    exact Nat.dvd_trans (Size.dvd_pageSize alignment_power (by decide)) suits.1
  | heap =>
    -- the one way of resizing that keeps the address belongs to pages
    have hnoOp : arena.strategies.resizing = .noOp := by
      have hbelongs := h.backed.consistent.2
      rw [Strategies.mayMove] at stays
      cases hresizing : arena.strategies.resizing with
      | noOp => rfl
      | heapOrAbort | heapOrFail | remapMayMove => rw [hresizing] at stays; cases stays
      | remapKeepAddress =>
        rw [hresizing, hfamily] at hbelongs
        cases hbelongs _ rfl
    rw [hnoOp, Region.resize] at hrun
    split at hrun
    · cases hrun
      exact h.aligned
    · cases hrun

/-- What an arena gets for a rounded capacity is rounded. -/
theorem Rounded.request (h : arena.Rounded) (positive : 0 < capacity)
    (aligned : alignment ∣ capacity) {region : Region} {machine' : Machine}
    (hrun : arena.request capacity environment machine = (.ok region, machine')) :
    alignment ∣ region.length := by
  cases hmoves : arena.strategies.mayMove with
  | true =>
    obtain ⟨result, after, hrun', hcases⟩ :=
      h.backed.answer_request hmoves positive environment machine
    obtain ⟨rfl, -⟩ := Prod.mk.inj (hrun.symm.trans hrun')
    rcases hcases with hanswer | hanswer | ⟨_, _, herror, -⟩
    · exact aligned_of_answer positive aligned hanswer.symm
    · exact aligned_of_answer positive aligned hanswer.symm
    · cases herror
  | false =>
    have hsuits := h.backed.request positive environment machine
    rw [hrun] at hsuits
    have hforce : ¬ (arena.diagnostics.forceRelocation && arena.strategies.mayMove) = true := by
      simp [hmoves]
    rw [Arena.request, if_neg hforce] at hrun
    exact h.of_fixed hmoves hrun hsuits

/-- Taking a buffer of a rounded capacity. -/
theorem Rounded.adopt (h : arena.Rounded) {request : Procedure Machine Region}
    (expected : Expected environment arena (request environment machine).1)
    (aligned : ∀ region machine', request environment machine = (.ok region, machine') →
      alignment ∣ region.length) :
    (Arena.adopt request environment (machine, arena)).2.2.Rounded := by
  cases hrun : request environment machine with
  | mk result middle =>
    cases result with
    | error reason =>
      rw [adopt_error hrun]
      exact h
    | ok region =>
      rw [hrun] at expected
      rw [adopt_ok_eq hrun]
      exact ⟨⟨h.backed.consistent, expected⟩, aligned region middle hrun⟩

/-- Making room keeps capacities rounded. -/
theorem Rounded.makeRoom (h : arena.Rounded) (additional : Nat) (environment : Environment)
    (machine : Machine) :
    (Arena.makeRoom additional environment (machine, arena)).2.2.Rounded := by
  rw [makeRoom_eq]
  split
  · exact h
  · split
    · exact h
    · split
      · exact h
      · rename_i capacity hwanted
        have hpositive := Nat.lt_of_lt_of_le h.backed.positive (le_wanted hwanted)
        exact h.adopt (h.backed.request hpositive _ _) fun region machine' hrun =>
          h.request hpositive (h.wanted hwanted) hrun

/-- Shrinking keeps capacities rounded. -/
theorem Rounded.shrink (h : arena.Rounded) (hformed : arena.WellFormed) (environment : Environment)
    (machine : Machine) : (Arena.shrink environment (machine, arena)).2.2.Rounded := by
  rcases shrink_cases environment machine arena with
    ⟨fault, -, hrun⟩ | ⟨target, -, -, hrun⟩ | ⟨target, htarget, -, hmoves, hrun⟩ <;> rw [hrun]
  · exact h
  · exact h
  · have hpositive := hformed.positive (Size.le_of_roundUp_eq_ok (by decide) htarget)
    have hanswer := h.backed.answer_resize hmoves hpositive environment machine
    refine h.adopt (expected_of_answer hpositive (h.backed.family_resizing hmoves) Or.inr hanswer)
      fun region machine' hresize => ?_
    rw [hresize] at hanswer
    exact aligned_of_answer hpositive (Size.dvd_of_roundUp_eq_ok htarget) hanswer.symm

/-- A rounded capacity stays rounded. -/
theorem lasting_rounded :
    Lasting fun before after => before.2.Rounded → after.2.Rounded where
  trans _ _ _ h h' hrounded := h' (h hrounded)
  same hstrategies hcapacity hrounded :=
    ⟨lasting_backs.same hstrategies hcapacity hrounded.backed, hcapacity ▸ hrounded.aligned⟩
  room additional := ⟨fun environment (machine, _) h => h.makeRoom additional environment machine⟩

/-- The first capacity is rounded before it is asked for. -/
theorem rounded_of_create {strategies : Strategies} {diagnostics : Diagnostics} {machine' : Machine}
    (made : create capacity strategies diagnostics environment machine = (.ok arena, machine')) :
    arena.Rounded := by
  refine ⟨backed_of_create made, ?_⟩
  obtain ⟨size, region, middle, -, hpositive, hsize, hrun, rfl, -⟩ := create_ok made
  have hanswer := Region.answer_allocate strategies.source hpositive alignment_power alignment_le
    environment machine
  rw [hrun] at hanswer
  exact aligned_of_answer hpositive (Size.dvd_of_roundUp?_eq_some hsize) hanswer.symm

/-- All arenas have rounded capacities. -/
theorem Reachable.rounded (h : arena.Reachable) : arena.Rounded := by
  induction h with
  | start environment machine machine' capacity strategies diagnostics arena made =>
    exact rounded_of_create made
  | @step arena before environment machine operation ih =>
    by_cases hother : operation = .shrink
    · rw [hother, after, Operation.run, map_state]
      exact ih.shrink before.wellFormed environment machine
    · exact (lasting_rounded.operation hother).holds environment (machine, arena) ih

/-- A well-formed arena of a rounded capacity is within its buffer. -/
theorem Rounded.bounded (h : arena.Rounded) (hformed : arena.WellFormed) : arena.Bounded where
  reserved := hformed.reserved
  fits := hformed.fits
  aligned := h.aligned
  paged hfamily := by
    have hsuits := h.backed.suits
    rw [hfamily] at hsuits
    exact hsuits.1
  whole := hformed.whole
  started := hformed.started

/-! ## What is written and read -/

/-- Whatever is added is written where room was made for it. -/
theorem add_ok (hformed : arena.WellFormed) {content : Stretch Empty} {machine' : Machine}
    {later : Arena} (hrun : add content environment (machine, arena) = (.ok (), machine', later)) :
    ∃ room, makeRoom content.length environment (machine, arena) = (.ok (), machine', room) ∧
      later = room.appended content ∧ room.length = arena.length ∧
      room.length + content.length ≤ room.capacity := by
  rw [add, bind_apply_ok _ _ (own_apply ..)] at hrun
  cases hbuild : arena.build with
  | none =>
    simp only [hbuild] at hrun
    cases hrun
  | some build =>
    simp only [hbuild] at hrun
    cases hfailure : build.failure with
    | some failure =>
      simp only [hfailure] at hrun
      cases hrun
    | none =>
      -- only a build that did not fail gets as far as making room
      obtain ⟨result, middle, room, hroom, -, -, hlength, hfits⟩ :=
        hformed.makeRoom content.length environment machine
      simp only [hfailure] at hrun
      cases result with
      | ok =>
        rw [bind_apply_ok _ _ (attempt_ok _ hroom)] at hrun
        cases hrun
        exact ⟨room, hroom, rfl, hlength, hlength ▸ hfits rfl⟩
      | error reason =>
        cases reason with
        | fault fault =>
          rw [bind_apply_error _ _ (attempt_fault _ hroom)] at hrun
          cases hrun
        | failure failure =>
          rw [bind_apply_ok _ _ (attempt_failure _ hroom)] at hrun
          cases hrun

/-- What may be read lies behind the reserved bytes and in what is in use. -/
theorem inside_of_checkReadable {reference : Reference} {count : Nat}
    (readable : arena.checkReadable reference count = .ok ()) :
    firstOffset ≤ reference.offset ∧ reference.offset + count ≤ arena.length := by
  rw [checkReadable] at readable
  split at readable
  · cases readable
  · split at readable
    · rename_i hinside
      obtain ⟨hreserved, hstart, hend⟩ := hinside
      exact ⟨hreserved, by omega⟩
    · cases readable

/-- What a reading makes of the bytes that it borrows. -/
def Reading.present : Reading → Stretch Empty → Answer
  | bytes _, found => .bytes found
  | integer type, found => .integer (type.decode found.bytes)
  | terminated, found => .terminated (untilZero found.bytes)
  | prefixed, found => .bytes found
  | text, found => .text (String.fromUTF8? (ByteArray.mk found.bytes.toArray))

/-- Everything from a reference to the end of some borrowed bytes is in use, and a reading makes its
answer of just these bytes. -/
structure Borrows (arena : Arena) (reference : Reference) (found : Stretch Empty) : Prop where
  reserved : firstOffset ≤ reference.offset
  slice : ∃ start count, reference.offset ≤ start ∧ start + count ≤ arena.length ∧
    found = arena.cells start count

theorem gives_checked (reference : Reference) (count : Nat) :
    Gives (arena.checkReadable reference count) fun _ =>
      firstOffset ≤ reference.offset ∧ reference.offset + count ≤ arena.length :=
  ⟨fun h => inside_of_checkReadable h⟩

/-- Reading borrows bytes in use. -/
theorem gives_read (reference : Reference) (count : Nat) :
    Gives (arena.read reference count) (arena.Borrows reference) :=
  (gives_checked reference count).bind fun _ hinside =>
    .pure ⟨hinside.1, _, _, Nat.le_refl _, hinside.2, rfl⟩

/-- Reading what a length stands in front of borrows bytes in use. -/
theorem gives_readPrefixed (reference : Reference) :
    Gives (arena.readPrefixed reference) (arena.Borrows reference) := by
  refine .of_next fun number => (gives_checked reference _).bind fun _ hinside =>
    .pure ⟨hinside.1, _, _, Nat.le_add_right .., ?_, rfl⟩
  rw [Nat.add_assoc]
  exact hinside.2

theorem gives_map {α β : Type} {result : Except Fault α} {property : α → Prop}
    (h : Gives result property) (f : α → β) :
    Gives (result.map f) fun answer => ∃ value, property value ∧ answer = f value := by
  cases result with
  | error fault => exact .error fault _
  | ok value => exact .pure ⟨value, h.holds rfl, rfl⟩

/-- An answer that is made of borrowed bytes in two steps. -/
theorem gives_decoded {α : Type} {result : Except Fault α} {reference : Reference}
    {decode : Stretch Empty → α}
    (h : Gives result fun value => ∃ found, arena.Borrows reference found ∧ value = decode found)
    (answer : α → Answer) :
    Gives (result.map answer) fun shown =>
      ∃ found, arena.Borrows reference found ∧ shown = answer (decode found) := by
  refine ⟨fun hshown => ?_⟩
  obtain ⟨value, ⟨found, hfound, rfl⟩, rfl⟩ := (gives_map h answer).holds hshown
  exact ⟨found, hfound, rfl⟩

/-- A reading answers with bytes that are in use, and nothing else. -/
theorem Reading.gives_find (arena : Arena) (reference : Reference) (reading : Reading) :
    Gives (reading.find arena reference) fun answer =>
      ∃ found, arena.Borrows reference found ∧ answer = reading.present found := by
  cases reading with
  | bytes count => exact gives_map (gives_read reference count) _
  | prefixed => exact gives_map (gives_readPrefixed reference) _
  | integer type =>
    have hread : Gives (arena.readInteger reference type) fun value =>
        ∃ found, arena.Borrows reference found ∧ value = type.decode found.bytes :=
      (gives_read reference type.width).bind fun found hfound => .pure ⟨found, hfound, rfl⟩
    exact gives_decoded hread Answer.integer
  | terminated =>
    have hread : Gives (arena.readTerminated reference) fun value =>
        ∃ found, arena.Borrows reference found ∧ value = untilZero found.bytes :=
      (gives_checked reference 0).bind fun _ hinside =>
        .pure ⟨_, ⟨hinside.1, _, _, Nat.le_refl _, by omega, rfl⟩, rfl⟩
    exact gives_decoded hread Answer.terminated
  | text =>
    have hread : Gives (arena.readText reference) fun value =>
        ∃ found, arena.Borrows reference found ∧
          value = String.fromUTF8? (ByteArray.mk found.bytes.toArray) :=
      (gives_readPrefixed reference).bind fun found hfound => .pure ⟨found, hfound, rfl⟩
    exact gives_decoded hread Answer.text

/-! ## References -/

/-- A commit names the place where its build began. -/
theorem reference_of_commit (hformed : arena.WellFormed) {reference : Reference}
    (hcommit : (commit environment (machine, arena)).1 = .ok reference) :
    firstOffset ≤ reference.offset := by
  cases hbuild : arena.build with
  | none =>
    rw [commit, bind_apply_error _ _ (endBuild_none hbuild _)] at hcommit
    cases hcommit
  | some build =>
    obtain ⟨hreserved, hstart⟩ := hformed.started build hbuild
    obtain ⟨machine', hrun⟩ := commit_staged hbuild hstart environment machine
    rw [hrun] at hcommit
    cases hfailure : build.failure with
    | some failure =>
      rw [hfailure] at hcommit
      cases hcommit
    | none =>
      rw [hfailure] at hcommit
      cases hcommit
      exact hreserved

/-- A push names the place where the arena ended before. -/
theorem Reachable.reference_of_push (h : arena.Reachable) {addition : Addition}
    {reference : Reference} (hpush : (push addition.run environment (machine, arena)).1 = .ok reference) :
    firstOffset ≤ reference.offset := by
  rcases begin_cases environment machine arena with ⟨idle, -⟩ | hbegin
  · obtain ⟨result, machine', later, hrun, -⟩ := h.push_cases idle addition environment machine
    rw [hrun] at hpush
    cases result with
    | error reason => cases hpush
    | ok =>
      cases hpush
      exact h.wellFormed.reserved
  · rw [push, bind_apply_error _ _ hbegin] at hpush
    cases hpush

/-- No operation gives a reference to a reserved byte. -/
theorem Reachable.reference_reserved (h : arena.Reachable) {operation : Operation}
    {reference : Reference}
    (hrun : (operation.run environment (machine, arena)).1 = .ok (.reference reference)) :
    firstOffset ≤ reference.offset := by
  have hother {α : Type} {answer : α → Answer} {procedure : Procedure (Machine × Arena) α}
      (different : ∀ value, answer value ≠ .reference reference)
      (hmap : ((answer <$> procedure) environment (machine, arena)).1 =
        .ok (.reference reference)) : False := by
    obtain ⟨value, -, hanswer⟩ := ok_of_map environment hmap
    exact different value hanswer
  cases operation with
  | commit =>
    obtain ⟨_, hcommit, ⟨⟩⟩ := ok_of_map environment hrun
    exact reference_of_commit h.wellFormed hcommit
  | push addition =>
    obtain ⟨_, hpush, ⟨⟩⟩ := ok_of_map environment hrun
    exact h.reference_of_push hpush
  | read other reading =>
    have hgives := reading.gives_find arena other
    rw [Operation.run, bind_apply_ok _ _ (own_apply ..)] at hrun
    cases hfind : reading.find arena other with
    | error fault =>
      rw [hfind] at hrun
      cases hrun
    | ok answer =>
      rw [hfind] at hrun
      obtain ⟨found, -, rfl⟩ := hgives.holds hfind
      -- a reading presents bytes, an integer or a text, and no reference
      cases reading <;> cases hrun
  | reserve | shrink | truncate | clear | begin | abandon | add | overwrite =>
    exact (hother (fun _ => by simp) hrun).elim

/-! ## Every reachable arena -/

/-- Every reachable arena is within its buffer, whatever has failed or was stopped before. Additions
write where room was made for them, readings and overwriting touch what is in use, and references
name what comes behind the reserved bytes. -/
theorem Reachable.in_bounds (h : arena.Reachable) (environment : Environment) (machine : Machine) :
    arena.Bounded ∧
      (∀ content machine' later, add content environment (machine, arena) = (.ok (), machine', later) →
        ∃ room, makeRoom content.length environment (machine, arena) = (.ok (), machine', room) ∧
          room.Bounded ∧ room.length + content.length ≤ room.region.memory.length ∧
          later.region.memory = room.region.memory.write room.length content) ∧
      (∀ (reading : Reading) reference answer, reading.find arena reference = .ok answer →
        ∃ found, arena.Borrows reference found ∧ answer = reading.present found) ∧
      (∀ reference content later, overwrite reference content environment (machine, arena) =
        (.ok (), machine, later) → firstOffset ≤ reference.offset ∧
          reference.offset + content.length ≤ arena.length ∧
          later.region.memory = arena.region.memory.write reference.offset content) ∧
      ∀ (operation : Operation) reference, (operation.run environment (machine, arena)).1 =
        .ok (.reference reference) → firstOffset ≤ reference.offset := by
  refine ⟨h.rounded.bounded h.wellFormed, ?_, ?_, ?_, fun _ _ => h.reference_reserved⟩
  · intro content machine' later hrun
    obtain ⟨room, hroom, rfl, -, hfits⟩ := add_ok h.wellFormed hrun
    obtain ⟨result, middle, after, hrun', hformed, -⟩ :=
      h.wellFormed.makeRoom content.length environment machine
    -- the run that made room is the one that left the arena well formed
    obtain ⟨-, hstate⟩ := Prod.mk.inj (hroom.symm.trans hrun')
    obtain ⟨-, rfl⟩ := Prod.mk.inj hstate
    have hrounded := h.rounded.makeRoom content.length environment machine
    rw [hroom] at hrounded
    exact ⟨room, hroom, hrounded.bounded hformed, hformed.whole ▸ hfits, rfl⟩
  · intro reading reference answer hfind
    exact (reading.gives_find arena reference).holds hfind
  · intro reference content later hrun
    rcases overwrite_cases reference content environment machine arena with
      ⟨hreadable, hok⟩ | ⟨fault, -, herror⟩
    · obtain ⟨-, hstate⟩ := Prod.mk.inj (hrun.symm.trans hok)
      obtain ⟨-, rfl⟩ := Prod.mk.inj hstate
      obtain ⟨hreserved, hinside⟩ := inside_of_checkReadable hreadable
      exact ⟨hreserved, hinside, rfl⟩
    · cases hrun.symm.trans herror

end PagedAlloc.Arena

namespace PagedAlloc.Arena

open Procedure

attribute [local instance] Size.Paging.common

/-- A build that failed for lack of room, and a push that was stopped because of it. -/
theorem in_bounds_of_failed_build :
    let made : Arena :=
      ⟨⟨65536, 64, (Memory.zeroed 64).fill 0 16 (Run.constant 0)⟩, 16, .fixedHeap, .off, none⟩
    let building := (made.after .ordinary .fresh .begin).after .ordinary .fresh (.add (.bytes [1, 2, 3]))
    let failed := (building.after .ordinary .fresh (.add (.zeroes 100))).after .ordinary .fresh
      (.push (.bytes [4]))
    failed.Bounded ∧ failed.length = 19 ∧ failed.build = some ⟨16, some (.cannotGrow 64 128)⟩ := by
  have hmade := Reachable.start .ordinary .fresh _ 64 .fixedHeap .off _ rfl
  have hbegun := hmade.step .ordinary .fresh .begin
  have hbuilding := hbegun.step .ordinary .fresh (.add (.bytes [1, 2, 3]))
  have hfailed := (hbuilding.step .ordinary .fresh (.add (.zeroes 100))).step .ordinary .fresh
    (.push (.bytes [4]))
  exact ⟨(hfailed.in_bounds .ordinary .fresh).1, by decide +kernel, by decide +kernel⟩

end PagedAlloc.Arena
