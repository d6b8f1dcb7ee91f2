import PagedAlloc.Arena.Read
import PagedAlloc.Proofs.ArenaState

/-!
# Runs of an arena

Every public operation of an arena, with what it answers, and the arenas that any operations in any
order lead to, whatever the machine does meanwhile. All of them are well formed
(`Arena.Reachable.wellFormed`).
-/

namespace PagedAlloc.Arena

variable {paging : Size.Paging}

open Procedure

/-- What may be added to a build. -/
inductive Addition where
  | bytes (values : List UInt8)
  | zeroes (count : Nat)
  | align (alignment : Nat)
  | integer (type : IntegerType) (value : Int)
  | pointer (address : Nat)
  | terminated (value : String)
  | prefixed (content : Stretch Empty)
  | text (value : String)

/-- How an addition is made. -/
def Addition.run [Size.Paging] : Addition → Procedure (Machine × Arena) Unit
  | bytes values => addBytes values
  | zeroes count => addZeroes count
  | align alignment => addAlign alignment
  | integer type value => addInteger type value
  | pointer address => addPointer address
  | terminated value => addTerminated value
  | prefixed content => addPrefixed content
  | text value => addText value

/-- What an operation answers. -/
inductive Answer where
  | done
  | reference (reference : Reference)
  | bytes (found : Stretch Empty)
  | integer (value : Int)
  | terminated (found : Option (List UInt8))
  | text (found : Option String)
  deriving DecidableEq

/-- What may be read through a reference. -/
inductive Reading where
  | bytes (count : Nat)
  | integer (type : IntegerType)
  | terminated
  | prefixed
  | text

/-- What is found at a reference. -/
def Reading.find (arena : Arena) (reference : Reference) : Reading → Except Fault Answer
  | bytes count => (arena.read reference count).map .bytes
  | integer type => (arena.readInteger reference type).map .integer
  | terminated => (arena.readTerminated reference).map .terminated
  | prefixed => (arena.readPrefixed reference).map .bytes
  | text => (arena.readText reference).map .text

/-- The operations of an arena. Overwriting stands for a write into borrowed bytes. -/
inductive Operation where
  | reserve (additional : Nat)
  | shrink
  | truncate (reference : Reference)
  | clear
  | begin
  | commit
  | abandon
  | add (addition : Addition)
  | push (addition : Addition)
  | read (reference : Reference) (reading : Reading)
  | overwrite (reference : Reference) (content : Stretch Empty)

/-- What an operation does. -/
def Operation.run [Size.Paging] : Operation → Procedure (Machine × Arena) Answer
  | reserve additional => (fun _ => .done) <$> Arena.reserve additional
  | shrink => (fun _ => .done) <$> Arena.shrink
  | truncate reference => (fun _ => .done) <$> Arena.truncate reference
  | clear => (fun _ => .done) <$> Arena.clear
  | begin => (fun _ => .done) <$> Arena.begin
  | commit => .reference <$> Arena.commit
  | abandon => (fun _ => .done) <$> Arena.abandon
  | add addition => (fun _ => .done) <$> addition.run
  | push addition => .reference <$> Arena.push addition.run
  | read reference reading => do checked (reading.find (← own) reference)
  | overwrite reference content => (fun _ => .done) <$> Arena.overwrite reference content

/-- The arena that an operation leaves behind. -/
def after [Size.Paging] (arena : Arena) (environment : Environment) (machine : Machine)
    (operation : Operation) : Arena :=
  (operation.run environment (machine, arena)).2.2

/-- The arenas that were made in some way and then went through any operations, each of which may
have succeeded, failed or been stopped. -/
inductive Reachable [Size.Paging] : Arena → Prop where
  | start (environment : Environment) (machine machine' : Machine) (capacity : Nat)
      (strategies : Strategies) (diagnostics : Diagnostics) (arena : Arena)
      (made : create capacity strategies diagnostics environment machine = (.ok arena, machine')) :
      Reachable arena
  | step {arena : Arena} (before : Reachable arena) (environment : Environment) (machine : Machine)
      (operation : Operation) : Reachable (arena.after environment machine operation)

/-- After an operation the arena is well formed, and the bytes in use before and after are the same
as far as both lengths go. -/
structure Stable (before after : Arena) : Prop where
  wellFormed : after.WellFormed
  cells : ∀ offset, offset < before.length → offset < after.length →
    after.region.memory.cell offset = before.region.memory.cell offset

variable {environment : Environment} {machine : Machine} {arena before after : Arena}

/-- What grows keeps the bytes in use. -/
theorem Stable.of_grows {state state' : Machine × Arena} (h : Grows state state')
    (hformed : state.2.WellFormed) : Stable state.2 state'.2 := by
  obtain ⟨hformed', hextends⟩ := h hformed
  exact ⟨hformed', fun offset hlt _ => hextends.cells offset hlt⟩

theorem Stable.refl (h : arena.WellFormed) : Stable arena arena :=
  ⟨h, fun _ _ _ => rfl⟩

/-! ## Additions -/

/-- An addition only extends the arena, whether it succeeds or not. -/
theorem Addition.grows [Size.Paging] (addition : Addition) : Follows Grows addition.run := by
  cases addition with
  | bytes values => exact grows_add _
  | zeroes count => exact grows_add _
  | align alignment => exact grows_addAlign _
  | integer type value => exact grows_add _
  | pointer address => exact grows_add _
  | terminated value => exact grows_add _
  | prefixed content => exact grows_addPrefixed _
  | text value => exact grows_addPrefixed _

/-! ## The end of a build -/

/-- Ending a build keeps the buffer, and the length or the one at which the build began. -/
structure Rewinds (before after : Arena) : Prop where
  region : after.region = before.region
  length : after.length = before.length ∨ ∃ build ∈ before.build, after.length = build.start
  build : after.build = before.build ∧ after.length = before.length ∨ after.build = none

/-- Going back to an earlier length keeps the bytes below it. -/
theorem Rewinds.stable (h : Rewinds before after) (hformed : before.WellFormed) :
    Stable before after := by
  refine ⟨⟨?_, ?_, ?_, ?_⟩, fun offset _ _ => by rw [h.region]⟩
  · exact h.region ▸ hformed.whole
  · rcases h.length with heq | ⟨build, hbuild, heq⟩
    · exact heq ▸ hformed.reserved
    · exact heq ▸ (hformed.started build hbuild).1
  · have hcapacity : after.capacity = before.capacity := congrArg Region.length h.region
    rw [hcapacity]
    rcases h.length with heq | ⟨build, hbuild, heq⟩
    · exact heq ▸ hformed.fits
    · exact heq ▸ Nat.le_trans (hformed.started build hbuild).2 hformed.fits
  · intro build hbuild
    rcases h.build with ⟨hsame, hlength⟩ | hnone
    · rw [hlength]
      exact hformed.started build (hsame ▸ hbuild)
    · rw [hnone] at hbuild
      cases hbuild

theorem Rewinds.refl (arena : Arena) : Rewinds arena arena :=
  ⟨rfl, Or.inl rfl, Or.inl ⟨rfl, rfl⟩⟩

theorem endBuild_none (h : arena.build = none) (call : BuildEnd) :
    endBuild call environment (machine, arena) =
      (.error (.fault (.endWithoutBegin call)), machine, arena) := by
  rw [endBuild, bind_apply_ok _ _ (own_apply ..)]
  simp only [h]
  rfl

theorem endBuild_some {build : Build} (h : arena.build = some build) (call : BuildEnd) :
    endBuild call environment (machine, arena) =
      (.ok build, machine, { arena with build := none }) := by
  rw [endBuild, bind_apply_ok _ _ (own_apply ..)]
  simp only [h]
  rfl

/-- A commit keeps the length or goes back to the start of the build. -/
theorem commit_rewinds (environment : Environment) (machine : Machine) (arena : Arena) :
    Rewinds arena (commit environment (machine, arena)).2.2 := by
  rw [commit]
  cases hbuild : arena.build with
  | none =>
    rw [bind_apply_error _ _ (endBuild_none hbuild _)]
    exact Rewinds.refl arena
  | some build =>
    rw [bind_apply_ok _ _ (endBuild_some hbuild _)]
    cases hfailure : build.failure with
    | some failure => exact ⟨rfl, Or.inr ⟨build, hbuild, rfl⟩, Or.inr rfl⟩
    | none =>
      simp only
      rw [bind_apply_ok _ _ (own_apply ..)]
      cases Size.sub arena.length build.start with
      | error fault => exact ⟨rfl, Or.inl rfl, Or.inr rfl⟩
      | ok count => exact ⟨rfl, Or.inl rfl, Or.inr rfl⟩

/-- An abandoned build leaves the arena as long as it was when the build began. -/
theorem abandon_rewinds (environment : Environment) (machine : Machine) (arena : Arena) :
    Rewinds arena (abandon environment (machine, arena)).2.2 := by
  rw [abandon]
  cases hbuild : arena.build with
  | none =>
    rw [bind_apply_error _ _ (endBuild_none hbuild _)]
    exact Rewinds.refl arena
  | some build =>
    rw [bind_apply_ok _ _ (endBuild_some hbuild _)]
    exact ⟨rfl, Or.inr ⟨build, hbuild, rfl⟩, Or.inr rfl⟩

/-! ## Pushing -/

/-- A build begins unless one is in progress, which is a fault. -/
theorem begin_cases (environment : Environment) (machine : Machine) (arena : Arena) :
    arena.build = none ∧ begin environment (machine, arena) =
        (.ok (), machine, { arena with build := some ⟨arena.length, none⟩ }) ∨
      begin environment (machine, arena) =
        (.error (.fault .beginWithinBuild), machine, arena) := by
  rw [begin, bind_apply_ok _ _ (own_apply ..)]
  by_cases hidle : arena.build = none
  · rw [bind_apply_ok _ _ (ensure_apply _ hidle _ _)]
    exact Or.inl ⟨hidle, rfl⟩
  · exact Or.inr (bind_apply_error _ _ (ensure_apply_not _ hidle _ _))

/-- A build may begin at the present length. -/
theorem WellFormed.begun (h : arena.WellFormed) :
    Stable arena { arena with build := some ⟨arena.length, none⟩ } := by
  refine ⟨⟨h.whole, h.reserved, h.fits, ?_⟩, fun _ _ _ => rfl⟩
  rintro build ⟨⟩
  exact ⟨h.reserved, Nat.le_refl _⟩

theorem WellFormed.begin (h : arena.WellFormed) (environment : Environment) (machine : Machine) :
    Stable arena (Arena.begin environment (machine, arena)).2.2 := by
  rcases begin_cases environment machine arena with ⟨-, hrun⟩ | hrun
  · rw [hrun]
    exact h.begun
  · rw [hrun]
    exact Stable.refl h

/-- A push extends the arena by what it adds, or goes back to where it began. -/
theorem WellFormed.push (h : arena.WellFormed) {addition : Procedure (Machine × Arena) Unit}
    (hgrows : Follows Grows addition) (environment : Environment) (machine : Machine) :
    Stable arena (Arena.push addition environment (machine, arena)).2.2 := by
  rw [Arena.push]
  rcases begin_cases environment machine arena with ⟨-, hbegin⟩ | hbegin
  · have hadded := hgrows.holds environment
      (machine, { arena with build := some ⟨arena.length, none⟩ }) h.begun.wellFormed
    rw [bind_apply_ok _ _ hbegin]
    generalize hrun : addition environment (machine, _) = outcome at hadded
    obtain ⟨result, machine', middle⟩ := outcome
    obtain ⟨hformed, hextends⟩ := hadded
    -- whatever ends the build keeps the buffer, which still has the bytes that were in use before
    have hended : ∀ after, Rewinds middle after → Stable arena after := by
      intro after hrewinds
      refine ⟨(hrewinds.stable hformed).wellFormed, ?_⟩
      intro offset hlt _
      rw [hrewinds.region]
      exact hextends.cells offset hlt
    cases result with
    | ok =>
      rw [bind_apply_ok _ _ (attempt_ok _ hrun)]
      exact hended _ (commit_rewinds environment machine' middle)
    | error reason =>
      cases reason with
      | fault fault =>
        rw [bind_apply_error _ _ (attempt_fault _ hrun)]
        exact hended _ (Rewinds.refl middle)
      | failure failure =>
        have habandon := abandon_rewinds environment machine' middle
        rw [bind_apply_ok _ _ (attempt_failure _ hrun)]
        simp only [bind_apply]
        split <;> rename_i hend <;> rw [hend] at habandon <;> exact hended _ habandon
  · rw [bind_apply_error _ _ hbegin]
    exact Stable.refl h

/-! ## Other operations -/

theorem ensureIdle_idle (idle : arena.build = none) (call : IdleCall) :
    ensureIdle call environment (machine, arena) = (.ok (), machine, arena) := by
  rw [ensureIdle, bind_apply_ok _ _ (own_apply ..), ensure_apply _ idle]

theorem ensureIdle_busy (busy : ¬ arena.build = none) (call : IdleCall) :
    ensureIdle call environment (machine, arena) =
      (.error (.fault (.busy call)), machine, arena) := by
  rw [ensureIdle, bind_apply_ok _ _ (own_apply ..), ensure_apply_not _ busy]

/-- A call that needs an idle arena stops during a build, and else goes on. -/
theorem ensureIdle_cases (call : IdleCall) (environment : Environment) (machine : Machine)
    (arena : Arena) :
    arena.build = none ∧
        ensureIdle call environment (machine, arena) = (.ok (), machine, arena) ∨
      ensureIdle call environment (machine, arena) =
        (.error (.fault (.busy call)), machine, arena) := by
  by_cases hidle : arena.build = none
  · exact Or.inl ⟨hidle, ensureIdle_idle hidle call⟩
  · exact Or.inr (ensureIdle_busy hidle call)

/-- An idle arena may get any length that its buffer holds. -/
theorem WellFormed.cut (h : arena.WellFormed) (hidle : arena.build = none) {length : Nat}
    (hreserved : firstOffset ≤ length) (hle : length ≤ arena.length) :
    Stable arena { arena with length := length } := by
  refine ⟨⟨h.whole, hreserved, Nat.le_trans hle h.fits, ?_⟩, fun _ _ _ => rfl⟩
  intro build hbuild
  rw [show ({ arena with length := length } : Arena).build = none from hidle] at hbuild
  cases hbuild

/-- Cutting an arena keeps the bytes below the cut. -/
theorem WellFormed.truncate (h : arena.WellFormed) (reference : Reference)
    (environment : Environment) (machine : Machine) :
    Stable arena (Arena.truncate reference environment (machine, arena)).2.2 := by
  rw [Arena.truncate]
  rcases ensureIdle_cases .truncate environment machine arena with ⟨hidle, hrun⟩ | hrun
  · rw [bind_apply_ok _ _ hrun, bind_apply_ok _ _ (own_apply ..)]
    by_cases hinside : firstOffset ≤ reference.offset ∧ reference.offset ≤ arena.length
    · rw [bind_apply_ok _ _ (ensure_apply _ hinside _ _)]
      exact h.cut hidle hinside.1 hinside.2
    · rw [bind_apply_error _ _ (ensure_apply_not _ hinside _ _)]
      exact Stable.refl h
  · rw [bind_apply_error _ _ hrun]
    exact Stable.refl h

theorem WellFormed.clear (h : arena.WellFormed) (environment : Environment) (machine : Machine) :
    Stable arena (Arena.clear environment (machine, arena)).2.2 := by
  rw [Arena.clear]
  rcases ensureIdle_cases .clear environment machine arena with ⟨hidle, hrun⟩ | hrun
  · rw [bind_apply_ok _ _ hrun]
    exact h.cut hidle (Nat.le_refl _) h.reserved
  · rw [bind_apply_error _ _ hrun]
    exact Stable.refl h

theorem WellFormed.reserve (h : arena.WellFormed) (additional : Nat) (environment : Environment)
    (machine : Machine) :
    Stable arena (Arena.reserve additional environment (machine, arena)).2.2 := by
  rw [Arena.reserve]
  rcases ensureIdle_cases .reserve environment machine arena with ⟨-, hrun⟩ | hrun
  · obtain ⟨result, machine', after, hroom, hformed, hextends, -⟩ :=
      h.makeRoom additional environment machine
    rw [bind_apply_ok _ _ hrun, hroom]
    exact ⟨hformed, fun offset hlt _ => hextends.cells offset hlt⟩
  · rw [bind_apply_error _ _ hrun]
    exact Stable.refl h

/-- A buffer that is given back in part keeps the bytes in use. -/
theorem WellFormed.shrink (h : arena.WellFormed) (environment : Environment) (machine : Machine) :
    Stable arena (Arena.shrink environment (machine, arena)).2.2 := by
  rw [Arena.shrink]
  rcases ensureIdle_cases .shrink environment machine arena with ⟨-, hrun⟩ | hrun
  · rw [bind_apply_ok _ _ hrun, bind_apply_ok _ _ (own_apply ..)]
    cases htarget : Size.roundUp arena.length alignment with
    | error fault =>
      rw [bind_apply_error _ _ (checked_error ..)]
      exact Stable.refl h
    | ok target =>
      have hle := Size.le_of_roundUp_eq_ok (by decide) htarget
      have hrequest : Yields (Region.resize arena.strategies.resizing arena.region arena.capacity
          target alignment arena.diagnostics) _ := Region.yields_resize _ h.whole rfl ..
      obtain ⟨result, machine', after, hadopt, hformed, hextends, -⟩ :=
        h.adopt hle hrequest environment machine
      rw [bind_apply_ok _ _ (checked_ok ..)]
      simp only
      split
      · rw [hadopt]
        exact ⟨hformed, fun offset hlt _ => hextends.cells offset hlt⟩
      · exact Stable.refl h
  · rw [bind_apply_error _ _ hrun]
    exact Stable.refl h

/-- Overwriting readable bytes changes these bytes and nothing else. -/
theorem WellFormed.overwrite (h : arena.WellFormed) (reference : Reference)
    (content : Stretch Empty) (environment : Environment) (machine : Machine) :
    let after := (Arena.overwrite reference content environment (machine, arena)).2.2
    after.WellFormed ∧ after.length = arena.length ∧ after.capacity = arena.capacity ∧
      ∀ offset, offset < arena.capacity →
        (offset < reference.offset ∨ reference.offset + content.length ≤ offset) →
          after.region.memory.cell offset = arena.region.memory.cell offset := by
  rw [Arena.overwrite, bind_apply_ok _ _ (own_apply ..)]
  cases hreadable : arena.checkReadable reference content.length with
  | error fault =>
    rw [bind_apply_error _ _ (checked_error ..)]
    exact ⟨h, rfl, rfl, fun _ _ _ => rfl⟩
  | ok =>
    rw [bind_apply_ok _ _ (checked_ok ..)]
    refine ⟨⟨(Memory.length_write ..).trans h.whole, h.reserved, h.fits, h.started⟩, rfl, rfl, ?_⟩
    intro offset hlt hother
    have hinside : offset < arena.region.memory.length :=
      Nat.lt_of_lt_of_le hlt (Nat.le_of_eq h.whole.symm)
    exact Memory.cell_write_of_disjoint hinside hother

/-! ## Runs -/

/-- Every operation but overwriting leaves the bytes in use where and as they were. -/
theorem WellFormed.stable [Size.Paging] (h : arena.WellFormed) (environment : Environment)
    (machine : Machine) {operation : Operation}
    (hother : ∀ reference content, operation ≠ .overwrite reference content) :
    Stable arena (arena.after environment machine operation) := by
  cases operation with
  | overwrite reference content => exact absurd rfl (hother reference content)
  | read reference reading =>
    -- reading looks at the arena only
    have hsame : arena.after environment machine (.read reference reading) = arena := by
      rw [after, Operation.run, bind_apply_ok _ _ (own_apply ..)]
      cases reading.find arena reference <;> rfl
    exact hsame.symm ▸ Stable.refl h
  | add addition =>
    rw [after, Operation.run, map_state]
    exact Stable.of_grows (addition.grows.holds environment (machine, arena)) h
  | push addition =>
    rw [after, Operation.run, map_state]
    exact h.push addition.grows environment machine
  | reserve additional =>
    rw [after, Operation.run, map_state]
    exact h.reserve additional environment machine
  | truncate reference =>
    rw [after, Operation.run, map_state]
    exact h.truncate reference environment machine
  | shrink =>
    rw [after, Operation.run, map_state]
    exact h.shrink environment machine
  | clear =>
    rw [after, Operation.run, map_state]
    exact h.clear environment machine
  | begin =>
    rw [after, Operation.run, map_state]
    exact h.begin environment machine
  | commit =>
    rw [after, Operation.run, map_state]
    -- ending a build goes back no further than to where it began
    exact (commit_rewinds environment machine arena).stable h
  | abandon =>
    rw [after, Operation.run, map_state]
    exact (abandon_rewinds environment machine arena).stable h

/-- An arena that was made is well formed. -/
theorem yields_create (capacity : Nat) (strategies : Strategies) (diagnostics : Diagnostics) :
    Yields (create capacity strategies diagnostics) WellFormed := by
  refine Yields.of_next fun _ => Yields.bind (Yields.orFail ..) fun size hsize =>
    Yields.bind (Region.yields_allocate ..) fun region hregion => Yields.of_next fun _ =>
      Yields.pure ⟨?_, Nat.le_refl _, ?_, by simp⟩
  · exact (Memory.length_fill ..).trans hregion.1
  · have hle := Size.le_of_roundUp?_eq_some (by decide) hsize
    exact Nat.le_trans (Nat.le_trans (Nat.le_max_right ..) hle) hregion.2

/-- All arenas are well formed. -/
theorem Reachable.wellFormed (h : arena.Reachable) : arena.WellFormed := by
  induction h with
  | start environment machine machine' capacity strategies diagnostics arena made =>
    exact (yields_create capacity strategies diagnostics).holds made
  | step before environment machine operation ih =>
    by_cases hover : ∃ reference content, operation = .overwrite reference content
    · obtain ⟨reference, content, rfl⟩ := hover
      rw [after, Operation.run, map_state]
      exact (ih.overwrite reference content environment machine).1
    · refine (ih.stable environment machine ?_).wellFormed
      intro reference content heq
      exact hover ⟨reference, content, heq⟩

/-- In every reachable arena, whatever an operation other than overwriting does and whatever comes
of it, the bytes below both lengths are the same before and after it. Overwriting changes no byte of
the buffer but those that it names. -/
theorem Reachable.bytes_stable (h : arena.Reachable) (environment : Environment)
    (machine : Machine) :
    (∀ operation : Operation, (∀ reference content, operation ≠ .overwrite reference content) →
      ∀ offset, firstOffset ≤ offset →
        offset < min arena.length (arena.after environment machine operation).length →
          (arena.after environment machine operation).region.memory.cell offset =
            arena.region.memory.cell offset) ∧
    ∀ reference content offset, offset < arena.capacity →
      (offset < reference.offset ∨ reference.offset + content.length ≤ offset) →
        (arena.after environment machine (.overwrite reference content)).region.memory.cell offset =
          arena.region.memory.cell offset := by
  refine ⟨?_, ?_⟩
  · intro operation hother offset _ hlt
    have hstable := h.wellFormed.stable environment machine hother
    exact hstable.cells offset (by omega) (by omega)
  · intro reference content offset hlt hother
    obtain ⟨-, -, -, hcells⟩ := h.wellFormed.overwrite reference content environment machine
    rw [after, Operation.run, map_state]
    exact hcells offset hlt hother

end PagedAlloc.Arena

namespace PagedAlloc.Arena

open Procedure

attribute [local instance] Size.Paging.common

theorem bytes_stable_growing_push :
    let arena : Arena :=
      ⟨⟨65536, 16, ⟨16, .leaf (Run.constant 0)⟩⟩, 16, .heap, ⟨true, true⟩, none⟩
    let pushed := arena.after .ordinary .fresh (.push (.bytes [7, 8, 9]))
    let grown := pushed.after .ordinary .fresh (.push (.zeroes 100))
    pushed.length = 19 ∧ grown.length = 119 ∧ ∀ offset, firstOffset ≤ offset →
      offset < min pushed.length grown.length →
        grown.region.memory.cell offset = pushed.region.memory.cell offset := by
  have hcreated := Reachable.start .ordinary .fresh _ 16 .heap ⟨true, true⟩ _ rfl
  have hpushed := hcreated.step .ordinary .fresh (.push (.bytes [7, 8, 9]))
  exact ⟨by decide +kernel, by decide +kernel,
    (hpushed.bytes_stable .ordinary .fresh).1 (.push (.zeroes 100)) fun _ _ => by simp⟩

end PagedAlloc.Arena
