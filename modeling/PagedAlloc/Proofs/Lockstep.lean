import PagedAlloc.Proofs.ArenaRequests

/-!
# Arenas in lockstep

When two arenas have the same length, capacity and build and hold the same bytes in use
(`Arena.Peers`), their operations can only come apart where they ask for another buffer. So let a
relation of such arenas be kept by whatever is done without another buffer, and also when room is made
and when an arena is shrunk (`Arena.Lockstep`): then every operation gives the same answer on related
arenas and leaves related ones behind (`Arena.Lockstep.told`), be it in two environments. Peers may
hold the same bytes in differently grouped runs, so answers are compared with their bytes one by one
(`Arena.Answer.plain`).
-/

namespace PagedAlloc.Arena

variable {paging : Size.Paging}

open Procedure

/-- Two arenas have the same in use, as far as it is not before `start`. -/
structure SameContents (start : Nat) (arena arena' : Arena) : Prop where
  length : arena'.length = arena.length
  build : arena'.build = arena.build
  cells : ∀ offset, start ≤ offset → offset < arena.length →
    arena'.region.memory.cell offset = arena.region.memory.cell offset

/-- Two arenas look the same to whoever reads no byte before `start` or beyond the end. -/
structure Peers (start : Nat) (arena arena' : Arena) : Prop where
  wellFormed : arena.WellFormed
  whole : arena'.region.Whole
  length : arena'.length = arena.length
  capacity : arena'.capacity = arena.capacity
  build : arena'.build = arena.build
  cells : ∀ offset, start ≤ offset → offset < arena.length →
    arena'.region.memory.cell offset = arena.region.memory.cell offset

/-- An arena still has its buffer, and its settings. -/
structure SameBuffer (before after : Arena) : Prop where
  address : after.region.address = before.region.address
  capacity : after.capacity = before.capacity
  strategies : after.strategies = before.strategies
  diagnostics : after.diagnostics = before.diagnostics

/-- Two runs have the same result and leave related states behind. -/
structure Concur {α : Type} (relation : Machine × Arena → Machine × Arena → Prop)
    (run run' : Except Stop α × Machine × Arena) : Prop where
  result : run'.1 = run.1
  related : relation run.2 run'.2

/-- Related states are peers. They are still related after anything that logs the same, keeps the
buffers and leaves peers, and after the two requests for another buffer. -/
structure Lockstep [Size.Paging] (start : Nat) (environment environment' : Environment)
    (relation : Machine × Arena → Machine × Arena → Prop) : Prop where
  reserved : start ≤ firstOffset
  peers : ∀ {state state' : Machine × Arena}, relation state state' → Peers start state.2 state'.2
  keeps : ∀ {machine machine' : Machine} {arena arena' after after' : Arena} (events : List Event),
    relation (machine, arena) (machine', arena') → SameBuffer arena after →
      SameBuffer arena' after' → Peers start after after' →
        relation ({ machine with log := events ++ machine.log }, after)
          ({ machine' with log := events ++ machine'.log }, after')
  makeRoom : ∀ {state state' : Machine × Arena} (additional : Nat), relation state state' →
    Concur relation (makeRoom additional environment state)
      (makeRoom additional environment' state')
  shrink : ∀ {state state' : Machine × Arena}, relation state state' →
    Concur relation (shrink environment state) (shrink environment' state')

variable {start : Nat} {environment environment' : Environment}
  {relation : Machine × Arena → Machine × Arena → Prop} {machine machine' : Machine}
  {arena arena' : Arena} {state state' : Machine × Arena} {α β : Type}

/-! ## The same buffer -/

theorem SameBuffer.refl (arena : Arena) : SameBuffer arena arena := ⟨rfl, rfl, rfl, rfl⟩

/-- The buffer stays the same through two steps. -/
theorem SameBuffer.trans {before middle after : Arena} (h : SameBuffer before middle)
    (h' : SameBuffer middle after) : SameBuffer before after where
  address := h'.address.trans h.address
  capacity := h'.capacity.trans h.capacity
  strategies := h'.strategies.trans h.strategies
  diagnostics := h'.diagnostics.trans h.diagnostics

/-! ## Peers -/

/-- Peers hold the same bytes. -/
theorem Peers.contents (h : Peers start arena arena') : SameContents start arena arena' :=
  ⟨h.length, h.build, h.cells⟩

/-- Peers stay peers when their lengths go back and their builds change in the same way. -/
theorem Peers.mark (h : Peers start arena arena') {length length' : Nat}
    {build build' : Option Build} (sameLength : length' = length) (sameBuild : build' = build)
    (reserved : firstOffset ≤ length) (hle : length ≤ arena.length)
    (started : ∀ begun ∈ build, firstOffset ≤ begun.start ∧ begun.start ≤ length) :
    Peers start { arena with length := length, build := build }
      { arena' with length := length', build := build' } where
  wellFormed := ⟨h.wellFormed.whole, reserved, Nat.le_trans hle h.wellFormed.fits, started⟩
  whole := h.whole
  length := sameLength
  capacity := h.capacity
  build := sameBuild
  cells offset hstart hlt := h.cells offset hstart (Nat.lt_of_lt_of_le hlt hle)

/-- Peers stay peers when the same cells are written to them, not beyond the room that they have. -/
theorem Peers.write (h : Peers start arena arena') {content : Stretch Empty}
    {place length length' : Nat} (sameLength : length' = length) (hplace : place ≤ arena.length)
    (hgrown : arena.length ≤ length)
    (hcovered : length ≤ max arena.length (place + content.length))
    (hroom : length ≤ arena.capacity) :
    Peers start
      { arena with
        region := { arena.region with memory := arena.region.memory.write place content }
        length := length }
      { arena' with
        region := { arena'.region with memory := arena'.region.memory.write place content }
        length := length' } where
  wellFormed := by
    refine ⟨(Memory.length_write ..).trans h.wellFormed.whole,
      Nat.le_trans h.wellFormed.reserved hgrown, hroom, fun build hbuild => ?_⟩
    obtain ⟨hreserved, hle⟩ := h.wellFormed.started build hbuild
    exact ⟨hreserved, Nat.le_trans hle hgrown⟩
  whole := (Memory.length_write ..).trans h.whole
  length := sameLength
  capacity := h.capacity
  build := h.build
  cells offset hstart hlt := by
    have hlt : offset < length := hlt
    have hwhole : arena.region.memory.length = arena.capacity := h.wellFormed.whole
    have hwhole' : arena'.region.memory.length = arena.capacity := h.whole.trans h.capacity
    show (arena'.region.memory.write place content).cell offset =
      (arena.region.memory.write place content).cell offset
    rw [Memory.cell_write _ _ _ (by omega), Memory.cell_write _ _ _ (by omega)]
    by_cases hold : offset < arena.length
    · rw [h.cells offset hstart hold]
    · -- what was not in use before is covered by the cells that are written
      rw [if_pos (by omega), if_pos (by omega),
        List.getElem?_eq_getElem (by rw [Stretch.length_cells]; omega)]
      rfl

/-! ## Steps of related states -/

/-- What is done one after the other concurs if each part does. -/
theorem Concur.bind {procedure procedure' : Procedure (Machine × Arena) α}
    {next next' : α → Procedure (Machine × Arena) β}
    (h : Concur relation (procedure environment state) (procedure' environment' state'))
    (hnext : ∀ value after after', relation after after' →
      Concur relation (next value environment after) (next' value environment' after')) :
    Concur relation ((procedure >>= next) environment state)
      ((procedure' >>= next') environment' state') := by
  rw [bind_apply, bind_apply]
  generalize procedure environment state = run at h
  generalize procedure' environment' state' = run' at h
  obtain ⟨result, after⟩ := run
  obtain ⟨result', after'⟩ := run'
  obtain ⟨rfl, hrelated⟩ := h
  cases result' with
  | error reason => exact ⟨rfl, hrelated⟩
  | ok value => exact hnext value after after' hrelated

/-- Failures that are caught are the same on both sides. -/
theorem Concur.attempt {procedure procedure' : Procedure (Machine × Arena) α}
    (h : Concur relation (procedure environment state) (procedure' environment' state')) :
    Concur relation (attempt procedure environment state)
      (attempt procedure' environment' state') := by
  rw [Procedure.attempt, Procedure.attempt]
  generalize procedure environment state = run at h
  generalize procedure' environment' state' = run' at h
  obtain ⟨result, after⟩ := run
  obtain ⟨result', after'⟩ := run'
  obtain ⟨rfl, hrelated⟩ := h
  cases result' with
  | ok value => exact ⟨rfl, hrelated⟩
  | error reason => cases reason <;> exact ⟨rfl, hrelated⟩

theorem Concur.map {procedure procedure' : Procedure (Machine × Arena) α} (answer : α → β)
    (h : Concur relation (procedure environment state) (procedure' environment' state')) :
    Concur relation ((answer <$> procedure) environment state)
      ((answer <$> procedure') environment' state') := by
  rw [map_apply _ answer rfl, map_apply _ answer rfl]
  exact ⟨congrArg (Except.map answer) h.result, h.related⟩

theorem concur_ensure (h : relation state state') (condition : Prop) [Decidable condition]
    (fault : Fault) :
    Concur relation (ensure condition fault environment state)
      (ensure condition fault environment' state') := by
  by_cases hholds : condition
  · rw [ensure_apply _ hholds, ensure_apply _ hholds]
    exact ⟨rfl, h⟩
  · rw [ensure_apply_not _ hholds, ensure_apply_not _ hholds]
    exact ⟨rfl, h⟩

theorem concur_checked (h : relation state state') (result : Except Fault α) :
    Concur relation (checked result environment state)
      (checked result environment' state') := by
  cases result <;> exact ⟨rfl, h⟩

/-- Both are idle, or both are stopped. -/
theorem concur_whenIdle (h : relation (machine, arena) (machine', arena'))
    (sameBuild : arena'.build = arena.build) (call : IdleCall)
    {next next' : Unit → Procedure (Machine × Arena) α}
    (hnext : arena.build = none → Concur relation (next () environment (machine, arena))
      (next' () environment' (machine', arena'))) :
    Concur relation ((ensureIdle call >>= next) environment (machine, arena))
      ((ensureIdle call >>= next') environment' (machine', arena')) := by
  by_cases hidle : arena.build = none
  · rw [bind_apply_ok _ _ (ensureIdle_idle hidle _),
      bind_apply_ok _ _ (ensureIdle_idle (sameBuild.trans hidle) _)]
    exact hnext hidle
  · rw [bind_apply_error _ _ (ensureIdle_busy hidle _),
      bind_apply_error _ _ (ensureIdle_busy (sameBuild ▸ hidle) _)]
    exact ⟨rfl, h⟩

/-- Both are resized to the same length when they are shrunk, or neither is. -/
theorem concur_shrink (h : relation (machine, arena) (machine', arena'))
    (sameBuild : arena'.build = arena.build) (sameLength : arena'.length = arena.length)
    (sameCapacity : arena'.capacity = arena.capacity)
    (sameStrategies : arena'.strategies = arena.strategies)
    (hresize : ∀ target, Size.roundUp arena.length alignment = .ok target →
      arena.strategies.mayMove = true →
      Concur relation
        (adopt (Region.resize arena.strategies.resizing arena.region arena.capacity target alignment
          arena.diagnostics) environment (machine, arena))
        (adopt (Region.resize arena'.strategies.resizing arena'.region arena'.capacity target
          alignment arena'.diagnostics) environment' (machine', arena'))) :
    Concur relation (shrink environment (machine, arena))
      (Arena.shrink environment' (machine', arena')) := by
  refine concur_whenIdle h sameBuild _ fun _ => ?_
  rw [bind_apply_ok _ _ (own_apply ..), bind_apply_ok _ _ (own_apply ..)]
  simp only [sameLength]
  cases htarget : Size.roundUp arena.length alignment with
  | error fault => exact ⟨rfl, h⟩
  | ok target =>
    rw [bind_apply_ok _ _ (checked_ok ..), bind_apply_ok _ _ (checked_ok ..)]
    by_cases hgives : target < arena.capacity ∧ arena.strategies.mayMove
    · have hgives' : target < arena'.capacity ∧ arena'.strategies.mayMove := by
        rwa [sameCapacity, sameStrategies]
      rw [if_pos hgives, if_pos hgives']
      exact hresize target htarget hgives.2
    · have hkeeps : ¬ (target < arena'.capacity ∧ arena'.strategies.mayMove) := by
        rwa [sameCapacity, sameStrategies]
      rw [if_neg hgives, if_neg hkeeps]
      exact ⟨rfl, h⟩

namespace Lockstep

variable (lockstep : Lockstep start environment environment' relation)
include lockstep

/-- Related states stay related when their lengths go back and their builds change in the same
way. -/
theorem mark (h : relation (machine, arena) (machine', arena')) (events : List Event)
    {length length' : Nat} {build build' : Option Build} (sameLength : length' = length)
    (sameBuild : build' = build) (reserved : firstOffset ≤ length) (hle : length ≤ arena.length)
    (started : ∀ begun ∈ build, firstOffset ≤ begun.start ∧ begun.start ≤ length) :
    relation
      ({ machine with log := events ++ machine.log },
        { arena with length := length, build := build })
      ({ machine' with log := events ++ machine'.log },
        { arena' with length := length', build := build' }) :=
  lockstep.keeps events h ⟨rfl, rfl, rfl, rfl⟩ ⟨rfl, rfl, rfl, rfl⟩
    ((lockstep.peers h).mark sameLength sameBuild reserved hle started)

/-! ## Building -/

/-- A failure is noted on both sides. -/
theorem refuse (h : relation state state') (failure : Failure) :
    Concur relation (refuse failure environment state)
      (Arena.refuse failure environment' state') := by
  have hpeers := lockstep.peers h
  have hformed := ((grows_refuse failure).holds environment state hpeers.wellFormed).1
  exact ⟨rfl, lockstep.mark h [.addFailed failure] hpeers.length (congrArg _ hpeers.build)
    hpeers.wellFormed.reserved (Nat.le_refl _) hformed.started⟩

/-- An addition is told the same on both sides. -/
theorem add (h : relation state state') (content : Stretch Empty) :
    Concur relation (add content environment state) (Arena.add content environment' state') := by
  obtain ⟨machine, arena⟩ := state
  obtain ⟨machine', arena'⟩ := state'
  have hbuild : arena'.build = arena.build := (lockstep.peers h).build
  rw [Arena.add, bind_apply_ok _ _ (own_apply ..), bind_apply_ok _ _ (own_apply ..)]
  simp only [hbuild]
  cases arena.build with
  | none => exact ⟨rfl, h⟩
  | some build =>
    simp only
    cases build.failure with
    | some failure => exact ⟨rfl, h⟩
    | none =>
      have hformed : arena.WellFormed := (lockstep.peers h).wellFormed
      have hmade := lockstep.makeRoom content.length h
      obtain ⟨result, after, grown, hrun, -, -, hsame, hroom⟩ :=
        hformed.makeRoom content.length environment machine
      cases hrun' : Arena.makeRoom content.length environment' (machine', arena') with
      | mk result' state' =>
        obtain ⟨after', grown'⟩ := state'
        rw [hrun, hrun'] at hmade
        obtain rfl : result' = result := hmade.result
        have hrelated : relation (after, grown) (after', grown') := hmade.related
        simp only
        cases result' with
        | error reason =>
          cases reason with
          | fault fault =>
            rw [bind_apply_error _ _ (attempt_fault _ hrun),
              bind_apply_error _ _ (attempt_fault _ hrun')]
            exact ⟨rfl, hrelated⟩
          | failure failure =>
            rw [bind_apply_ok _ _ (attempt_failure _ hrun),
              bind_apply_ok _ _ (attempt_failure _ hrun')]
            exact lockstep.refuse hrelated failure
        | ok =>
          rw [bind_apply_ok _ _ (attempt_ok _ hrun), bind_apply_ok _ _ (attempt_ok _ hrun')]
          -- the two may have got other buffers, but both have room for all of the content
          have hfits : grown.length + content.length ≤ grown.capacity := hsame ▸ hroom rfl
          have hpeers := lockstep.peers hrelated
          have hgrown : grown'.length = grown.length := hpeers.length
          simp only [modifyOwn_apply, hgrown]
          exact ⟨rfl, lockstep.keeps [] hrelated ⟨rfl, rfl, rfl, rfl⟩ ⟨rfl, rfl, rfl, rfl⟩
            (hpeers.write rfl (Nat.le_refl _) (Nat.le_add_right ..) (Nat.le_max_right ..) hfits)⟩

theorem addAlign (h : relation state state') (align : Nat) :
    Concur relation (addAlign align environment state)
      (Arena.addAlign align environment' state') := by
  refine (concur_ensure h _ _).bind fun _ after after' hrelated => ?_
  rw [bind_apply_ok _ _ (own_apply ..), bind_apply_ok _ _ (own_apply ..),
    (lockstep.peers hrelated).length]
  refine (concur_checked hrelated _).bind fun aligned _ _ hrelated => ?_
  exact (concur_checked hrelated _).bind fun count _ _ hrelated => lockstep.add hrelated _

/-- Content with its length in front is added to both sides alike. -/
theorem addPrefixed (h : relation state state') (content : Stretch Empty) :
    Concur relation (addPrefixed content environment state)
      (Arena.addPrefixed content environment' state') := by
  unfold Arena.addPrefixed
  split
  · exact lockstep.refuse h _
  · exact (lockstep.add h _).bind fun _ _ _ hrelated => lockstep.add hrelated _

/-- The same is added to both. -/
theorem addition (h : relation state state') (addition : Addition) :
    Concur relation (addition.run environment state) (addition.run environment' state') := by
  cases addition with
  | bytes values => exact lockstep.add h _
  | zeroes count => exact lockstep.add h _
  | align alignment => exact lockstep.addAlign h _
  | integer type value => exact lockstep.add h _
  | pointer address => exact lockstep.add h _
  | terminated value => exact lockstep.add h _
  | prefixed content => exact lockstep.addPrefixed h _
  | text value => exact lockstep.addPrefixed h _

theorem begin (h : relation state state') :
    Concur relation (begin environment state) (Arena.begin environment' state') := by
  rw [Arena.begin, bind_apply_ok _ _ (own_apply ..), bind_apply_ok _ _ (own_apply ..),
    (lockstep.peers h).build]
  refine (concur_ensure h _ _).bind fun _ after after' hrelated => ⟨rfl, ?_⟩
  have hpeers := lockstep.peers hrelated
  refine lockstep.mark hrelated [] hpeers.length ?_ hpeers.wellFormed.reserved (Nat.le_refl _)
    hpeers.wellFormed.begun.wellFormed.started
  rw [hpeers.length]

/-- Both have the same build in progress, or none. -/
theorem endBuild (h : relation (machine, arena) (machine', arena')) (call : BuildEnd) :
    (∃ build, Arena.endBuild call environment (machine, arena) =
        (.ok build, machine, { arena with build := none }) ∧
      Arena.endBuild call environment' (machine', arena') =
        (.ok build, machine', { arena' with build := none }) ∧
      firstOffset ≤ build.start ∧ build.start ≤ arena.length) ∨
    ∃ reason, Arena.endBuild call environment (machine, arena) = (.error reason, machine, arena) ∧
      Arena.endBuild call environment' (machine', arena') = (.error reason, machine', arena') := by
  have hsame : arena'.build = arena.build := (lockstep.peers h).build
  cases hbuild : arena.build with
  | none => exact Or.inr ⟨_, endBuild_none hbuild call, endBuild_none (hsame.trans hbuild) call⟩
  | some build =>
    exact Or.inl ⟨build, endBuild_some hbuild call, endBuild_some (hsame.trans hbuild) call,
      (lockstep.peers h).wellFormed.started build hbuild⟩

/-- A build ends on both sides as its failure says. -/
theorem commit (h : relation state state') :
    Concur relation (commit environment state) (Arena.commit environment' state') := by
  obtain ⟨machine, arena⟩ := state
  obtain ⟨machine', arena'⟩ := state'
  have hpeers : Peers start arena arena' := lockstep.peers h
  rw [Arena.commit]
  rcases lockstep.endBuild h .commit with ⟨build, hend, hend', hstart⟩ | ⟨reason, hend, hend'⟩
  · rw [bind_apply_ok _ _ hend, bind_apply_ok _ _ hend']
    cases build.failure with
    | some failure =>
      exact ⟨rfl, lockstep.mark h [.buildRolledBack build.start failure] rfl rfl hstart.1 hstart.2
        (by simp)⟩
    | none =>
      simp only
      rw [bind_apply_ok _ _ (own_apply ..), bind_apply_ok _ _ (own_apply ..)]
      have hidle := lockstep.mark h [] hpeers.length (rfl : (none : Option Build) = none)
        hpeers.wellFormed.reserved (Nat.le_refl _) (by simp)
      have hcount : Size.sub arena'.length build.start = Size.sub arena.length build.start :=
        congrArg (Size.sub · build.start) hpeers.length
      simp only [hcount]
      refine (concur_checked hidle _).bind fun count _ _ hrelated => ?_
      have hpeers := lockstep.peers hrelated
      exact ⟨rfl, lockstep.mark hrelated [.committed count build.start] hpeers.length hpeers.build
        hpeers.wellFormed.reserved (Nat.le_refl _) hpeers.wellFormed.started⟩
  · rw [bind_apply_error _ _ hend, bind_apply_error _ _ hend']
    exact ⟨rfl, h⟩

theorem abandon (h : relation state state') :
    Concur relation (abandon environment state) (Arena.abandon environment' state') := by
  obtain ⟨machine, arena⟩ := state
  obtain ⟨machine', arena'⟩ := state'
  rw [Arena.abandon]
  rcases lockstep.endBuild h .abandon with ⟨build, hend, hend', hstart⟩ | ⟨reason, hend, hend'⟩
  · rw [bind_apply_ok _ _ hend, bind_apply_ok _ _ hend']
    exact ⟨rfl, lockstep.mark h [] rfl rfl hstart.1 hstart.2 (by simp)⟩
  · rw [bind_apply_error _ _ hend, bind_apply_error _ _ hend']
    exact ⟨rfl, h⟩

/-- A push is told the same on both sides. -/
theorem push (h : relation state state') (addition : Addition) :
    Concur relation (push addition.run environment state)
      (Arena.push addition.run environment' state') := by
  refine (lockstep.begin h).bind fun _ _ _ hbegun => ?_
  refine (lockstep.addition hbegun addition).attempt.bind fun outcome _ _ hadded => ?_
  -- the outcome is the same, so both builds are kept or both are discarded
  cases outcome with
  | ok => exact lockstep.commit hadded
  | error failure => exact (lockstep.abandon hadded).bind fun _ _ _ hended => ⟨rfl, hended⟩

/-! ## Other operations -/

theorem truncate (h : relation state state') (reference : Reference) :
    Concur relation (truncate reference environment state)
      (Arena.truncate reference environment' state') := by
  have hpeers := lockstep.peers h
  refine concur_whenIdle h hpeers.build _ fun hidle => ?_
  rw [bind_apply_ok _ _ (own_apply ..), bind_apply_ok _ _ (own_apply ..), hpeers.length]
  by_cases hinside : firstOffset ≤ reference.offset ∧ reference.offset ≤ state.2.length
  · rw [bind_apply_ok _ _ (ensure_apply _ hinside _ _),
      bind_apply_ok _ _ (ensure_apply _ hinside _ _)]
    refine ⟨rfl, lockstep.mark h [.popped (state.2.length - reference.offset)] rfl hpeers.build
      hinside.1 hinside.2 ?_⟩
    rw [hidle]
    simp
  · rw [bind_apply_error _ _ (ensure_apply_not _ hinside _ _),
      bind_apply_error _ _ (ensure_apply_not _ hinside _ _)]
    exact ⟨rfl, h⟩

theorem clear (h : relation state state') :
    Concur relation (clear environment state) (Arena.clear environment' state') := by
  have hpeers := lockstep.peers h
  refine concur_whenIdle h hpeers.build _ fun hidle => ⟨rfl, ?_⟩
  refine lockstep.mark h [] rfl hpeers.build (Nat.le_refl _) hpeers.wellFormed.reserved ?_
  rw [hidle]
  simp

theorem reserve (h : relation state state') (additional : Nat) :
    Concur relation (reserve additional environment state)
      (Arena.reserve additional environment' state') :=
  concur_whenIdle h (lockstep.peers h).build _ fun _ => lockstep.makeRoom additional h

end Lockstep

/-! ## Reading -/

/-- The same ranges are readable. -/
theorem SameContents.checkReadable (h : SameContents start arena arena') (reference : Reference)
    (count : Nat) :
    arena'.checkReadable reference count = arena.checkReadable reference count := by
  have hreadable :
      arena'.Readable reference.offset count ↔ arena.Readable reference.offset count := by
    rw [Readable, Readable, h.length]
  rw [Arena.checkReadable, Arena.checkReadable, isBuilding, isBuilding, h.build, h.length]
  by_cases hholds : arena.Readable reference.offset count
  · rw [if_pos hholds, if_pos (hreadable.2 hholds)]
  · rw [if_neg hholds, if_neg (hholds ∘ hreadable.1)]

theorem readable_of_checkReadable {reference : Reference} {count : Nat}
    (h : arena.checkReadable reference count = .ok ()) :
    arena.Readable reference.offset count := by
  rw [checkReadable] at h
  split at h
  · cases h
  · split at h
    · assumption
    · cases h

/-- The same bytes are overwritten on both sides. -/
theorem Lockstep.overwrite (lockstep : Lockstep start environment environment' relation)
    (h : relation state state') (reference : Reference) (content : Stretch Empty) :
    Concur relation (overwrite reference content environment state)
      (Arena.overwrite reference content environment' state') := by
  obtain ⟨machine, arena⟩ := state
  obtain ⟨machine', arena'⟩ := state'
  have hpeers : Peers start arena arena' := lockstep.peers h
  rw [Arena.overwrite, bind_apply_ok _ _ (own_apply ..), bind_apply_ok _ _ (own_apply ..)]
  simp only [hpeers.contents.checkReadable]
  cases hreadable : arena.checkReadable reference content.length with
  | error fault => exact ⟨rfl, h⟩
  | ok =>
    obtain ⟨-, hlt, hle⟩ := readable_of_checkReadable hreadable
    exact ⟨rfl, lockstep.keeps [] h ⟨rfl, rfl, rfl, rfl⟩ ⟨rfl, rfl, rfl, rfl⟩
      (hpeers.write hpeers.length (Nat.le_of_lt hlt) (Nat.le_refl _) (Nat.le_max_left ..)
        hpeers.wellFormed.fits)⟩

/-- The bytes in use are the same one by one. -/
theorem SameContents.cells_bytes (h : SameContents start arena arena') {offset count : Nat}
    (hstart : start ≤ offset) (hle : offset + count ≤ arena.length) :
    (arena'.cells offset count).bytes = (arena.cells offset count).bytes := by
  rw [Stretch.bytes, Stretch.bytes, Arena.cells, Arena.cells, Memory.cells_read, Memory.cells_read]
  refine congrArg (List.map Cell.toByte) (List.map_congr_left fun index hindex => ?_)
  have hlt := List.mem_range.1 hindex
  exact h.cells (offset + index) (by omega) (by omega)

section Reading

variable (h : SameContents start arena arena') (reserved : start ≤ firstOffset)
  (reference : Reference)
include h reserved

/-- The same bytes are read, in whatever runs they are held. -/
theorem SameContents.read (count : Nat) :
    (arena'.read reference count).map Stretch.bytes =
      (arena.read reference count).map Stretch.bytes := by
  rw [Arena.read, Arena.read, h.checkReadable]
  cases hreadable : arena.checkReadable reference count with
  | error fault => rfl
  | ok =>
    obtain ⟨hfirst, hlt, hle⟩ := readable_of_checkReadable hreadable
    exact congrArg Except.ok (h.cells_bytes (Nat.le_trans reserved hfirst) (by omega))

theorem SameContents.readInteger (type : IntegerType) :
    arena'.readInteger reference type = arena.readInteger reference type := by
  have hdecode : ∀ arena : Arena, arena.readInteger reference type =
      ((arena.read reference type.width).map Stretch.bytes).map type.decode := by
    intro arena
    rw [Arena.readInteger]
    cases arena.read reference type.width <;> rfl
  rw [hdecode, hdecode, h.read reserved]

theorem SameContents.readTerminated :
    arena'.readTerminated reference = arena.readTerminated reference := by
  rw [Arena.readTerminated, Arena.readTerminated, h.checkReadable, h.length]
  cases hreadable : arena.checkReadable reference 0 with
  | error fault => rfl
  | ok =>
    obtain ⟨hfirst, hlt, -⟩ := readable_of_checkReadable hreadable
    exact congrArg (fun bytes => Except.ok (untilZero bytes))
      (h.cells_bytes (Nat.le_trans reserved hfirst) (by omega))

/-- The same bytes are read behind the same length. -/
theorem SameContents.readPrefixed :
    (arena'.readPrefixed reference).map Stretch.bytes =
      (arena.readPrefixed reference).map Stretch.bytes := by
  rw [Arena.readPrefixed, Arena.readPrefixed, h.readInteger reserved]
  cases arena.readInteger reference .lengthPrefix with
  | error fault => rfl
  | ok value =>
    simp only [bind, Except.bind, h.checkReadable]
    cases hreadable : arena.checkReadable reference
        (IntegerType.lengthPrefix.width + value.toNat) with
    | error fault => rfl
    | ok =>
      obtain ⟨hfirst, hlt, hle⟩ := readable_of_checkReadable hreadable
      exact congrArg Except.ok (h.cells_bytes
        (Nat.le_trans reserved (Nat.le_add_right_of_le hfirst)) (by omega))

theorem SameContents.readText : arena'.readText reference = arena.readText reference := by
  have htext : ∀ arena : Arena, arena.readText reference =
      ((arena.readPrefixed reference).map Stretch.bytes).map
        fun bytes => String.fromUTF8? (ByteArray.mk bytes.toArray) := by
    intro arena
    rw [Arena.readText]
    cases arena.readPrefixed reference <;> rfl
  rw [htext, htext, h.readPrefixed reserved]

end Reading

/-- An answer with the bytes that it holds one by one. -/
def Answer.plain : Answer → Answer
  | bytes found => .bytes (Stretch.ofBytes found.bytes)
  | answer => answer

/-- The same is found at every reference. -/
theorem SameContents.find (h : SameContents start arena arena') (reserved : start ≤ firstOffset)
    (reference : Reference) (reading : Reading) :
    (reading.find arena' reference).map Answer.plain =
      (reading.find arena reference).map Answer.plain := by
  have hplain : ∀ found : Except Fault (Stretch Empty), (found.map Answer.bytes).map Answer.plain =
      (found.map Stretch.bytes).map fun bytes => .bytes (Stretch.ofBytes bytes) := by
    intro found
    cases found <;> rfl
  cases reading with
  | bytes count => rw [Reading.find, Reading.find, hplain, hplain, h.read reserved]
  | integer type => rw [Reading.find, Reading.find, h.readInteger reserved]
  | terminated => rw [Reading.find, Reading.find, h.readTerminated reserved]
  | prefixed => rw [Reading.find, Reading.find, hplain, hplain, h.readPrefixed reserved]
  | text => rw [Reading.find, Reading.find, h.readText reserved]

/-- Arenas in lockstep answer every operation alike. -/
theorem Lockstep.told (lockstep : Lockstep start environment environment' relation)
    (h : relation state state') (operation : Operation) :
    Concur relation ((Answer.plain <$> operation.run) environment state)
      ((Answer.plain <$> operation.run) environment' state') := by
  cases operation with
  | reserve additional => exact ((lockstep.reserve h additional).map _).map _
  | shrink => exact ((lockstep.shrink h).map _).map _
  | truncate reference => exact ((lockstep.truncate h reference).map _).map _
  | clear => exact ((lockstep.clear h).map _).map _
  | begin => exact ((lockstep.begin h).map _).map _
  | commit => exact ((lockstep.commit h).map _).map _
  | abandon => exact ((lockstep.abandon h).map _).map _
  | add addition => exact ((lockstep.addition h addition).map _).map _
  | push addition => exact ((lockstep.push h addition).map _).map _
  | overwrite reference content => exact ((lockstep.overwrite h reference content).map _).map _
  | read reference reading =>
    have hrun : ∀ (environment : Environment) (state : Machine × Arena),
        (Answer.plain <$> Operation.run (.read reference reading)) environment state =
          Procedure.checked ((reading.find state.2 reference).map Answer.plain) environment
            state := by
      intro environment state
      rw [Operation.run, map_apply _ _ (bind_apply_ok _ _ (own_apply ..))]
      cases reading.find state.2 reference <;> rfl
    rw [hrun, hrun, (lockstep.peers h).contents.find lockstep.reserved reference reading]
    exact concur_checked h _

end PagedAlloc.Arena
