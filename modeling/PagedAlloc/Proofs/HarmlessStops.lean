import PagedAlloc.Proofs.ExactReading
import PagedAlloc.Proofs.OwnedRequests

/-!
# Stops that change nothing

Some calls an arena stops because its build or its length forbid them (`Arena.Operation.Forbidden`).
Such a call changes nothing, and neither does any other call that is stopped by a fault
(`Arena.Life.stops_harmless`): the only faults behind a first effect are those of a request for
another buffer, and who owns a live buffer meets none of them but the end of the process
(`Arena.Owns.meet_fault`). So a build in progress goes on as if there had been no such call.
-/

namespace PagedAlloc.Arena

variable {paging : Size.Paging}

open Procedure

/-- The operations that an arena offers: nothing pushes mere padding. -/
def Operation.Offered (operation : Operation) : Prop :=
  ∀ alignment, operation ≠ .push (.align alignment)

/-- What may not be added: anything outside of a build, unless it is too long to be looked at, and
padding to what is no alignment. -/
def Addition.Forbidden (arena : Arena) (addition : Addition) : Prop :=
  arena.build = none ∧ ¬ addition.Oversized ∨
    ∃ alignment, addition = .align alignment ∧ ¬ Size.IsPowerOfTwo alignment

/-- The calls that the state of an arena forbids: while a build is in progress all but those that
make it or end it, outside of a build just these, and what names bytes that are not in use. -/
def Operation.Forbidden (arena : Arena) : Operation → Prop
  | reserve _ | shrink | clear | begin | push _ => arena.build ≠ none
  | commit | abandon => arena.build = none
  | truncate reference =>
    ¬ (arena.build = none ∧ firstOffset ≤ reference.offset ∧ reference.offset ≤ arena.length)
  | add addition => addition.Forbidden arena
  | read reference reading => ¬ reading.Allowed arena reference
  | overwrite reference content => ¬ (Reading.bytes content.length).Allowed arena reference

/-- A stop that changed nothing, neither of the machine nor of the arena. Whoever ends the build in
progress then is told what became of it. -/
structure Harmless (before after : Machine × Arena) : Prop where
  unchanged : after = before
  committed : ∀ build ∈ before.2.build, ∀ environment,
    (commit environment after).1 = ending build.failure ⟨build.start⟩

variable {environment : Environment} {machine first : Machine} {arena : Arena} {others : Ledger}
  {operation : Operation} {fault : Fault} {state : Machine × Arena} {start : Nat}

/-! ## Forbidden calls -/

/-- A forbidden addition is stopped before it does anything. -/
theorem Addition.Forbidden.stopped {addition : Addition} (forbidden : addition.Forbidden arena)
    (environment : Environment) (machine : Machine) :
    ∃ fault, addition.run environment (machine, arena) =
      (.error (.fault fault), machine, arena) := by
  rcases forbidden with ⟨hidle, hcounted⟩ | ⟨alignment, rfl, hpower⟩
  · by_cases halign : ∃ alignment, addition = .align alignment
    · obtain ⟨alignment, rfl⟩ := halign
      rcases addAlign_meets alignment environment machine arena with
        ⟨padding, -, hrun⟩ | ⟨-, fault, hrun⟩
      · exact ⟨_, hrun.trans (add_idle hidle ..)⟩
      · exact ⟨fault, hrun⟩
    · have haligned : addition.Aligned := by
        cases addition with
        | align alignment => exact absurd ⟨alignment, rfl⟩ halign
        | _ => exact trivial
      have hshort (alignment : Nat) (heq : addition = .align alignment) : arena.Aligns :=
        absurd ⟨alignment, heq⟩ halign
      exact (guarded_of_counted haligned hcounted hshort environment machine).idle hidle
  · exact ⟨_, bind_apply_error _ _ (ensure_apply_not _ hpower _ _)⟩

/-- What is stopped and what is told of it as an operation. -/
theorem stopped_map {α : Type} {procedure : Procedure (Machine × Arena) α} (answer : α → Answer)
    (h : ∃ fault, procedure environment (machine, arena) =
      (.error (.fault fault), machine, arena)) :
    ∃ fault, (answer <$> procedure) environment (machine, arena) =
      (.error (.fault fault), machine, arena) :=
  h.imp fun _ hrun => map_apply _ _ hrun

/-- A forbidden call is stopped before it does anything. -/
theorem Operation.Forbidden.stopped (forbidden : operation.Forbidden arena)
    (environment : Environment) (machine : Machine) :
    ∃ fault, operation.run environment (machine, arena) =
      (.error (.fault fault), machine, arena) := by
  -- every call that needs an idle arena tests for it first
  have hbusy {α : Type} (call : IdleCall) (next : Unit → Procedure (Machine × Arena) α)
      (busy : ¬ arena.build = none) :
      ∃ fault, (ensureIdle call >>= next) environment (machine, arena) =
        (.error (.fault fault), machine, arena) :=
    ⟨_, bind_apply_error _ _ (ensureIdle_busy busy call)⟩
  cases operation with
  | reserve additional => exact stopped_map _ (hbusy _ _ forbidden)
  | shrink => exact stopped_map _ (hbusy _ _ forbidden)
  | clear => exact stopped_map _ (hbusy _ _ forbidden)
  | begin => exact stopped_map _ ⟨_, begin_busy forbidden environment machine⟩
  | push addition =>
    exact stopped_map _ ⟨_, bind_apply_error _ _ (begin_busy forbidden environment machine)⟩
  | commit => exact stopped_map _ ⟨_, bind_apply_error _ _ (endBuild_none forbidden _)⟩
  | abandon => exact stopped_map _ ⟨_, bind_apply_error _ _ (endBuild_none forbidden _)⟩
  | truncate reference =>
    rcases truncate_cases reference environment machine arena with ⟨hinside, -⟩ | ⟨-, hstopped⟩
    · exact absurd hinside forbidden
    · exact stopped_map _ hstopped
  | add addition =>
    have hadd : addition.Forbidden arena := forbidden
    exact stopped_map _ (hadd.stopped environment machine)
  | read reference reading =>
    obtain ⟨fault, hfind, -⟩ := Reading.find_barred forbidden
    refine ⟨fault, ?_⟩
    rw [Operation.run, bind_apply_ok _ _ (own_apply ..), hfind, checked_error]
  | overwrite reference content =>
    rcases checkReadable_cases arena reference content.length with
      ⟨hused, -⟩ | ⟨-, fault, hcheck, -⟩
    · exact absurd hused forbidden
    · refine stopped_map _ ⟨fault, ?_⟩
      rw [Arena.overwrite, bind_apply_ok _ _ (own_apply ..), hcheck,
        bind_apply_error _ _ (checked_error ..)]

/-! ## Faults behind a first effect -/

/-- Making room for the owner of a buffer is not stopped but by the end of the process. -/
theorem Owns.makeRoom_fault (h : Owns (machine, arena) others) (unmaps : environment.UnmapsLive)
    {additional : Nat}
    (hrun : Arena.makeRoom additional environment (machine, arena) =
      (.error (.fault fault), state)) :
    ∃ size, fault = .aborted size := by
  obtain ⟨outcome, machine', region, hroom, hmakes⟩ :=
    makeRoom_cases additional environment machine arena
  obtain ⟨rfl, -⟩ := Prod.mk.inj (hrun.symm.trans hroom)
  cases hmakes with
  | refused capacity _ wanted told => exact ⟨_, h.request_fault unmaps told⟩

/-- Nothing but the end of the process stops a demand of who owns a live buffer. -/
theorem Owns.demand_fault (h : Owns (machine, arena) others) (unmaps : environment.UnmapsLive)
    (building : arena.build = some ⟨start, none⟩) {demand : Demand}
    (hrun : demand.run environment (machine, arena) = (.error (.fault fault), state)) :
    ∃ size, fault = .aborted size := by
  cases demand with
  | room additional => exact h.makeRoom_fault unmaps hrun
  | cells content =>
    have hadd := (add_building building content environment machine).symm.trans hrun
    split at hadd
    · cases hadd
    · cases hadd
    · rename_i hroom
      cases hadd
      exact h.makeRoom_fault unmaps hroom

/-- A demand that is met leaves the build as it is. -/
theorem Demand.build_of_met (building : arena.build = some ⟨start, none⟩) {demand : Demand}
    (hrun : demand.run environment (machine, arena) = (.ok (), state)) :
    state.2.build = some ⟨start, none⟩ := by
  obtain ⟨outcome, machine', region, hroom, -⟩ :=
    makeRoom_cases demand.size environment machine arena
  cases demand with
  | room additional =>
    obtain ⟨-, rfl⟩ := Prod.mk.inj (hrun.symm.trans hroom)
    exact building
  | cells content =>
    have hadd := (add_building building content environment machine).symm.trans hrun
    rw [show makeRoom content.length environment (machine, arena) = _ from hroom] at hadd
    cases outcome with
    | ok =>
      cases hadd
      exact building
    | error reason => cases reason <;> cases hadd

/-- Demands of a build that has not failed are not stopped but by the end of the process. -/
theorem Owns.meet_fault (h : Owns (machine, arena) others) (unmaps : environment.UnmapsLive)
    (building : arena.build = some ⟨start, none⟩) {demands : List Demand}
    (hrun : meet demands environment (machine, arena) = (.error (.fault fault), state)) :
    ∃ size, fault = .aborted size := by
  induction demands generalizing machine arena others with
  | nil => cases hrun
  | cons demand rest ih =>
    have howned : ∃ more, Owns (demand.run environment (machine, arena)).2 more :=
      (Invariant.owned fun _ => id).demand unmaps ⟨others, h⟩ demand
    rw [meet] at hrun
    cases hdemand : demand.run environment (machine, arena) with
    | mk outcome middle =>
      rw [hdemand] at howned
      cases outcome with
      | error reason =>
        rw [bind_apply_error _ _ hdemand] at hrun
        cases hrun
        exact h.demand_fault unmaps building hdemand
      | ok =>
        -- a demand that was met leaves an owner behind, whose build has not failed either
        obtain ⟨more, hmore⟩ := howned
        rw [bind_apply_ok _ _ hdemand] at hrun
        exact ih hmore (Demand.build_of_met building hdemand) hrun

/-- What stops an addition to a build that has not failed stops it before it demands anything, or
ends the process. -/
theorem Owns.addition_fault (h : Owns (machine, arena) others) (unmaps : environment.UnmapsLive)
    (building : arena.build = some ⟨start, none⟩) {addition : Addition}
    (hrun : addition.run environment (machine, arena) = (.error (.fault fault), state)) :
    (∃ alignment, addition = .align alignment) ∧ state = (machine, arena) ∨
      ∃ size, fault = .aborted size := by
  rcases addition.run_cases environment machine arena with hmeet | ⟨-, hoversized | hstopped⟩
  · exact Or.inr (h.meet_fault unmaps building (hmeet.symm.trans hrun))
  · rw [hoversized.run_eq] at hrun
    cases hrun
  · obtain ⟨alignment, _, rfl, hstopped⟩ := hstopped
    cases hrun.symm.trans hstopped
    exact Or.inl ⟨⟨alignment, rfl⟩, rfl⟩

/-- Where nothing may be added, nothing that is stopped has an effect. -/
theorem Closed.addition_fault (closed : arena.Closed) {addition : Addition}
    (hrun : addition.run environment (machine, arena) = (.error (.fault fault), state)) :
    state = (machine, arena) := by
  rcases addition.run_cases environment machine arena with hmeet | ⟨-, hoversized | hstopped⟩
  · rw [hmeet] at hrun
    cases hdemands : addition.demands arena.length with
    | nil =>
      rw [hdemands] at hrun
      cases hrun
    | cons demand rest =>
      obtain ⟨content, rfl⟩ := addition.demands_cells arena.length demand (hdemands ▸ .head rest)
      -- a closed arena has no build, or one that has failed: it adds nothing
      obtain ⟨reason, hadd⟩ : ∃ reason, add content environment (machine, arena) =
          (.error reason, machine, arena) := by
        cases hbuild : arena.build with
        | none => exact ⟨_, add_idle hbuild content environment machine⟩
        | some build =>
          obtain ⟨start, failure⟩ := build
          obtain ⟨first, rfl⟩ := Option.ne_none_iff_exists'.1 (closed _ hbuild)
          exact ⟨_, add_failed hbuild content environment machine⟩
      have hmet : meet (.cells content :: rest) environment (machine, arena) =
        (.error reason, machine, arena) := bind_apply_error _ _ hadd
      rw [hdemands, hmet] at hrun
      cases hrun
      rfl
  · rw [hoversized.run_eq] at hrun
    cases hrun
  · obtain ⟨alignment, _, rfl, hstopped⟩ := hstopped
    cases hrun.symm.trans hstopped
    rfl

/-- A build that goes on, or none that may be added to. -/
theorem building_or_closed (arena : Arena) :
    (∃ start, arena.build = some ⟨start, none⟩) ∨ arena.Closed := by
  cases hbuild : arena.build with
  | none => exact Or.inr (by simp [Closed, hbuild])
  | some build =>
    obtain ⟨start, failure⟩ := build
    cases failure with
    | none => exact Or.inl ⟨start, rfl⟩
    | some failure => exact Or.inr (by simp [Closed, hbuild])

/-! ## Operations -/

/-- Ending a build never stops for good. -/
theorem ending_ne_fault {α : Type} (failure : Option Failure) (value : α) (fault : Fault) :
    ending failure value ≠ .error (.fault fault) := by
  cases failure <;> exact nofun

/-- Shrinking is stopped before its first effect, or by the end of the process. -/
theorem Owns.shrink_fault (h : Owns (machine, arena) others)
    (hrun : Arena.shrink environment (machine, arena) = (.error (.fault fault), state)) :
    state = (machine, arena) ∨ ∃ size, fault = .aborted size := by
  rcases shrink_cases environment machine arena with
    ⟨_, -, hstopped⟩ | ⟨target, -, -, hpresent⟩ | ⟨target, -, -, -, hadopt⟩
  · cases hstopped.symm.trans hrun
    exact Or.inl rfl
  · cases hpresent.symm.trans hrun
  · obtain ⟨result, middle, hresize, hresizes⟩ := Region.resize_resizes h.live
      h.consistent.2 target arena.diagnostics environment
    have hverdict := hresizes.verdict
    rw [hadopt] at hrun
    cases result with
    | ok region => cases (adopt_ok_eq hresize arena).symm.trans hrun
    | error reason =>
      cases (adopt_error hresize arena).symm.trans hrun
      exact Or.inr ⟨_, aborted_of_resizing hverdict.symm⟩

/-- A push is stopped because a build is in progress, or by the end of the process. -/
theorem Owns.push_fault (h : Owns (machine, arena) others) (reachable : arena.Reachable)
    (unmaps : environment.UnmapsLive) {addition : Addition}
    (offered : ∀ alignment, addition ≠ .align alignment)
    (hrun : Arena.push addition.run environment (machine, arena) =
      (.error (.fault fault), state)) :
    state = (machine, arena) ∨ ∃ size, fault = .aborted size := by
  by_cases hidle : arena.build = none
  · have haligned : addition.Aligned := by
      cases addition with
      | align alignment => exact absurd rfl (offered alignment)
      | _ => exact trivial
    obtain ⟨outcome, middle, built, last, after, hadd, hpush, -⟩ :=
      reachable.push_tells hidle haligned environment machine
    have htold := congrArg Prod.fst (hpush.symm.trans hrun)
    rw [error_of_map htold] at hadd
    rcases ((sits_begun machine arena).owns h).addition_fault unmaps rfl hadd with
      ⟨⟨alignment, heq⟩, -⟩ | haborted
    · exact absurd heq (offered alignment)
    · exact Or.inr haborted
  · rw [Arena.push, bind_apply_error _ _ (begin_busy hidle _ _)] at hrun
    cases hrun
    exact Or.inl rfl

/-- What a procedure tells as an operation stops as the procedure does. -/
theorem fault_of_map {α : Type} {procedure : Procedure (Machine × Arena) α} {answer : α → Answer}
    (hrun : (answer <$> procedure) environment (machine, arena) = (.error (.fault fault), state)) :
    procedure environment (machine, arena) = (.error (.fault fault), state) := by
  cases hprocedure : procedure environment (machine, arena) with
  | mk outcome after =>
    obtain ⟨htold, rfl⟩ := Prod.mk.inj ((map_apply _ _ hprocedure).symm.trans hrun)
    rw [error_of_map htold]

/-- Whatever stops an operation on an owned buffer stops it before its first effect, or ends the
process. -/
theorem Owns.operation_fault (h : Owns (machine, arena) others) (reachable : arena.Reachable)
    (unmaps : environment.UnmapsLive) (offered : operation.Offered)
    (hrun : operation.run environment (machine, arena) = (.error (.fault fault), state)) :
    state = (machine, arena) ∨ ∃ size, fault = .aborted size := by
  cases operation with
  | shrink => exact h.shrink_fault (fault_of_map hrun)
  | push addition =>
    exact h.push_fault reachable unmaps (fun alignment heq => offered alignment (heq ▸ rfl))
      (fault_of_map hrun)
  | add addition =>
    have hadd := fault_of_map hrun
    rcases building_or_closed arena with ⟨start, hbuilding⟩ | hclosed
    · exact (h.addition_fault unmaps hbuilding hadd).imp_left And.right
    · exact Or.inl (hclosed.addition_fault hadd)
  | reserve additional =>
    have hreserve := fault_of_map hrun
    rw [Arena.reserve] at hreserve
    by_cases hidle : arena.build = none
    · rw [bind_apply_ok _ _ (ensureIdle_idle hidle _)] at hreserve
      exact Or.inr (h.makeRoom_fault unmaps hreserve)
    · rw [bind_apply_error _ _ (ensureIdle_busy hidle _)] at hreserve
      cases hreserve
      exact Or.inl rfl
  | truncate reference =>
    rcases truncate_cases reference environment machine arena with ⟨-, _, hok⟩ | ⟨-, _, hstopped⟩
    · cases hok.symm.trans (fault_of_map hrun)
    · cases hstopped.symm.trans (fault_of_map hrun)
      exact Or.inl rfl
  | clear =>
    rcases clear_cases environment machine arena with ⟨-, hok⟩ | ⟨_, hstopped⟩
    · cases hok.symm.trans (fault_of_map hrun)
    · cases hstopped.symm.trans (fault_of_map hrun)
      exact Or.inl rfl
  | begin =>
    rcases begin_cases environment machine arena with ⟨-, hok⟩ | hstopped
    · cases hok.symm.trans (fault_of_map hrun)
    · cases hstopped.symm.trans (fault_of_map hrun)
      exact Or.inl rfl
  | commit =>
    have hcommit := fault_of_map hrun
    cases hbuild : arena.build with
    | none =>
      cases hcommit.symm.trans (bind_apply_error _ _ (endBuild_none hbuild _))
      exact Or.inl rfl
    | some build =>
      -- the build is taken out before its length is told, but no build begins behind the end
      obtain ⟨-, hle⟩ := reachable.wellFormed.started build hbuild
      obtain ⟨machine', hend⟩ := commit_staged hbuild hle environment machine
      exact (ending_ne_fault _ _ _ (congrArg Prod.fst (hend.symm.trans hcommit))).elim
  | abandon =>
    have habandon := fault_of_map hrun
    cases hbuild : arena.build with
    | none =>
      cases habandon.symm.trans (bind_apply_error _ _ (endBuild_none hbuild _))
      exact Or.inl rfl
    | some build => cases (abandon_staged hbuild environment machine).symm.trans habandon
  | read reference reading =>
    rw [Operation.run, bind_apply_ok _ _ (own_apply ..)] at hrun
    cases hfind : reading.find arena reference with
    | ok answer =>
      rw [hfind] at hrun
      cases hrun
    | error cause =>
      rw [hfind] at hrun
      cases hrun
      exact Or.inl rfl
  | overwrite reference content =>
    rcases overwrite_cases reference content environment machine arena with
      ⟨-, hok⟩ | ⟨_, -, hstopped⟩
    · cases hok.symm.trans (fault_of_map hrun)
    · cases hstopped.symm.trans (fault_of_map hrun)
      exact Or.inl rfl

/-! ## Every stop is harmless -/

/-- On a machine whose kernel unmaps live mappings, every call that the state of an arena forbids is
stopped, and whatever call is stopped has changed nothing, unless the process ends. -/
theorem Life.stops_harmless (h : Life Environment.UnmapsLive first (machine, arena))
    (tidy : first.Tidy) (unmaps : environment.UnmapsLive) (operation : Operation)
    (offered : operation.Offered) :
    (operation.Forbidden arena → ∃ fault state,
      operation.run environment (machine, arena) = (.error (.fault fault), state) ∧
        Harmless (machine, arena) state) ∧
    ∀ fault state, operation.run environment (machine, arena) = (.error (.fault fault), state) →
      Harmless (machine, arena) state ∨ ∃ size, fault = .aborted size := by
  have hharmless : Harmless (machine, arena) (machine, arena) := by
    refine ⟨rfl, fun build hbuild environment => ?_⟩
    obtain ⟨-, hle⟩ := h.reachable.wellFormed.started build hbuild
    obtain ⟨machine', hcommit⟩ := commit_staged hbuild hle environment machine
    exact congrArg Prod.fst hcommit
  refine ⟨fun forbidden => ?_, fun fault state hrun => ?_⟩
  · obtain ⟨fault, hrun⟩ := forbidden.stopped environment machine
    exact ⟨fault, _, hrun, hharmless⟩
  · obtain ⟨others, howns⟩ := h.owns tidy fun _ => id
    refine (howns.operation_fault h.reachable unmaps offered hrun).imp_left ?_
    rintro rfl
    exact hharmless

end PagedAlloc.Arena

namespace PagedAlloc.Arena

open Procedure

attribute [local instance] Size.Paging.common

/-- A push that comes in between leaves a build that has failed as it is. -/
theorem stops_harmless_after_failure :
    let kernel : Environment := { Environment.ordinary with grantsUnmap := fun _ _ _ => true }
    let made : Arena :=
      ⟨⟨65536, 32, (Memory.zeroed 32).fill 0 16 (Run.constant 0)⟩, 16, .fixedHeap, .off, none⟩
    ∃ machine, create 32 .fixedHeap .off kernel .fresh = (.ok made, machine) ∧
      let begun := (Operation.begin.run kernel (machine, made)).2
      let failed := ((Operation.add (.zeroes 100)).run kernel begun).2
      failed.2.build = some ⟨16, some (.cannotGrow 32 128)⟩ ∧
        ∃ fault state, (Operation.push (.bytes [1])).run kernel failed =
            (.error (.fault fault), state) ∧
          state = failed ∧ (commit kernel state).1 = .error (.failure (.cannotGrow 32 128)) := by
  intro kernel made
  have unmaps : kernel.UnmapsLive := fun _ _ _ _ => rfl
  obtain ⟨machine, hmade⟩ :
      ∃ machine, create 32 .fixedHeap .off kernel .fresh = (.ok made, machine) := ⟨_, rfl⟩
  obtain rfl := congrArg Prod.snd hmade
  refine ⟨_, hmade, ?_⟩
  intro begun failed
  have hlived : Life Environment.UnmapsLive .fresh failed :=
    ((Life.start kernel unmaps 32 .fixedHeap .off hmade).step kernel unmaps .begin).step kernel
      unmaps (.add (.zeroes 100))
  have hbuild : failed.2.build = some ⟨16, some (.cannotGrow 32 128)⟩ := by decide +kernel
  clear_value failed
  obtain ⟨machine, arena⟩ := failed
  have hforbidden : (Operation.push (.bytes [1])).Forbidden arena := by
    show arena.build ≠ none
    rw [hbuild]
    exact nofun
  obtain ⟨fault, state, hrun, hharmless⟩ := (hlived.stops_harmless
    (show Machine.fresh.Tidy from nofun) unmaps (.push (.bytes [1])) nofun).1 hforbidden
  exact ⟨hbuild, fault, state, hrun, hharmless.unchanged, hharmless.committed _ hbuild kernel⟩

end PagedAlloc.Arena
