import PagedAlloc.Proofs.RoomDemands

/-!
# Requests of an owned buffer

The owner of a live region that asks for another one is told what the verdict on the region says
(`Arena.Owns.request_verdict`), and whatever comes of it, it owns a live region again
(`Arena.Owns.makeRoom_owns`). So the only fault that an owner meets is the end of the process, if
its strategies want it where the heap refuses (`Arena.Owns.request_fault`).

An invariant of states has to be shown for the two requests only: for making room and for shrinking
(`Arena.Invariant`). It then holds all through the life of an arena whose kernel keeps a rule
(`Arena.Life`).
-/

namespace PagedAlloc.Arena

variable {paging : Size.Paging}

open Procedure

/-- What an arena is told that asks for another capacity. -/
def verdict [Size.Paging] (environment : Environment) (ledger : Ledger) (arena : Arena)
    (capacity : Nat) : Except Stop Nat :=
  if (arena.diagnostics.forceRelocation && arena.strategies.mayMove) = true then
    arena.strategies.verdict environment ledger alignment arena.diagnostics.debugLayer
      arena.capacity capacity
  else
    arena.strategies.resizing.verdict environment ledger alignment arena.region arena.capacity
      capacity

/-- What comes of making room: there is room already, or a wanted capacity is granted or refused, or
what is needed or wanted is no size. -/
inductive MakesRoom [Size.Paging] (environment : Environment) (machine : Machine) (arena : Arena)
    (additional : Nat) : Except Stop Unit → Region → Prop where
  | present (fits : arena.length + additional ≤ arena.capacity) :
      MakesRoom environment machine arena additional (.ok ()) arena.region
  | granted (capacity : Nat) (region : Region)
      (wanted : arena.wanted? (arena.length + additional) = some capacity)
      (told : (arena.request capacity environment machine).1 = .ok region) :
      MakesRoom environment machine arena additional (.ok ()) region
  | refused (capacity : Nat) (reason : Stop)
      (wanted : arena.wanted? (arena.length + additional) = some capacity)
      (told : (arena.request capacity environment machine).1 = .error reason) :
      MakesRoom environment machine arena additional (.error reason) arena.region
  | unrepresentable (large : Size.limit ≤ arena.length + additional ∨
        arena.wanted? (arena.length + additional) = none) :
      MakesRoom environment machine arena additional (.error (.failure .overflow)) arena.region

/-- A property of states that is kept by whatever leaves the buffer where it is, and by the two
requests for another one if the kernel keeps the rule. -/
structure Invariant [Size.Paging] (rule : Environment → Prop)
    (property : Machine × Arena → Prop) : Prop where
  sits : ∀ {before after}, Sits before after → property before → property after
  room : ∀ {environment state}, rule environment → property state → ∀ additional,
    property (makeRoom additional environment state).2
  shrink : ∀ {environment state}, rule environment → property state →
    property (shrink environment state).2

/-- The life of an arena that was made on a machine: it goes through any operations, each of which
may have succeeded, failed or been stopped, and the machine is what they leave of it. The kernel
keeps the rule at every moment. -/
inductive Life [Size.Paging] (rule : Environment → Prop)
    (first : Machine) : Machine × Arena → Prop where
  | start (environment : Environment) (kept : rule environment) (capacity : Nat)
      (strategies : Strategies) (diagnostics : Diagnostics) {machine : Machine} {arena : Arena}
      (made : create capacity strategies diagnostics environment first = (.ok arena, machine)) :
      Life rule first (machine, arena)
  | step {state : Machine × Arena} (before : Life rule first state) (environment : Environment)
      (kept : rule environment) (operation : Operation) :
      Life rule first (operation.run environment state).2

variable {environment : Environment} {machine first : Machine} {arena : Arena} {others : Ledger}
  {capacity : Nat} {rule : Environment → Prop} {property : Machine × Arena → Prop}

/-! ## Making room -/

/-- Making room gives an arena another buffer at most. -/
theorem makeRoom_cases [Size.Paging] (additional : Nat) (environment : Environment)
    (machine : Machine) (arena : Arena) :
    ∃ outcome machine' region, makeRoom additional environment (machine, arena) =
        (outcome, machine', { arena with region := region }) ∧
      MakesRoom environment machine arena additional outcome region := by
  rw [makeRoom_eq]
  by_cases hsum : arena.length + additional < Size.limit
  · rw [Size.add?, if_pos hsum]
    dsimp only
    split
    · rename_i hfits
      exact ⟨_, _, _, rfl, .present hfits.1⟩
    · cases hwanted : arena.wanted? (arena.length + additional) with
      | none => exact ⟨_, _, _, rfl, .unrepresentable (Or.inr hwanted)⟩
      | some capacity =>
        cases hrun : arena.request capacity environment machine with
        | mk result middle =>
          cases result with
          | error reason =>
            exact ⟨_, _, _, adopt_error hrun arena,
              .refused capacity reason hwanted (congrArg Prod.fst hrun)⟩
          | ok region =>
            exact ⟨_, _, _, adopt_ok_eq hrun arena,
              .granted capacity region hwanted (congrArg Prod.fst hrun)⟩
  · rw [Size.add?, if_neg hsum]
    exact ⟨_, _, _, rfl, .unrepresentable (Or.inl (Nat.le_of_not_lt hsum))⟩

/-! ## Verdicts -/

/-- Who owns a buffer is told what the verdict says. -/
theorem Owns.request_verdict (h : Owns (machine, arena) others) (unmaps : environment.UnmapsLive)
    (capacity : Nat) :
    (arena.request capacity environment machine).1.map Region.length =
      arena.verdict environment machine.ledger capacity := by
  rw [Arena.request, verdict]
  split
  · obtain ⟨result, middle, hrun, hrelocates⟩ := Region.relocate_relocates h.live h.consistent rfl
      unmaps capacity arena.diagnostics
    exact (congrArg (·.1.map Region.length) hrun).trans hrelocates.verdict
  · obtain ⟨result, middle, hrun, hresizes⟩ := Region.resize_resizes h.live h.consistent.2 capacity
      arena.diagnostics environment
    exact (congrArg (·.1.map Region.length) hrun).trans hresizes.verdict

/-- The only fault in a verdict of a source is the end of the process. -/
theorem aborted_of_source {source : Source} {ledger : Ledger} {fault : Fault}
    (h : source.verdict environment ledger alignment capacity = .error (.fault fault)) :
    fault = .aborted capacity := by
  rw [Source.verdict] at h
  split at h
  · cases h
  · exact (Source.fault_of_answer h).2.1

/-- A verdict on resizing ends the process with the capacity that was refused, or not at all. -/
theorem aborted_of_resizing {resizing : Resizing} {ledger : Ledger} {region : Region} {size : Nat}
    {fault : Fault} (h : resizing.verdict environment ledger alignment region size capacity =
      .error (.fault fault)) : fault = .aborted capacity := by
  unfold Resizing.verdict at h
  cases resizing with
  | heapOrAbort | heapOrFail | remapMayMove => exact aborted_of_source h
  | noOp =>
    dsimp only at h
    split at h <;> cases h
  | remapKeepAddress =>
    dsimp only at h
    split at h
    · cases h
    · split at h
      · cases h
      · split at h <;> cases h

/-- The only fault in a verdict is the end of the process. -/
theorem aborted_of_verdict {ledger : Ledger} {fault : Fault}
    (h : arena.verdict environment ledger capacity = .error (.fault fault)) :
    fault = .aborted capacity := by
  rw [verdict, Strategies.verdict] at h
  split at h
  · split at h
    · exact aborted_of_source h
    · cases h
  · exact aborted_of_resizing h

/-- Nothing stops a request of an owned buffer for good but the end of the process. -/
theorem Owns.request_fault (h : Owns (machine, arena) others) (unmaps : environment.UnmapsLive)
    {fault : Fault}
    (told : (arena.request capacity environment machine).1 = .error (.fault fault)) :
    fault = .aborted capacity := by
  have hverdict := h.request_verdict unmaps capacity
  rw [told] at hverdict
  exact aborted_of_verdict hverdict.symm

/-! ## Ownership -/

/-- Whatever comes of a request that serves, the arena owns its buffer again. -/
theorem Owns.adopt_owns (h : Owns (machine, arena) others) {request : Procedure Machine Region}
    {result : Except Stop Region} {middle : Machine} {stale : Prop}
    (hrun : request environment machine = (result, middle))
    (serves : Region.Serves environment machine middle arena.strategies.source.family alignment
      arena.capacity arena.region others stale result) :
    ∃ more, Owns (Arena.adopt request environment (machine, arena)).2 more := by
  cases result with
  | error reason =>
    rw [adopt_error hrun arena]
    exact ⟨others, h.consistent, (serves.refused reason rfl).holds h.live.holds, h.live.spans⟩
  | ok moved =>
    obtain ⟨left, -, hsucceeds⟩ := serves.granted moved rfl
    rw [adopt_ok_eq hrun arena]
    exact ⟨_, h.consistent, (hsucceeds.congr (Region.sameBooks_log ..)).live⟩

/-- Making room leaves an arena that owns a region, whatever becomes of the request. -/
theorem Owns.makeRoom_owns (h : Owns (machine, arena) others) (unmaps : environment.UnmapsLive)
    (additional : Nat) :
    ∃ more, Owns (Arena.makeRoom additional environment (machine, arena)).2 more := by
  rw [makeRoom_eq]
  split
  · exact ⟨others, h⟩
  · split
    · exact ⟨others, h⟩
    · split
      · exact ⟨others, h⟩
      · obtain ⟨result, middle, hrun, hserves⟩ := h.request unmaps _
        exact h.adopt_owns hrun hserves

/-- Shrinking leaves an arena that owns a region, whatever becomes of it. -/
theorem Owns.shrink_owns (h : Owns (machine, arena) others) :
    ∃ more, Owns (Arena.shrink environment (machine, arena)).2 more := by
  rcases shrink_cases environment machine arena with
    ⟨fault, -, hrun⟩ | ⟨target, -, -, hrun⟩ | ⟨target, -, -, -, hrun⟩ <;> rw [hrun]
  · exact ⟨others, h⟩
  · exact ⟨others, h⟩
  · obtain ⟨result, middle, hresize, hresizes⟩ := Region.resize_resizes h.live
      h.consistent.2 target arena.diagnostics environment
    exact h.adopt_owns hresize hresizes.serves

/-! ## Invariants -/

namespace Invariant

/-- An invariant is kept by each demand: beyond making room, a demand only writes into the buffer.
-/
theorem demand (h : Invariant rule property) (kept : rule environment)
    (holds : property (machine, arena)) (demand : Demand) :
    property (demand.run environment (machine, arena)).2 := by
  cases demand with
  | room additional => exact h.room kept holds additional
  | cells content =>
    show property (add content environment (machine, arena)).2
    cases hbuild : arena.build with
    | none => rwa [add_idle hbuild]
    | some build =>
      obtain ⟨start, failure⟩ := build
      cases failure with
      | some failure => rwa [add_failed hbuild]
      | none =>
        have hroom := h.room kept holds content.length
        rw [add_building hbuild]
        cases hrun : makeRoom content.length environment (machine, arena) with
        | mk outcome state =>
          rw [hrun] at hroom
          cases outcome with
          | ok => exact h.sits (sits_write state.1 state.2 ..) hroom
          | error reason =>
            cases reason with
            | failure failure =>
              exact h.sits ((still_refuse failure).holds environment state).sits hroom
            | fault fault => exact hroom

/-- By induction over the demands, an invariant is kept until one of them stops. -/
theorem meet (h : Invariant rule property) (kept : rule environment)
    (holds : property (machine, arena)) (demands : List Demand) :
    property (Arena.meet demands environment (machine, arena)).2 := by
  induction demands generalizing machine arena with
  | nil => exact holds
  | cons demand rest ih =>
    have hdemand := h.demand kept holds demand
    rw [Arena.meet]
    cases hrun : demand.run environment (machine, arena) with
    | mk outcome state =>
      rw [hrun] at hdemand
      cases outcome with
      | error reason => rwa [bind_apply_error _ _ hrun]
      | ok =>
        rw [bind_apply_ok _ _ hrun]
        exact ih hdemand

/-- An invariant is kept by every operation. -/
theorem operation (h : Invariant rule property) (reachable : arena.Reachable)
    (kept : rule environment) (holds : property (machine, arena)) (operation : Operation) :
    property (operation.run environment (machine, arena)).2 := by
  by_cases hother : operation = .shrink
  · rw [hother, Operation.run, map_state]
    exact h.shrink kept holds
  · -- whatever an operation does beside its demands leaves the buffer where they leave it
    exact h.sits (reachable.run_sits hother environment machine)
      (h.meet kept (h.sits (operation.sits_entered machine arena) holds) _)

/-- Ownership is an invariant if live mappings are unmapped on request. -/
theorem owned (unmaps : ∀ environment, rule environment → environment.UnmapsLive) :
    Invariant rule fun state => ∃ others, Owns state others where
  sits hsits holds := holds.imp fun _ => hsits.owns
  room kept holds additional := by
    obtain ⟨others, howns⟩ := holds
    exact howns.makeRoom_owns (unmaps _ kept) additional
  shrink _ holds := by
    obtain ⟨others, howns⟩ := holds
    exact howns.shrink_owns

end Invariant

namespace Life

variable {state : Machine × Arena}

/-- A life is a reachable history, with the kernel's rule kept in mind. -/
theorem reachable (h : Life rule first state) : state.2.Reachable := by
  induction h with
  | start environment kept capacity strategies diagnostics made => exact .start _ _ _ _ _ _ _ made
  | @step state before environment kept operation ih =>
    exact ih.step environment state.1 operation

/-- An invariant that new arenas have holds at every moment. -/
theorem keeps (h : Life rule first state) (invariant : Invariant rule property)
    (base : ∀ environment, rule environment → ∀ capacity strategies diagnostics machine arena,
      create capacity strategies diagnostics environment first = (.ok arena, machine) →
        property (machine, arena)) : property state := by
  induction h with
  | start environment kept capacity strategies diagnostics made => exact base _ kept _ _ _ _ _ made
  | step before environment kept operation ih =>
    exact invariant.operation before.reachable kept ih operation

/-- An arena owns its region all its life. -/
theorem owns (h : Life rule first state) (tidy : first.Tidy)
    (unmaps : ∀ environment, rule environment → environment.UnmapsLive) :
    ∃ others, Owns state others :=
  h.keeps (.owned unmaps) fun _ _ _ _ _ _ _ made => ⟨_, (owns_of_create tidy made).1⟩

end Life

end PagedAlloc.Arena
