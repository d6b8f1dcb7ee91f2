import PagedAlloc.Proofs.TwinOperations

/-!
# The diagnostic switches are transparent

Whoever uses an arena and does not look at addresses cannot tell whether its diagnostic switches are
on: the whole story of an arena, from the making to the giving back, is the same with all settings
(`Arena.story_transparent`).
-/

namespace PagedAlloc.Arena

variable {paging : Size.Paging}

open Procedure

variable {environment : Environment} {machine machine' : Machine} {arena arena' : Arena}
  {state state' : Machine × Arena}

/-- An arena is given back without a stop. -/
theorem Funded.release (h : Funded environment arena) (hsize : environment.BySize)
    (machine : Machine) :
    ∃ machine', Arena.release environment (machine, arena) = (.ok (), machine', arena) := by
  rw [Arena.release, bind_apply_ok _ _ (own_apply ..), bind_apply_ok _ _ (note_apply ..)]
  obtain ⟨result, machine', hrun, hcases⟩ := Region.release_cases
    (h.consistent.1 ▸ h.backed.suits) arena.region.address environment
    { machine with log := .arenaReleased arena.capacity arena.region.address :: machine.log }
  rcases hcases with rfl | ⟨-, hdisposal, hrefused⟩
  · exact ⟨machine', ask_apply _ hrun arena⟩
  · rw [h.unmaps hsize hdisposal] at hrefused
    cases hrefused

/-- What a caller sees of a step who does not look at addresses. -/
structure Glimpse where
  /-- What the step answered. -/
  answer : Except Stop Answer
  /-- Bytes in use after it. -/
  length : Nat
  /-- Bytes that the buffer holds after it. -/
  capacity : Nat
  /-- Whether a build is in progress after it. -/
  isBuilding : Bool

/-- What is seen of a step. -/
def glimpse (step : Procedure (Machine × Arena) Answer) (environment : Environment)
    (state : Machine × Arena) : Glimpse :=
  let (answer, after) := (Answer.plain <$> step) environment state
  ⟨answer, after.2.length, after.2.capacity, after.2.isBuilding⟩

/-- What is seen of an arena during some operations, and when it is given back then. -/
def history [Size.Paging] (environment : Environment) :
    List Operation → Machine × Arena → List Glimpse
  | [], state => [glimpse ((fun _ => .done) <$> release) environment state]
  | operation :: rest, state =>
    glimpse operation.run environment state ::
      history environment rest (operation.run environment state).2

/-- What is seen of an arena that is made, goes through some operations, and is given back. -/
def story [Size.Paging] (environment : Environment) (machine : Machine) (capacity : Nat)
    (strategies : Strategies) (diagnostics : Diagnostics) (operations : List Operation) :
    Except Stop (List Glimpse) :=
  match create capacity strategies diagnostics environment machine with
  | (.error reason, _) => .error reason
  | (.ok arena, after) =>
    .ok (glimpse (pure .done) environment (after, arena) ::
      history environment operations (after, arena))

theorem Agree.glimpse {step : Procedure (Machine × Arena) Answer}
    (h : Agree environment ((Answer.plain <$> step) environment state)
      ((Answer.plain <$> step) environment state')) :
    Arena.glimpse step environment state' = Arena.glimpse step environment state := by
  obtain ⟨hresult, htwins⟩ := h
  simp only [Arena.glimpse, hresult, htwins.length, htwins.capacity, isBuilding, htwins.build]

/-- Twins answer all operations alike. -/
theorem Twins.history (h : Twins environment state state') (hsize : environment.BySize)
    (operations : List Operation) :
    Arena.history environment operations state' = Arena.history environment operations state := by
  induction operations generalizing state state' with
  | nil =>
    -- nothing stops the giving back, so that its answers agree as well
    obtain ⟨after, hrun⟩ := h.toFunded.release hsize state.1
    obtain ⟨after', hrun'⟩ := h.symm.toFunded.release hsize state'.1
    simp only [Arena.history, Arena.glimpse, map_apply _ _ (map_apply _ _ hrun),
      map_apply _ _ (map_apply _ _ hrun'), h.length, h.capacity, isBuilding, h.build]
  | cons operation rest ih =>
    have hagree := h.told hsize operation
    have htwins := hagree.twins
    rw [map_state, map_state] at htwins
    rw [Arena.history, Arena.history, hagree.glimpse, ih htwins]

/-- Arenas that are made alike up to their settings are twins. -/
theorem create_twins [Size.Paging] (hsize : environment.BySize) {strategies : Strategies}
    (consistent : strategies.IsConsistent) (quiet : strategies.Quiet) {capacity : Nat}
    {diagnostics diagnostics' : Diagnostics} {after after' : Machine}
    (made : create capacity strategies diagnostics environment machine = (.ok arena, after))
    (made' : create capacity strategies diagnostics' environment machine = (.ok arena', after')) :
    Twins environment (after, arena) (after', arena') := by
  have hformed := (yields_create capacity strategies diagnostics).holds made
  rcases create_cases capacity strategies environment machine with
    ⟨reason, stopped, herror⟩ | ⟨size, region, middle, ended, -, hle, hrun, hok⟩
  · rw [herror] at made
    cases made
  · rw [hok] at made made'
    cases made
    cases made'
    have hpositive : 0 < size := Nat.lt_of_lt_of_le (by decide) hle
    have hanswer := Region.answer_allocate strategies.source hpositive alignment_power alignment_le
      environment machine
    rw [hrun, Source.answer_congr hsize rfl rfl machine.ledger []] at hanswer
    exact ⟨⟨hformed, consistent, quiet, Source.answer_idem hanswer.symm⟩, hformed.whole, rfl, rfl,
      rfl, rfl, fun _ _ => rfl, fun _ => ⟨rfl, rfl⟩⟩

/-- Where the kernel and the heap decide by sizes alone, an arena whose strategies belong to one
family and never end the process is seen to do the same with all settings of the diagnostic
switches. -/
theorem story_transparent (hsize : environment.BySize) {strategies : Strategies}
    (consistent : strategies.IsConsistent) (quiet : strategies.Quiet) (machine : Machine)
    (capacity : Nat) (operations : List Operation) (diagnostics diagnostics' : Diagnostics) :
    story environment machine capacity strategies diagnostics operations =
      story environment machine capacity strategies diagnostics' operations := by
  rcases create_cases capacity strategies environment machine with
    ⟨reason, stopped, herror⟩ | ⟨size, region, middle, after, -, -, -, hok⟩
  · simp only [story, herror]
  · have htwins := create_twins hsize consistent quiet (hok diagnostics') (hok diagnostics)
    simp only [story, hok, htwins.history hsize operations]
    rfl

end PagedAlloc.Arena

namespace PagedAlloc.Arena

open Procedure

attribute [local instance] Size.Paging.common

theorem story_transparent_when_refused :
    let environment : Environment := { Environment.ordinary with
      grantsPages := fun _ length => 0 < length && length ≤ 8192
      grantsHeap := fun _ size _ => size ≤ 8192 }
    let operations : List Operation :=
      [.push (.zeroes 5000), .begin, .add (.text "lost"), .add (.zeroes 5000), .commit,
        .truncate ⟨32⟩, .shrink, .read ⟨16⟩ (.bytes 8)]
    (story environment .fresh 32 .pages .off operations).toOption.map (List.map Glimpse.capacity) =
        some [4096, 8192, 8192, 8192, 8192, 8192, 8192, 4096, 4096, 4096] ∧
      story environment .fresh 32 .pages ⟨true, true⟩ operations =
        story environment .fresh 32 .pages .off operations := by
  intro environment operations
  have hsize : environment.BySize := by
    refine ⟨fun _ _ _ => rfl, fun _ _ _ _ => rfl, fun _ _ _ length hgrant => ?_⟩
    have hrange : 0 < length ∧ length ≤ 8192 := by simpa [environment] using hgrant
    show (decide (0 < length) && decide (length < 1 <<< 60)) = true
    have hlimit : 8192 < 1 <<< 60 := by decide
    simp only [Bool.and_eq_true, decide_eq_true_eq]
    omega
  exact ⟨by decide +kernel,
    story_transparent hsize (by decide) ⟨rfl, rfl⟩ .fresh 32 operations ⟨true, true⟩ .off⟩

end PagedAlloc.Arena
