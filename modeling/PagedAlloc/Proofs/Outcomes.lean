import PagedAlloc.Proofs.Procedures

/-!
# Outcomes of procedures

Two ways to speak about a procedure without running it to its end. `Yields` says what every value
that it gives is like, and leaves open whether it gives one. `Follows` relates the states before and
after it, whether it succeeds or stops. Both are shown along the steps of the procedure. `Gives` is
for checked computations what `Yields` is for procedures. A run that did come to its end is taken
apart into the runs of its steps (`bind_ok`).
-/

namespace PagedAlloc

/-- Whatever value a checked computation gives has a property. -/
structure Gives {α : Type} (result : Except Fault α) (property : α → Prop) : Prop where
  holds : ∀ {value : α}, result = .ok value → property value

namespace Gives

variable {α β : Type} {result : Except Fault α} {next : α → Except Fault β} {property : β → Prop}

theorem pure {value : β} (h : property value) : Gives (Pure.pure value) property :=
  ⟨fun heq => Except.ok.inj heq ▸ h⟩

/-- A computation that fails gives no value at all. -/
theorem error (fault : Fault) (property : β → Prop) : Gives (.error fault) property :=
  ⟨fun heq => by cases heq⟩

/-- What the first step gives is all that the next one may rely on. -/
theorem bind {between : α → Prop} (h : Gives result between)
    (hnext : ∀ value, between value → Gives (next value) property) :
    Gives (result >>= next) property := by
  cases result with
  | error fault => exact error fault property
  | ok value => exact hnext value (h.holds rfl)

/-- The last step alone may decide what is given. -/
theorem of_next (hnext : ∀ value, Gives (next value) property) :
    Gives (result >>= next) property :=
  bind (show Gives result fun _ => True from ⟨fun _ => trivial⟩) fun value _ => hnext value

end Gives

namespace Procedure

variable {σ α β : Type}

/-- Whatever value a procedure gives has a property. -/
structure Yields (procedure : Procedure σ α) (property : α → Prop) : Prop where
  holds : ∀ {environment state value after},
    procedure environment state = (.ok value, after) → property value

namespace Yields

variable {procedure : Procedure σ α} {next : α → Procedure σ β} {property : β → Prop}

theorem pure {value : α} {property : α → Prop} (h : property value) :
    Yields (Pure.pure value : Procedure σ α) property := by
  refine ⟨?_⟩
  rintro environment state _ after ⟨⟩
  exact h

/-- A procedure that stops yields nothing. -/
theorem stop (reason : Stop) (property : α → Prop) :
    Yields (Procedure.stop reason : Procedure σ α) property := by
  refine ⟨?_⟩
  rintro environment state value after ⟨⟩

/-- What the first step gives is all that the next one may rely on. -/
theorem bind {between : α → Prop} (h : Yields procedure between)
    (hnext : ∀ value, between value → Yields (next value) property) :
    Yields (procedure >>= next) property := by
  refine ⟨fun {environment state value after} hrun => ?_⟩
  rw [bind_apply] at hrun
  cases hfirst : procedure environment state with
  | mk result middle =>
    rw [hfirst] at hrun
    cases result with
    | error reason => cases hrun
    | ok first =>
      exact (hnext first (h.holds hfirst)).holds hrun

/-- The last step alone may decide what is given. -/
theorem of_next (hnext : ∀ value, Yields (next value) property) :
    Yields (procedure >>= next) property :=
  bind (show Yields procedure fun _ => True from ⟨fun _ => trivial⟩) fun value _ => hnext value

/-- A value that is insisted on is the value that was there. -/
theorem orFail (failure : Failure) (option : Option α) :
    Yields (Procedure.orFail failure option : Procedure σ α) fun value => option = some value := by
  cases option with
  | none => exact stop ..
  | some value => exact pure rfl

end Yields

/-- A procedure only makes steps of a relation, whatever comes of it. -/
structure Follows (relation : σ → σ → Prop) (procedure : Procedure σ α) : Prop where
  holds : ∀ environment state, relation state (procedure environment state).2

namespace Follows

variable {relation : σ → σ → Prop} {procedure : Procedure σ α} {next : α → Procedure σ β}

/-- A procedure that only looks at the state follows every reflexive relation. -/
theorem of_unchanged (refl : ∀ state, relation state state)
    (h : ∀ environment state, (procedure environment state).2 = state) :
    Follows relation procedure := by
  refine ⟨?_⟩
  intro environment state
  rw [h]
  exact refl state

/-- A transitive relation is followed by a procedure whose steps follow it. -/
theorem bind (trans : ∀ first second third, relation first second → relation second third →
      relation first third) (h : Follows relation procedure)
    (hnext : ∀ value, Follows relation (next value)) : Follows relation (procedure >>= next) := by
  refine ⟨?_⟩
  intro environment state
  have hfirst := h.holds environment state
  rw [bind_apply]
  cases hrun : procedure environment state with
  | mk result middle =>
    rw [hrun] at hfirst
    cases result with
    | error reason => exact hfirst
    | ok value => exact trans _ _ _ hfirst ((hnext value).holds environment middle)

/-- An attempt leaves the same state as the procedure that is attempted. -/
theorem attempt (h : Follows relation procedure) : Follows relation (Procedure.attempt procedure) := by
  refine ⟨?_⟩
  intro environment state
  have hrun := h.holds environment state
  rw [Procedure.attempt]
  split <;> rename_i heq <;> rwa [heq] at hrun

end Follows

/-! ## Runs that succeeded -/

section Succeeded

variable {τ : Type} {environment : Environment} {state after : σ} {next : α → Procedure σ β} {value : β}

/-- Both steps of a run that succeeded have succeeded. -/
theorem bind_ok {procedure : Procedure σ α}
    (hrun : (procedure >>= next) environment state = (.ok value, after)) :
    ∃ first middle, procedure environment state = (.ok first, middle) ∧
      next first environment middle = (.ok value, after) := by
  rcases hfirst : procedure environment state with ⟨reason | first, middle⟩
  · rw [bind_apply_error _ _ hfirst] at hrun
    cases hrun
  · rw [bind_apply_ok _ _ hfirst] at hrun
    exact ⟨first, middle, rfl, hrun⟩

/-- A check that passes leaves the state alone. -/
theorem of_checked_ok {result : Except Fault β}
    (hrun : checked result environment state = (.ok value, after)) :
    result = .ok value ∧ after = state := by
  cases result with
  | error fault => cases hrun
  | ok found =>
    cases hrun
    exact ⟨rfl, rfl⟩

theorem checked_bind_ok {result : Except Fault α}
    (hrun : (checked result >>= next) environment state = (.ok value, after)) :
    ∃ found, result = .ok found ∧ next found environment state = (.ok value, after) := by
  obtain ⟨found, middle, hfirst, hrun⟩ := bind_ok hrun
  obtain ⟨rfl, rfl⟩ := of_checked_ok hfirst
  exact ⟨found, rfl, hrun⟩

/-- A run that succeeded has found what it insists on. -/
theorem orFail_bind_ok {failure : Failure} {option : Option α}
    (hrun : (orFail failure option >>= next) environment state = (.ok value, after)) :
    ∃ found, option = some found ∧ next found environment state = (.ok value, after) := by
  cases option with
  | none =>
    rw [bind_apply_error _ _ (orFail_none ..)] at hrun
    cases hrun
  | some found =>
    rw [bind_apply_ok _ _ (orFail_some ..)] at hrun
    exact ⟨found, rfl, hrun⟩

/-- The condition that a run insists on holds if the run succeeds. -/
theorem ensure_bind_ok {condition : Prop} [Decidable condition] {fault : Fault}
    {next : Unit → Procedure σ β}
    (hrun : (ensure condition fault >>= next) environment state = (.ok value, after)) :
    condition ∧ next () environment state = (.ok value, after) := by
  by_cases hcondition : condition
  · rw [bind_apply_ok _ _ (ensure_apply _ hcondition _ _)] at hrun
    exact ⟨hcondition, hrun⟩
  · rw [bind_apply_error _ _ (ensure_apply_not _ hcondition _ _)] at hrun
    cases hrun

/-- What the machine is asked for leaves what the allocator owns. -/
theorem ask_bind_ok {procedure : Procedure Machine α} {next : α → Procedure (Machine × τ) β}
    {machine : Machine} {own : τ} {after : Machine × τ}
    (hrun : (ask procedure >>= next) environment (machine, own) = (.ok value, after)) :
    ∃ found machine', procedure environment machine = (.ok found, machine') ∧
      next found environment (machine', own) = (.ok value, after) := by
  rcases hask : procedure environment machine with ⟨reason | found, machine'⟩
  · rw [bind_apply_error _ _ (ask_apply _ hask _)] at hrun
    cases hrun
  · rw [bind_apply_ok _ _ (ask_apply _ hask _)] at hrun
    exact ⟨found, machine', rfl, hrun⟩

end Succeeded

end Procedure

end PagedAlloc
