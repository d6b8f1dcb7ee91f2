import PagedAlloc.Proofs.Procedures

/-!
# Mirrored procedures

An allocator and a simpler one are compared through a view, which makes what the simpler one owns
from what the other owns. A procedure is mirrored in a state if its mirror, run on the view, gives
the same result and leaves the same machine and the view of what is left. Mirrored procedures compose
(`Mirrored.bind`), and what happens between an allocator and the rest of the world is a list of moves
that both can make (`moves`).
-/

namespace PagedAlloc

namespace Procedure

variable {σ τ α β : Type}

/-- The mirror gives the same result, and leaves the same machine and the view of what is left. -/
def Mirrored (view : σ → τ) (environment : Environment) (machine : Machine) (own : σ)
    (procedure : Procedure (Machine × σ) α) (mirror : Procedure (Machine × τ) α) : Prop :=
  ∃ result machine' own', procedure environment (machine, own) = (result, machine', own') ∧
    mirror environment (machine, view own) = (result, machine', view own')

namespace Mirrored

variable {view : σ → τ} {environment : Environment} {machine machine' : Machine} {own own' : σ}
  {procedure procedure' : Procedure (Machine × σ) α} {mirror mirror' : Procedure (Machine × τ) α}

/-- Procedures that go on as mirrored ones do are mirrored. -/
theorem of_eq (h : Mirrored view environment machine' own' procedure' mirror')
    (hrun : procedure environment (machine, own) = procedure' environment (machine', own'))
    (hmirror : mirror environment (machine, view own) =
      mirror' environment (machine', view own')) :
    Mirrored view environment machine own procedure mirror := by
  rwa [Mirrored, hrun, hmirror]

theorem of_value (environment : Environment) (machine : Machine) (own : σ) (value : α) :
    Mirrored view environment machine own (pure value) (pure value) :=
  ⟨_, _, _, rfl, rfl⟩

/-- Procedures that stop at once for the same reason mirror each other. -/
theorem of_stop (environment : Environment) (machine : Machine) (own : σ) (reason : Stop) :
    Mirrored view environment machine own (stop reason : Procedure _ α) (stop reason) :=
  ⟨_, _, _, rfl, rfl⟩

/-- Mirrored steps make a mirrored procedure. -/
theorem bind (h : Mirrored view environment machine own procedure mirror)
    {next : α → Procedure (Machine × σ) β} {next' : α → Procedure (Machine × τ) β}
    (rest : ∀ value machine' own',
      procedure environment (machine, own) = (.ok value, machine', own') →
        Mirrored view environment machine' own' (next value) (next' value)) :
    Mirrored view environment machine own (procedure >>= next) (mirror >>= next') := by
  obtain ⟨result, machine', own', hrun, hmirror⟩ := h
  cases result with
  | error reason => exact ⟨_, _, _, bind_apply_error _ _ hrun, bind_apply_error _ _ hmirror⟩
  | ok value =>
    exact (rest value machine' own' hrun).of_eq (bind_apply_ok _ _ hrun) (bind_apply_ok _ _ hmirror)

/-- What is done about the machine alone is mirrored by itself. -/
theorem ask (procedure : Procedure Machine α) :
    Mirrored view environment machine own (Procedure.ask procedure) (Procedure.ask procedure) :=
  ⟨_, _, _, rfl, rfl⟩

/-- A checked value that does not depend on what is owned is mirrored by itself. -/
theorem checked (value : Except Fault α) :
    Mirrored view environment machine own (Procedure.checked value) (Procedure.checked value) := by
  cases value <;> exact ⟨_, _, _, rfl, rfl⟩

theorem orFail (failure : Failure) (value : Option α) :
    Mirrored view environment machine own (Procedure.orFail failure value)
      (Procedure.orFail failure value) := by
  cases value <;> exact ⟨_, _, _, rfl, rfl⟩

section First

/-! The rest of a procedure after a first step that both take in the same way. -/

variable {next : α → Procedure (Machine × σ) β} {next' : α → Procedure (Machine × τ) β}

/-- Both look at what they own: the mirror sees the view of it. -/
theorem own_bind {next : σ → Procedure (Machine × σ) β} {next' : τ → Procedure (Machine × τ) β}
    (rest : Mirrored view environment machine own (next own) (next' (view own))) :
    Mirrored view environment machine own (Procedure.own >>= next) (Procedure.own >>= next') :=
  rest.of_eq (bind_apply_ok _ _ (own_apply ..)) (bind_apply_ok _ _ (own_apply ..))

/-- Both change what they own, in ways that agree under the view. -/
theorem modifyOwn_bind {change : σ → σ} {change' : τ → τ}
    {next : Unit → Procedure (Machine × σ) β} {next' : Unit → Procedure (Machine × τ) β}
    (h : view (change own) = change' (view own))
    (rest : Mirrored view environment machine (change own) (next ()) (next' ())) :
    Mirrored view environment machine own (Procedure.modifyOwn change >>= next)
      (Procedure.modifyOwn change' >>= next') :=
  rest.of_eq (bind_apply_ok _ _ (modifyOwn_apply ..)) <| by
    rw [bind_apply_ok _ _ (modifyOwn_apply ..), h]

/-- Both do the same about the machine, and go on with the same value. -/
theorem ask_bind {procedure : Procedure Machine α}
    (rest : ∀ value machine', procedure environment machine = (.ok value, machine') →
      Mirrored view environment machine' own (next value) (next' value)) :
    Mirrored view environment machine own (Procedure.ask procedure >>= next)
      (Procedure.ask procedure >>= next') := by
  rcases hrun : procedure environment machine with ⟨reason | value, machine'⟩
  · exact (of_stop environment machine' own reason).of_eq
      (bind_apply_error _ _ (ask_apply _ hrun _)) (bind_apply_error _ _ (ask_apply _ hrun _))
  · exact (rest value machine' hrun).of_eq
      (bind_apply_ok _ _ (ask_apply _ hrun _)) (bind_apply_ok _ _ (ask_apply _ hrun _))

theorem checked_bind {value : Except Fault α}
    (rest : ∀ found, value = .ok found →
      Mirrored view environment machine own (next found) (next' found)) :
    Mirrored view environment machine own (Procedure.checked value >>= next)
      (Procedure.checked value >>= next') := by
  cases value with
  | error fault => exact ⟨_, _, _, rfl, rfl⟩
  | ok found =>
    exact (rest found rfl).of_eq (bind_apply_ok _ _ (checked_ok ..))
      (bind_apply_ok _ _ (checked_ok ..))

theorem orFail_bind {failure : Failure} {value : Option α}
    (rest : ∀ found, value = some found →
      Mirrored view environment machine own (next found) (next' found)) :
    Mirrored view environment machine own (Procedure.orFail failure value >>= next)
      (Procedure.orFail failure value >>= next') := by
  cases value with
  | none => exact ⟨_, _, _, rfl, rfl⟩
  | some found =>
    exact (rest found rfl).of_eq (bind_apply_ok _ _ (orFail_some ..))
      (bind_apply_ok _ _ (orFail_some ..))

/-- Both insist on the same condition, and may rely on it afterwards. -/
theorem ensure_bind {condition : Prop} [Decidable condition] {fault : Fault}
    {next : Unit → Procedure (Machine × σ) β} {next' : Unit → Procedure (Machine × τ) β}
    (rest : condition → Mirrored view environment machine own (next ()) (next' ())) :
    Mirrored view environment machine own (Procedure.ensure condition fault >>= next)
      (Procedure.ensure condition fault >>= next') := by
  by_cases h : condition
  · exact (rest h).of_eq (bind_apply_ok _ _ (ensure_apply _ h ..))
      (bind_apply_ok _ _ (ensure_apply _ h ..))
  · exact (of_stop environment machine own (.fault fault)).of_eq
      (bind_apply_error _ _ (ensure_apply_not _ h ..))
      (bind_apply_error _ _ (ensure_apply_not _ h ..))

end First

/-- Answers made from mirrored results are mirrored. -/
theorem map (h : Mirrored view environment machine own procedure mirror) (answer : α → β) :
    Mirrored view environment machine own (answer <$> procedure) (answer <$> mirror) := by
  obtain ⟨result, machine', own', hrun, hmirror⟩ := h
  exact ⟨_, _, _, map_apply _ answer hrun, map_apply _ answer hmirror⟩

end Mirrored

end Procedure

/-! ## Runs -/

/-- What happens between an allocator and the rest of the world: a call, or the use of the machine by
others. -/
inductive Move (κ : Type) where
  | call (environment : Environment) (call : κ)
  | others (machine : Machine)

/-- The answers to the calls among some moves, and what the moves leave behind. -/
def Procedure.moves {κ σ α : Type} (perform : κ → Procedure (Machine × σ) α) :
    List (Move κ) → Machine × σ → List (Except Stop α) × Machine × σ
  | [], state => ([], state)
  | .call environment call :: rest, state =>
    let (answer, after) := perform call environment state
    let (answers, last) := moves perform rest after
    (answer :: answers, last)
  | .others machine :: rest, state => moves perform rest (machine, state.2)

end PagedAlloc
