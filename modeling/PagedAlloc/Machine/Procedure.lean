import PagedAlloc.Machine.Environment
import PagedAlloc.Machine.Event
import PagedAlloc.Size

/-!
# Procedures

A procedure runs in an environment and on a state. It gives a value, or stops with a failure or a
fault; in each case it leaves a state behind, so what was done before a stop stays done.

The state of an allocator is a pair: the machine, and what the allocator itself owns. Procedures of
the machine alone are lifted to such pairs. -/

namespace PagedAlloc

/-- The machine that allocators share. -/
structure Machine where
  /-- The live regions. -/
  ledger : Ledger
  /-- Requests so far that named no live region of the length they gave. -/
  strays : Nat
  /-- The logged events, the latest first. -/
  log : List Event
  deriving Repr

/-- A machine that has granted nothing yet. -/
def Machine.fresh : Machine := ⟨[], 0, []⟩

/-- A computation on states of type `σ` that may stop early. -/
def Procedure (σ α : Type) : Type := Environment → σ → Except Stop α × σ

namespace Procedure

/-- Gives a value and leaves the state as it is. -/
protected def pure (value : α) : Procedure σ α := fun _ state => (.ok value, state)

/-- Runs one procedure and then the next, unless the first one stops. -/
protected def bind (procedure : Procedure σ α) (next : α → Procedure σ β) : Procedure σ β :=
  fun environment state =>
    match procedure environment state with
    | (.ok value, after) => next value environment after
    | (.error stop, after) => (.error stop, after)

instance : Monad (Procedure σ) where
  pure := Procedure.pure
  bind := Procedure.bind

/-- Stops. -/
def stop (reason : Stop) : Procedure σ α := fun _ state => (.error reason, state)

/-- Stops because a request was not served. -/
def fail (failure : Failure) : Procedure σ α := stop (.failure failure)

/-- Stops because a promise was broken. -/
def crash (fault : Fault) : Procedure σ α := stop (.fault fault)

/-- Goes on only if a condition holds. -/
def ensure (condition : Prop) [Decidable condition] (fault : Fault) : Procedure σ Unit :=
  if condition then pure () else crash fault

/-- The value of a checked computation, or its fault. -/
def checked : Except Fault α → Procedure σ α
  | .ok value => pure value
  | .error fault => crash fault

/-- The value if there is one, or else a failure. -/
def orFail (failure : Failure) : Option α → Procedure σ α
  | some value => pure value
  | none => fail failure

/-- Runs a procedure and gives its failure as a value. Faults still stop. -/
def attempt (procedure : Procedure σ α) : Procedure σ (Except Failure α) := fun environment state =>
  match procedure environment state with
  | (.ok value, after) => (.ok (.ok value), after)
  | (.error (.failure failure), after) => (.ok (.error failure), after)
  | (.error (.fault fault), after) => (.error (.fault fault), after)

/-- Runs a procedure and, if it stops, a second one after it. The reason of the stop is kept. -/
def cleanedBy (procedure : Procedure σ α) (cleanup : Procedure σ Unit) : Procedure σ α :=
  fun environment state =>
    match procedure environment state with
    | (.ok value, after) => (.ok value, after)
    | (.error reason, after) => (.error reason, (cleanup environment after).2)

/-- The environment. -/
def environment : Procedure σ Environment := fun environment state => (.ok environment, state)

/-- The state. -/
def get : Procedure σ σ := fun _ state => (.ok state, state)

/-- Changes the state. -/
def modify (change : σ → σ) : Procedure σ Unit := fun _ state => (.ok (), change state)

/-- Runs a procedure on a part of the state. -/
def within (part : σ → τ) (replace : τ → σ → σ) (procedure : Procedure τ α) : Procedure σ α :=
  fun environment state =>
    let (result, after) := procedure environment (part state)
    (result, replace after state)

/-- Runs a procedure of the machine beside what an allocator owns. -/
def ask (procedure : Procedure Machine α) : Procedure (Machine × τ) α :=
  within Prod.fst (fun after state => (after, state.2)) procedure

/-- What the allocator owns. -/
def own : Procedure (Machine × τ) τ := fun _ state => (.ok state.2, state)

/-- Changes what the allocator owns. -/
def modifyOwn (change : τ → τ) : Procedure (Machine × τ) Unit :=
  modify fun (machine, own) => (machine, change own)

/-- Completes an allocator that so far owns `start`, and gives what it owns then. -/
def making (start : τ) (procedure : Procedure (Machine × τ) α) : Procedure Machine τ :=
  fun environment machine =>
    let (result, after, own) := procedure environment (machine, start)
    (result.map fun _ => own, after)

/-- Logs an event of the machine. -/
def emit (event : Event) : Procedure Machine Unit :=
  modify fun machine => { machine with log := event :: machine.log }

/-- Logs an event of an allocator. -/
def note (event : Event) : Procedure (Machine × τ) Unit := ask (emit event)

section Equations

variable (environment : Environment) (state : σ)

@[simp]
theorem pure_apply (value : α) :
    (pure value : Procedure σ α) environment state = (.ok value, state) := rfl

theorem bind_apply (procedure : Procedure σ α) (next : α → Procedure σ β) :
    (procedure >>= next) environment state =
      match procedure environment state with
      | (.ok value, after) => next value environment after
      | (.error stop, after) => (.error stop, after) := rfl

theorem bind_apply_ok {procedure : Procedure σ α} {next : α → Procedure σ β} {value : α} {after : σ}
    (h : procedure environment state = (.ok value, after)) :
    (procedure >>= next) environment state = next value environment after := by
  rw [bind_apply, h]

theorem bind_apply_error {procedure : Procedure σ α} {next : α → Procedure σ β} {reason : Stop}
    {after : σ} (h : procedure environment state = (.error reason, after)) :
    (procedure >>= next) environment state = (.error reason, after) := by
  rw [bind_apply, h]

@[simp]
theorem stop_apply (reason : Stop) :
    (stop reason : Procedure σ α) environment state = (.error reason, state) := rfl

@[simp]
theorem fail_apply (failure : Failure) :
    (fail failure : Procedure σ α) environment state = (.error (.failure failure), state) := rfl

@[simp]
theorem crash_apply (fault : Fault) :
    (crash fault : Procedure σ α) environment state = (.error (.fault fault), state) := rfl

@[simp]
theorem get_apply : (get : Procedure σ σ) environment state = (.ok state, state) := rfl

@[simp]
theorem modify_apply (change : σ → σ) :
    modify change environment state = (.ok (), change state) := rfl

end Equations

instance : LawfulMonad (Procedure σ) := LawfulMonad.mk' (Procedure σ)
  (by
    intro α procedure
    funext environment state
    show Procedure.bind procedure _ environment state = _
    unfold Procedure.bind
    split <;> simp_all [Procedure.pure])
  (by intros; rfl)
  (by
    intro α β γ procedure f g
    funext environment state
    show Procedure.bind (Procedure.bind procedure f) g environment state =
      Procedure.bind procedure (fun value => Procedure.bind (f value) g) environment state
    unfold Procedure.bind
    split <;> (rename_i h; split at h <;> simp_all))

end Procedure

end PagedAlloc
