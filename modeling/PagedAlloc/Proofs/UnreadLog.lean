import PagedAlloc.Proofs.FixedSessions
import PagedAlloc.Proofs.LiveRegions
import PagedAlloc.Proofs.Mirrors

/-!
# The log is not read

A procedure respects a relation if related states give the same result and lead to related states
(`Procedure.Respects`). Requests for pages respect having the same books (`Machine.SameBooks`), since
they log what they do but read no log. So do all calls of a fixed list (`FixedList.Call.respects`),
whatever list it is and whatever a call names, and so do runs of them
(`FixedList.moves_respect`).
-/

namespace PagedAlloc

variable {paging : Size.Paging}

/-- Machines with the same books, beside the same allocator. -/
structure SameButLog {τ : Type} (state state' : Machine × τ) : Prop where
  machine : state.1.SameBooks state'.1
  own : state'.2 = state.2

namespace Procedure

variable {σ τ α β : Type}

/-- Related states give the same result and leave related states behind. -/
structure Respects (relation : σ → σ → Prop) (procedure : Procedure σ α) : Prop where
  result : ∀ environment {state state'}, relation state state' →
    (procedure environment state').1 = (procedure environment state).1
  related : ∀ environment {state state'}, relation state state' →
    relation (procedure environment state).2 (procedure environment state').2

namespace Respects

variable {relation : σ → σ → Prop} {procedure : Procedure σ α} {next : α → Procedure σ β}

theorem pure (value : α) : Respects relation (Pure.pure value : Procedure σ α) :=
  ⟨fun _ _ _ _ => rfl, fun _ _ _ h => h⟩

/-- A procedure that stops at once stops in every state. -/
theorem stop (reason : Stop) : Respects relation (Procedure.stop reason : Procedure σ α) :=
  ⟨fun _ _ _ _ => rfl, fun _ _ _ h => h⟩

/-- Steps that respect a relation make a procedure that respects it. -/
theorem bind (h : Respects relation procedure) (hnext : ∀ value, Respects relation (next value)) :
    Respects relation (procedure >>= next) := by
  have hboth : ∀ environment {state state'}, relation state state' →
      ((procedure >>= next) environment state').1 = ((procedure >>= next) environment state).1 ∧
        relation ((procedure >>= next) environment state).2
          ((procedure >>= next) environment state').2 := by
    intro environment state state' hstates
    have hresult := h.result environment hstates
    have hrelated := h.related environment hstates
    rw [bind_apply, bind_apply]
    generalize procedure environment state = run at hresult hrelated ⊢
    generalize procedure environment state' = run' at hresult hrelated ⊢
    obtain ⟨result, after⟩ := run
    obtain ⟨result', after'⟩ := run'
    obtain rfl : result' = result := hresult
    cases result' with
    | error reason => exact ⟨rfl, hrelated⟩
    | ok value =>
      exact ⟨(hnext value).result environment hrelated, (hnext value).related environment hrelated⟩
  exact ⟨fun environment _ _ hstates => (hboth environment hstates).1,
    fun environment _ _ hstates => (hboth environment hstates).2⟩

/-- Answers made from what respects a relation respect it. -/
theorem map (h : Respects relation procedure) (answer : α → β) :
    Respects relation (answer <$> procedure) := by
  refine ⟨fun environment state state' hstates => ?_, fun environment state state' hstates => ?_⟩
  · rw [map_apply _ answer rfl, map_apply _ answer rfl, h.result environment hstates]
  · rw [map_state, map_state]
    exact h.related environment hstates

/-- Conditions that do not read the state respect every relation. -/
theorem ensure (condition : Prop) [Decidable condition] (fault : Fault) :
    Respects relation (Procedure.ensure condition fault) := by
  rw [Procedure.ensure]
  split
  · exact pure ()
  · exact stop _

theorem checked (value : Except Fault α) : Respects relation (Procedure.checked value) := by
  cases value with
  | error fault => exact stop _
  | ok value => exact pure value

theorem orFail (failure : Failure) (value : Option α) :
    Respects relation (Procedure.orFail failure value) := by
  cases value with
  | none => exact stop _
  | some value => exact pure value

/-- The environment is the same in related states. -/
theorem environment : Respects relation (Procedure.environment : Procedure σ Environment) :=
  ⟨fun _ _ _ _ => rfl, fun _ _ _ h => h⟩

/-- A change respects the relations that it preserves. -/
theorem modify {change : σ → σ}
    (h : ∀ {state state'}, relation state state' → relation (change state) (change state')) :
    Respects relation (Procedure.modify change) :=
  ⟨fun _ _ _ _ => rfl, fun _ _ _ hstates => h hstates⟩

/-- What goes on from the state does the same in related states. -/
theorem get_bind {next : σ → Procedure σ β}
    (same : ∀ {state state'}, relation state state' → next state' = next state)
    (h : ∀ state, Respects relation (next state)) :
    Respects relation (get >>= next) := by
  refine ⟨fun environment state state' hstates => ?_, fun environment state state' hstates => ?_⟩
  · rw [bind_apply_ok _ _ (get_apply ..), bind_apply_ok _ _ (get_apply ..), same hstates]
    exact (h state).result environment hstates
  · rw [bind_apply_ok _ _ (get_apply ..), bind_apply_ok _ _ (get_apply ..), same hstates]
    exact (h state).related environment hstates

/-- What is owned is the same whatever was logged. -/
theorem own : Respects SameButLog (Procedure.own : Procedure (Machine × τ) τ) :=
  ⟨fun _ _ _ h => congrArg Except.ok h.own, fun _ _ _ h => h⟩

theorem modifyOwn (change : τ → τ) : Respects SameButLog (Procedure.modifyOwn change) :=
  modify fun h => ⟨h.machine, congrArg change h.own⟩

/-- What respects the same books respects them beside what is owned, too. -/
theorem ask {procedure : Procedure Machine α} (h : Respects Machine.SameBooks procedure) :
    Respects (SameButLog (τ := τ)) (Procedure.ask procedure) :=
  ⟨fun environment _ _ hstates => h.result environment hstates.machine,
    fun environment _ _ hstates => ⟨h.related environment hstates.machine, hstates.own⟩⟩

/-- Logging leaves the books as they are. -/
theorem emit (event : Event) : Respects Machine.SameBooks (Procedure.emit event) :=
  modify fun h => ⟨h.ledger, h.strays⟩

theorem note (event : Event) :
    Respects (SameButLog (τ := τ)) (Procedure.note event) :=
  ask (emit event)

end Respects

end Procedure

open Procedure

/-! ## Requests for pages -/

/-- Where something is placed is told by the books. -/
theorem Machine.claim_respects (align length : Nat) (origin : Origin) :
    Respects SameBooks (claim align length origin) := by
  refine ⟨fun environment machine machine' h => ?_, fun environment machine machine' h => ?_⟩
  · rw [claim, claim, h.ledger]
  · exact ⟨by simp only [claim, h.ledger], h.strays⟩

/-- Whether a call names something live is told by the books. -/
theorem Machine.countStray_respects (known : Bool) : Respects SameBooks (countStray known) := by
  refine .modify fun h => ?_
  cases known with
  | false => exact ⟨h.ledger, congrArg (· + 1) h.strays⟩
  | true => exact h

/-- Whether pages are mapped, and where, is told by the books. -/
theorem Pages.serve_respects (request : MapRequest) :
    Respects Machine.SameBooks (serve request) := by
  refine .bind (.ensure ..) fun _ => ?_
  split
  · exact .pure _
  refine .bind .environment fun environment => .get_bind (fun h => by rw [h.ledger]) fun machine => ?_
  split
  · exact .bind (Machine.claim_respects ..) fun _ => .bind (.emit _) fun _ => .pure _
  · exact .bind (.emit _) fun _ => .pure _

theorem Pages.map_respects (size : Nat) : Respects Machine.SameBooks (map size) := by
  unfold map
  split
  · exact serve_respects _
  · exact .pure _

/-- Whether pages are given back is told by the books. -/
theorem Pages.unmap_respects (address length : Nat) :
    Respects Machine.SameBooks (unmap address length) := by
  refine .bind (.ensure ..) fun _ => .bind (.emit _) fun _ => .bind .environment fun environment =>
    .get_bind (fun h => by rw [h.ledger]) fun machine => ?_
  exact .bind (Machine.countStray_respects _) fun _ => .bind (.ensure ..) fun _ =>
    .modify fun h => ⟨congrArg (·.withoutPages address (address + length)) h.ledger, h.strays⟩

/-! ## Fixed lists -/

namespace FixedList

/-- A chunk is changed without a look at the machine. -/
theorem updateChunk_respects (address : Nat) (step : FixedChunk → Except Fault FixedChunk) :
    Respects SameButLog (updateChunk address step) := by
  refine .bind .own fun list => ?_
  split
  · exact .stop _
  · exact .bind (.checked _) fun _ => .modifyOwn _

/-- A list is extended by the pages that the books lead to. -/
theorem extend_respects : Respects SameButLog extend :=
  .bind .own fun _ => .bind (.ask (Pages.map_respects _)) fun _ => .bind (.orFail ..) fun _ =>
    .bind (.modifyOwn _) fun _ => .bind (updateChunk_respects ..) fun _ => .bind .own fun _ =>
      .bind (.note _) fun _ => .pure _

theorem take_respects (address offset : Nat) : Respects SameButLog (take address offset) :=
  .bind .own fun _ => .bind (updateChunk_respects ..) fun _ => .bind (.modifyOwn _) fun _ => .pure _

/-- Allocating reads no log. -/
theorem allocate_respects (size : Nat) : Respects SameButLog (allocate size) := by
  have hend : ∀ chunk offset, Respects SameButLog (do
      let address ← take chunk offset
      note (.fixedTaken address)
      return address) := fun _ _ =>
    .bind (take_respects ..) fun _ => .bind (.note _) fun _ => .pure _
  refine .bind .own fun list => ?_
  split
  · exact .stop _
  dsimp only
  split
  · exact .bind (.pure _) fun _ => hend ..
  · split
    · exact .bind extend_respects fun _ => .bind (.pure _) fun _ => hend ..
    · exact .bind (.note _) fun _ => .bind (.stop _) fun _ => hend ..

/-- Freeing reads no log. -/
theorem free_respects (address : Nat) : Respects SameButLog (free address) := by
  refine .bind .own fun list => ?_
  split
  · exact .stop _
  · exact .bind (.ensure ..) fun _ => .bind (.ensure ..) fun _ =>
      .bind (updateChunk_respects ..) fun _ => .bind (.checked _) fun _ =>
        .bind (.modifyOwn _) fun _ => .note _

/-- Clearing reads no log. -/
theorem clear_respects : Respects SameButLog clear := by
  have heach : ∀ addresses, Respects SameButLog (freeEach addresses) := by
    intro addresses
    induction addresses with
    | nil => exact .pure _
    | cons address rest ih => exact .bind (updateChunk_respects ..) fun _ => ih
  exact .bind .own fun _ => .bind (heach _) fun _ => .modifyOwn _

/-- Writing reads no log. -/
theorem write_respects (address offset : Nat) (content : Stretch FreeLink) :
    Respects SameButLog (write address offset content) := by
  refine .bind .own fun list => ?_
  split
  · exact .stop _
  · exact updateChunk_respects ..

/-- Every call does the same whatever was logged before. -/
theorem Call.respects (call : Call) : Respects SameButLog call.run := by
  cases call with
  | allocate size => exact .map (allocate_respects _) _
  | free address => exact .map (free_respects _) _
  | clear => exact .map clear_respects _
  | write address offset content => exact .map (write_respects ..) _

/-- Giving a list back reads no log. -/
theorem release_respects : Respects SameButLog release := by
  have heach : ∀ addresses, Respects SameButLog (releaseEach addresses) := by
    intro addresses
    induction addresses with
    | nil => exact .pure _
    | cons address rest ih =>
      refine .bind .own fun list => ?_
      split
      · exact .stop _
      · exact .bind (.modifyOwn _) fun _ => .bind (.ask (Pages.unmap_respects ..)) fun _ => ih
  exact .bind .own fun _ => .bind (.note _) fun _ => heach _

/-- Runs of calls, with the use of the machine by others in between, give the same answers whatever
was logged before. -/
theorem moves_respect (steps : List (Move Call)) {state state' : Machine × FixedList}
    (h : SameButLog state state') :
    (moves Call.run steps state').1 = (moves Call.run steps state).1 ∧
      SameButLog (moves Call.run steps state).2 (moves Call.run steps state').2 := by
  induction steps generalizing state state' with
  | nil => exact ⟨rfl, h⟩
  | cons step rest ih =>
    cases step with
    | call environment call =>
      obtain ⟨hanswers, hlast⟩ := ih (call.respects.related environment h)
      exact ⟨congrArg₂ List.cons (call.respects.result environment h) hanswers, hlast⟩
    | others machine => exact ih ⟨.refl machine, h.own⟩

end FixedList

end PagedAlloc
