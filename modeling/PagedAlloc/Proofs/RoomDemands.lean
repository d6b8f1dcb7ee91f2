import PagedAlloc.Proofs.KeptBytes
import PagedAlloc.Proofs.Lockstep
import PagedAlloc.Proofs.Ownership

/-!
# Demands for room

Whatever an operation other than shrinking asks of the buffer of an arena, it asks for by adding
cells, or for room only. So an operation comes down to a list of demands
(`Arena.Operation.demands`) that are met one behind the other (`Arena.meet`); what else it does
leaves the buffer where it is (`Arena.Sits`, `Arena.Reachable.run_sits`). An addition is just the
meeting of its demands, unless it is refused before it demands anything
(`Arena.Addition.run_cases`).
-/

namespace PagedAlloc.Arena

variable {paging : Size.Paging}

open Procedure

/-- Something that needs room behind the bytes in use. -/
inductive Demand where
  /-- Room and nothing else. -/
  | room (additional : Nat)
  /-- Cells that are added to the build in progress. -/
  | cells (content : Stretch Empty)

/-- How many bytes more are needed. -/
def Demand.size : Demand → Nat
  | room additional => additional
  | cells content => content.length

/-- How a demand is met. -/
def Demand.run [Size.Paging] : Demand → Procedure (Machine × Arena) Unit
  | room additional => makeRoom additional
  | cells content => Arena.add content

/-- Meets demands one behind the other, up to the first one that is not met. -/
def meet [Size.Paging] : List Demand → Procedure (Machine × Arena) Unit
  | [] => return
  | demand :: rest => do
    demand.run
    meet rest

/-- A length and the content behind it, unless the content is too long for the length. -/
def prefixedDemands (content : Stretch Empty) : List Demand :=
  if IntegerType.lengthPrefix.modulus ≤ content.length then []
  else [.cells (Stretch.ofBytes (IntegerType.lengthPrefix.encode content.length)), .cells content]

/-- What an addition demands of an arena of this length. -/
def Addition.demands (length : Nat) : Addition → List Demand
  | bytes values => [.cells (Stretch.ofBytes values)]
  | zeroes count => [.cells (Stretch.zeros count)]
  | align alignment =>
    if Size.IsPowerOfTwo alignment ∧ length + alignment < Size.limit then
      [.cells (Stretch.zeros ((alignment - length % alignment) % alignment))]
    else []
  | integer type value => [.cells (Stretch.ofBytes (type.encode value))]
  | pointer address => [.cells (Stretch.ofBytes (IntegerType.word.encode address))]
  | terminated value => [.cells (Stretch.ofBytes (utf8 value ++ [0]))]
  | prefixed content => prefixedDemands content
  | text value => prefixedDemands (Stretch.ofBytes (utf8 value))

/-- What an operation demands. -/
def Operation.demands (arena : Arena) : Operation → List Demand
  | reserve additional => if arena.build = none then [.room additional] else []
  | add addition => addition.demands arena.length
  | push addition => if arena.build = none then addition.demands arena.length else []
  | shrink | truncate _ | clear | begin | commit | abandon | read _ _ | overwrite _ _ => []

/-- The arena of which an operation demands it: a push begins its build before. -/
def Operation.entered (arena : Arena) : Operation → Arena
  | push _ => { arena with build := some ⟨arena.length, none⟩ }
  | reserve _ | shrink | truncate _ | clear | begin | commit | abandon | add _ | read _ _
  | overwrite _ _ => arena

/-- The books are the same, and an arena has the same settings and the same buffer, with whatever
contents. -/
structure Sits (before after : Machine × Arena) : Prop where
  books : before.1.SameBooks after.1
  buffer : SameBuffer before.2 after.2
  held : after.2.region.memory.length = before.2.region.memory.length

variable {environment : Environment} {machine : Machine} {arena : Arena} {addition : Addition}
  {before after : Machine × Arena} {others : Ledger}

/-! ## The same buffer -/

/-- A buffer that is left alone sits where it was. -/
theorem Still.sits (h : Still before after) : Sits before after where
  books := h.books
  buffer :=
    ⟨congrArg Region.address h.region, congrArg Region.length h.region, h.strategies, h.diagnostics⟩
  held := congrArg (fun region => region.memory.length) h.region

theorem Sits.trans {last : Machine × Arena} (h : Sits before after) (h' : Sits after last) :
    Sits before last where
  books := h.books.trans h'.books
  buffer := h.buffer.trans h'.buffer
  held := h'.held.trans h.held

/-- Who owns a buffer owns it with any contents. -/
theorem Sits.owns (h : Sits before after) (owns : Owns before others) : Owns after others := by
  refine ⟨h.buffer.strategies ▸ owns.consistent, ?_⟩
  rw [h.buffer.capacity, h.buffer.strategies]
  refine ⟨h.books.holds ?_, h.held ▸ owns.live.spans⟩
  rw [Region.holding, h.buffer.address, h.held]
  exact owns.live.holds

/-- Other contents leave a buffer where it is. -/
theorem sits_write (machine : Machine) (arena : Arena) (offset : Nat) (content : Stretch Empty)
    (length : Nat) :
    Sits (machine, arena) (machine, { arena with
      region := { arena.region with memory := arena.region.memory.write offset content }
      length := length }) :=
  ⟨.refl _, ⟨rfl, rfl, rfl, rfl⟩, Memory.length_write ..⟩

/-- A build that begins leaves the buffer where it is. -/
theorem sits_begun (machine : Machine) (arena : Arena) :
    Sits (machine, arena) (machine, { arena with build := some ⟨arena.length, none⟩ }) :=
  ⟨.refl _, ⟨rfl, rfl, rfl, rfl⟩, rfl⟩

/-- What an operation does before its first demand does not touch the buffer. -/
theorem Operation.sits_entered (operation : Operation) (machine : Machine) (arena : Arena) :
    Sits (machine, arena) (machine, operation.entered arena) := by
  cases operation with
  | push addition => exact sits_begun machine arena
  | _ => exact (Still.refl _).sits

/-! ## Meeting demands -/

theorem meet_singleton (demand : Demand) : meet [demand] = demand.run :=
  bind_pure_unit

/-- Adding to a build that has not failed is making room and writing there. What is not granted
marks the build. -/
theorem add_building [Size.Paging] {start : Nat} (hbuild : arena.build = some ⟨start, none⟩)
    (content : Stretch Empty) (environment : Environment) (machine : Machine) :
    add content environment (machine, arena) =
      match makeRoom content.length environment (machine, arena) with
      | (.ok (), middle, roomy) => (.ok (), middle, { roomy with
          region := { roomy.region with memory := roomy.region.memory.write roomy.length content }
          length := roomy.length + content.length })
      | (.error (.failure failure), state) => refuse failure environment state
      | (.error (.fault fault), state) => (.error (.fault fault), state) := by
  rw [add, bind_apply_ok _ _ (own_apply ..)]
  simp only [hbuild]
  cases hrun : makeRoom content.length environment (machine, arena) with
  | mk outcome state =>
    cases outcome with
    | ok =>
      rw [bind_apply_ok _ _ (attempt_ok _ hrun)]
      rfl
    | error reason =>
      cases reason with
      | failure failure => exact bind_apply_ok _ _ (attempt_failure _ hrun)
      | fault fault => exact bind_apply_error _ _ (attempt_fault _ hrun)

/-- An alignment that can be added to the length adds its padding. Any other one is stopped, and so
is what is no alignment. -/
theorem addAlign_meets (alignment : Nat) (environment : Environment) (machine : Machine)
    (arena : Arena) :
    (∃ padding, (Addition.align alignment).demands arena.length = [.cells padding] ∧
        addAlign alignment environment (machine, arena) =
          add padding environment (machine, arena)) ∨
      (Addition.align alignment).demands arena.length = [] ∧ ∃ fault,
        addAlign alignment environment (machine, arena) =
          (.error (.fault fault), machine, arena) := by
  by_cases hpower : Size.IsPowerOfTwo alignment
  · rw [addAlign, bind_apply_ok _ _ (ensure_apply _ hpower _ _), bind_apply_ok _ _ (own_apply ..)]
    by_cases hsum : arena.length + alignment < Size.limit
    · obtain ⟨hpadding, hle⟩ := padding_eq hpower.1 arena.length
      refine Or.inl ⟨_, if_pos ⟨hpower, hsum⟩, ?_⟩
      rw [Size.roundUp_of_fits hpower.1 hsum, bind_apply_ok _ _ (checked_ok ..), Size.sub, if_pos hle,
        bind_apply_ok _ _ (checked_ok ..), hpadding]
      rfl
    · refine Or.inr ⟨if_neg fun h => hsum h.2, .addition, ?_⟩
      rw [Size.roundUp_of_large (Nat.le_of_not_lt hsum), bind_apply_error _ _ (checked_error ..)]
  · exact Or.inr ⟨if_neg fun h => hpower h.1, _,
      bind_apply_error _ _ (ensure_apply_not _ hpower _ _)⟩

/-- A length that can be counted goes in front of its content, as two demands. -/
theorem addPrefixed_meets {content : Stretch Empty}
    (counted : content.length < IntegerType.lengthPrefix.modulus) :
    addPrefixed content = meet (prefixedDemands content) := by
  rw [addPrefixed, prefixedDemands, if_neg (Nat.not_le.2 counted), if_neg (Nat.not_le.2 counted),
    meet, meet_singleton]
  rfl

/-- Additions demand nothing but cells. -/
theorem Addition.demands_cells (addition : Addition) (length : Nat) :
    ∀ demand ∈ addition.demands length, ∃ content, demand = .cells content := by
  have hprefixed (content : Stretch Empty) :
      ∀ demand ∈ prefixedDemands content, ∃ content, demand = .cells content := by
    rw [prefixedDemands]
    split <;> simp
  cases addition with
  | prefixed content => exact hprefixed content
  | text value => exact hprefixed _
  | bytes | zeroes | integer | pointer | terminated => simp [demands]
  | align alignment =>
    rw [demands]
    split <;> simp

/-- What cannot be counted demands nothing. -/
theorem Addition.Oversized.demands_eq (oversized : addition.Oversized) (length : Nat) :
    addition.demands length = [] := by
  cases addition with
  | bytes | zeroes | align | integer | pointer | terminated => exact oversized.elim
  | prefixed content => exact if_pos oversized
  | text value => exact if_pos ((Stretch.length_ofBytes _).symm ▸ oversized)

/-- An addition is the meeting of its demands, unless it is refused or stopped before it demands
anything. -/
theorem Addition.run_cases (addition : Addition) (environment : Environment) (machine : Machine)
    (arena : Arena) :
    addition.run environment (machine, arena) =
        meet (addition.demands arena.length) environment (machine, arena) ∨
      addition.demands arena.length = [] ∧ (addition.Oversized ∨
        ∃ alignment fault, addition = .align alignment ∧
          addition.run environment (machine, arena) = (.error (.fault fault), machine, arena)) := by
  have hsingle (demand : Demand) : demand.run environment (machine, arena) =
      meet [demand] environment (machine, arena) := by rw [meet_singleton]
  -- what cannot be counted is refused before anything is demanded
  by_cases hoversized : addition.Oversized
  · exact Or.inr ⟨hoversized.demands_eq _, Or.inl hoversized⟩
  cases addition with
  | bytes values => exact Or.inl (hsingle (.cells (Stretch.ofBytes values)))
  | zeroes count => exact Or.inl (hsingle (.cells (Stretch.zeros count)))
  | integer type value => exact Or.inl (hsingle (.cells (Stretch.ofBytes (type.encode value))))
  | pointer address =>
    exact Or.inl (hsingle (.cells (Stretch.ofBytes (IntegerType.word.encode address))))
  | terminated value => exact Or.inl (hsingle (.cells (Stretch.ofBytes (utf8 value ++ [0]))))
  | prefixed content =>
    exact Or.inl (congrFun (congrFun (addPrefixed_meets (Nat.not_le.1 hoversized)) _) _)
  | text value =>
    have hcounted : (Stretch.ofBytes (utf8 value) : Stretch Empty).length <
        IntegerType.lengthPrefix.modulus := by
      rw [Stretch.length_ofBytes]
      exact Nat.not_le.1 hoversized
    exact Or.inl (congrFun (congrFun (addPrefixed_meets hcounted) _) _)
  | align alignment =>
    rcases addAlign_meets alignment environment machine arena with
      ⟨padding, hdemands, hrun⟩ | ⟨hnone, fault, hstopped⟩
    · rw [hdemands]
      exact Or.inl (hrun.trans (hsingle (.cells padding)))
    · exact Or.inr ⟨hnone, Or.inr ⟨alignment, fault, rfl, hstopped⟩⟩

/-- Every alignment can be added to a length in the first half of all addresses. -/
theorem Aligns.add_lt (short : arena.Aligns) {alignment : Nat}
    (aligned : (Addition.align alignment).Aligned) : arena.length + alignment < Size.limit := by
  have hhalf := le_half_of_power aligned.1 aligned.2
  have hlimit : Size.limit = 1 <<< 63 + 1 <<< 63 := by decide
  have hlt : arena.length < 1 <<< 63 := short
  omega

/-- An addition that can be counted, to an arena that has room for every alignment, is the meeting of
its demands. -/
theorem Addition.run_eq_meet (aligned : addition.Aligned) (counted : ¬ addition.Oversized)
    (short : arena.Aligns) (environment : Environment) (machine : Machine) :
    addition.run environment (machine, arena) =
      meet (addition.demands arena.length) environment (machine, arena) := by
  rcases addition.run_cases environment machine arena with hrun | ⟨hnone, hstopped⟩
  · exact hrun
  · rcases hstopped with hoversized | ⟨alignment, fault, rfl, -⟩
    · exact absurd hoversized counted
    · -- the padding can be computed, so it is demanded
      rw [demands, if_pos ⟨aligned.1, short.add_lt aligned⟩] at hnone
      cases hnone

/-- An addition demands as many bytes as its encoding has. -/
theorem Addition.size_demands (aligned : addition.Aligned) (counted : ¬ addition.Oversized)
    (short : arena.Aligns) :
    ((addition.demands arena.length).map Demand.size).sum =
      (addition.encoding arena.length).length := by
  have hprefixed {content : Stretch Empty}
      (counted : content.length < IntegerType.lengthPrefix.modulus) :
      ((prefixedDemands content).map Demand.size).sum = 4 + content.length := by
    rw [prefixedDemands, if_neg (Nat.not_le.2 counted)]
    simp [Demand.size, IntegerType.length_encode, IntegerType.lengthPrefix]
  cases addition with
  | bytes values => simp [demands, encoding, Demand.size]
  | zeroes count => simp [demands, encoding, Demand.size]
  | integer type value => simp [demands, encoding, Demand.size, IntegerType.encode_eq_digits]
  | pointer address =>
    simp [demands, encoding, Demand.size, IntegerType.encode_eq_digits, IntegerType.word]
  | terminated value => simp [demands, encoding, Demand.size]
  | prefixed content =>
    rw [demands, hprefixed (Nat.not_le.1 counted), encoding, List.length_append,
      Stretch.length_bytes]
    rfl
  | text value =>
    rw [demands, hprefixed (by rw [Stretch.length_ofBytes]; exact Nat.not_le.1 counted), encoding,
      List.length_append, Stretch.length_ofBytes]
    rfl
  | align alignment =>
    rw [demands, if_pos ⟨aligned.1, short.add_lt aligned⟩]
    simp [encoding, Demand.size]

/-! ## Operations -/

/-- Whatever an addition does beside the meeting of its demands leaves the buffer alone. -/
theorem Addition.run_still [Size.Paging] (addition : Addition) (environment : Environment)
    (machine : Machine) (arena : Arena) :
    Still (meet (addition.demands arena.length) environment (machine, arena)).2
      (addition.run environment (machine, arena)).2 := by
  rcases addition.run_cases environment machine arena with hrun | ⟨hnone, hstopped⟩
  · rw [hrun]
    exact .refl _
  · rw [hnone]
    rcases hstopped with hoversized | ⟨alignment, fault, -, hrun⟩
    · rw [hoversized.run_eq]
      exact (still_refuse _).holds environment (machine, arena)
    · rw [hrun]
      exact .refl _

/-- What is told of a stop is told as it is. -/
theorem error_of_map {α β : Type} {f : α → β} {outcome : Except Stop α} {reason : Stop}
    (h : outcome.map f = .error reason) : outcome = .error reason := by
  cases outcome with
  | ok => cases h
  | error reason =>
    cases h
    rfl

/-- A push tells what the addition in it told and leaves the buffer that the addition left. It has the
length of the addition, and where that failed goes back to the length that there was. -/
theorem Reachable.push_tells (h : arena.Reachable) (idle : arena.build = none)
    {addition : Addition} (aligned : addition.Aligned) (environment : Environment)
    (machine : Machine) :
    ∃ outcome middle built last after,
      addition.run environment (machine, { arena with build := some ⟨arena.length, none⟩ }) =
        (outcome, middle, built) ∧
      push addition.run environment (machine, arena) =
        (outcome.map fun _ => ⟨arena.length⟩, last, after) ∧
      after.region = built.region ∧ (outcome = .ok () → after.length = built.length) ∧
      ∀ failure, outcome = .error (.failure failure) → after.length = arena.length := by
  obtain ⟨outcome, middle, built, hadd, hadds⟩ := h.staged_begun.run aligned environment machine
  cases outcome with
  | ok =>
    obtain ⟨last, hpush⟩ := push_staged idle hadd hadds.build hadds.start_le
    exact ⟨_, _, _, last, _, hadd, hpush, rfl, fun _ => rfl, fun _ hfailed => by cases hfailed⟩
  | error reason =>
    cases reason with
    | failure failure =>
      have hended : addition.run environment
          (machine, { arena with build := some ⟨arena.length, none⟩ }) =
            (ending (some failure) (), middle, built) := hadd
      obtain ⟨last, hpush⟩ := push_staged idle hended hadds.build hadds.start_le
      exact ⟨_, _, _, last, _, hadd, hpush, rfl, by simp, fun _ _ => rfl⟩
    | fault fault =>
      refine ⟨_, _, _, middle, built, hadd, ?_, rfl, by simp, fun _ hfailed => by cases hfailed⟩
      rw [push, bind_apply_ok _ _ (begin_idle idle _ _)]
      exact bind_apply_error _ _ (attempt_fault _ hadd)

/-- A build cannot begin within a build. -/
theorem begin_busy (busy : ¬ arena.build = none) (environment : Environment) (machine : Machine) :
    Arena.begin environment (machine, arena) =
      (.error (.fault .beginWithinBuild), machine, arena) := by
  rw [Arena.begin, bind_apply_ok _ _ (own_apply ..)]
  exact bind_apply_error _ _ (ensure_apply_not _ busy _ _)

/-- An operation that demands nothing leaves the buffer alone. -/
theorem sits_of_follows {procedure : Procedure (Machine × Arena) Unit}
    (h : Follows Still procedure) (environment : Environment) (state : Machine × Arena) :
    Sits state (((fun _ => Answer.done) <$> procedure) environment state).2 := by
  rw [map_state]
  exact (h.holds environment state).sits

/-- Every operation but shrinking leaves the buffer where the meeting of its demands leaves it. -/
theorem Reachable.run_sits (h : arena.Reachable) {operation : Operation}
    (other : operation ≠ .shrink) (environment : Environment) (machine : Machine) :
    Sits (meet (operation.demands arena) environment (machine, operation.entered arena)).2
      (operation.run environment (machine, arena)).2 := by
  cases operation with
  | shrink => exact absurd rfl other
  | truncate reference => exact sits_of_follows (still_truncate reference) ..
  | clear => exact sits_of_follows still_clear ..
  | begin => exact sits_of_follows still_begin ..
  | abandon => exact sits_of_follows still_abandon ..
  | commit =>
    rw [Operation.run, map_state]
    exact (still_commit.holds environment (machine, arena)).sits
  | read reference reading =>
    exact ((still_bind still_own fun _ => still_checked _).holds environment (machine, arena)).sits
  | overwrite reference content =>
    rw [Operation.run, map_state]
    rcases overwrite_cases reference content environment machine arena with
      ⟨-, hrun⟩ | ⟨fault, -, hrun⟩
    · rw [hrun]
      exact sits_write machine arena reference.offset content arena.length
    · rw [hrun]
      exact (Still.refl _).sits
  | reserve additional =>
    rw [Operation.run, map_state, Operation.demands]
    by_cases hidle : arena.build = none
    · rw [if_pos hidle, meet_singleton, reserve, bind_apply_ok _ _ (ensureIdle_idle hidle _)]
      exact (Still.refl _).sits
    · rw [if_neg hidle, reserve, bind_apply_error _ _ (ensureIdle_busy hidle _)]
      exact (Still.refl _).sits
  | add addition =>
    rw [Operation.run, map_state]
    exact (addition.run_still environment machine arena).sits
  | push addition =>
    rw [Operation.run, map_state, Operation.demands]
    by_cases hidle : arena.build = none
    · -- the demands are those of the addition, made in the build that the push begins
      obtain ⟨outcome, middle, answer, last, hrun, hpush, hstill, -⟩ :=
        h.push_run hidle addition environment machine
      have hadd := addition.run_still environment machine
        { arena with build := some ⟨arena.length, none⟩ }
      rw [hrun] at hadd
      rw [if_pos hidle, hpush]
      exact hadd.sits.trans hstill.sits
    · rw [if_neg hidle, push, bind_apply_error _ _ (begin_busy hidle _ _)]
      exact ⟨.refl _, ⟨rfl, rfl, rfl, rfl⟩, rfl⟩

end PagedAlloc.Arena
