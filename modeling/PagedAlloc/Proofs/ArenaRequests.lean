import PagedAlloc.Proofs.ArenaRuns
import PagedAlloc.Proofs.RegionAnswers

/-!
# Requests of an arena

An arena asks for another buffer in one of two ways: it resizes the present one, or under forced
relocation makes it move. Its strategies belong to one family, and its capacity is a size of this
family (`Arena.Reachable.backed`). So a request succeeds, fails, or is stopped for one of two causes
that no allocator can prevent (`Interruption`).
-/

namespace PagedAlloc

variable {paging : Size.Paging}

/-- What may stop a request for good: the heap refuses and the strategies say that the process ends
then, or the kernel does not take pages back. -/
inductive Interruption (environment : Environment) (strategies : Strategies) : Fault → Prop where
  | aborted {size : Nat} {ledger : Ledger}
      (aborts : strategies.source.aborts = true ∨ strategies.resizing.source.aborts = true)
      (refused : environment.grantsHeap ledger size Arena.alignment = false) :
      Interruption environment strategies (.aborted size)
  | unmapRefused {length address : Nat} {ledger : Ledger}
      (unmaps : strategies.disposal = .pageUnmap)
      (refused : environment.grantsUnmap ledger address length = false) :
      Interruption environment strategies (.unmapRefused length address)

namespace Arena

open Procedure

/-- The strategies of an arena belong to one family, and its capacity is a size of this family. -/
structure Backed [Size.Paging] (arena : Arena) : Prop where
  consistent : arena.strategies.IsConsistent
  suits : arena.strategies.source.family.Suits alignment arena.capacity

/-- The request for a buffer of another size. -/
def request [Size.Paging] (arena : Arena) (capacity : Nat) : Procedure Machine Region :=
  if (arena.diagnostics.forceRelocation && arena.strategies.mayMove) = true then
    Region.relocate arena.strategies arena.region arena.capacity capacity alignment
      arena.diagnostics
  else
    Region.resize arena.strategies.resizing arena.region arena.capacity capacity alignment
      arena.diagnostics

/-- A request for another buffer, and taking it. -/
def adopt (request : Procedure Machine Region) : Procedure (Machine × Arena) Unit := do
  let region ← ask request
  replaceBuffer region

variable {environment : Environment} {machine : Machine} {arena : Arena} {capacity : Nat}

/-- Making room is nothing, or a request for what the arena wants. -/
theorem makeRoom_eq (additional : Nat) (environment : Environment) (machine : Machine)
    (arena : Arena) :
    makeRoom additional environment (machine, arena) =
      match Size.add? arena.length additional with
      | none => (.error (.failure .overflow), machine, arena)
      | some needed =>
        if needed ≤ arena.capacity ∧
            ¬ (arena.diagnostics.forceRelocation && arena.strategies.mayMove) = true then
          (.ok (), machine, arena)
        else
          match arena.wanted? needed with
          | none => (.error (.failure .overflow), machine, arena)
          | some capacity => adopt (arena.request capacity) environment (machine, arena) := by
  rw [makeRoom, bind_apply_ok _ _ (own_apply ..)]
  simp only
  cases Size.add? arena.length additional with
  | none => rfl
  | some needed =>
    rw [bind_apply_ok _ _ (orFail_some ..)]
    simp only
    split
    · rfl
    · cases arena.wanted? needed <;> rfl

/-- Shrinking is stopped, or there is nothing to give back, or it is a request for what is in
use. -/
theorem shrink_cases (environment : Environment) (machine : Machine) (arena : Arena) :
    (∃ fault, (arena.build ≠ none ∨ Size.roundUp arena.length alignment = .error fault) ∧
      shrink environment (machine, arena) = (.error (.fault fault), machine, arena)) ∨
    (∃ target, Size.roundUp arena.length alignment = .ok target ∧
      ¬ (target < arena.capacity ∧ arena.strategies.mayMove = true) ∧
      shrink environment (machine, arena) = (.ok (), machine, arena)) ∨
    ∃ target, Size.roundUp arena.length alignment = .ok target ∧ target < arena.capacity ∧
      arena.strategies.mayMove = true ∧
      shrink environment (machine, arena) =
        adopt (Region.resize arena.strategies.resizing arena.region arena.capacity target alignment
          arena.diagnostics) environment (machine, arena) := by
  rw [shrink]
  by_cases hidle : arena.build = none
  · rw [bind_apply_ok _ _ (ensureIdle_idle hidle _), bind_apply_ok _ _ (own_apply ..)]
    cases Size.roundUp arena.length alignment with
    | error fault =>
      rw [bind_apply_error _ _ (checked_error ..)]
      exact Or.inl ⟨fault, Or.inr rfl, rfl⟩
    | ok target =>
      rw [bind_apply_ok _ _ (checked_ok ..)]
      dsimp only
      split
      · rename_i hgives
        exact Or.inr (Or.inr ⟨target, rfl, hgives.1, hgives.2, rfl⟩)
      · rename_i hfull
        exact Or.inr (Or.inl ⟨target, rfl, hfull, rfl⟩)
  · exact Or.inl ⟨_, Or.inl hidle, bind_apply_error _ _ (ensureIdle_busy hidle _)⟩

/-- The arena keeps its buffer if the request for another one is stopped. -/
theorem adopt_error {request : Procedure Machine Region} {reason : Stop} {machine' : Machine}
    (hrun : request environment machine = (.error reason, machine')) (arena : Arena) :
    adopt request environment (machine, arena) = (.error reason, machine', arena) :=
  bind_apply_error _ _ (ask_apply _ hrun _)

/-- What taking another buffer leaves behind, the note that it is elsewhere included. -/
theorem adopt_ok_eq {request : Procedure Machine Region} {region : Region} {middle : Machine}
    (hrun : request environment machine = (.ok region, middle)) (arena : Arena) :
    adopt request environment (machine, arena) =
      (.ok (), { middle with
        log :=
          if region.address ≠ arena.region.address then
            .bufferMoved arena.region.address region.address arena.capacity region.length ::
              middle.log
          else middle.log }, { arena with region := region }) := by
  rw [adopt, bind_apply_ok _ _ (ask_apply _ hrun _), replaceBuffer,
    bind_apply_ok _ _ (own_apply ..)]
  split <;> rfl

/-- The arena takes over the region that its request was granted. -/
theorem adopt_ok {request : Procedure Machine Region} {region : Region} {middle : Machine}
    (hrun : request environment machine = (.ok region, middle)) (arena : Arena) :
    ∃ machine', adopt request environment (machine, arena) =
      (.ok (), machine', { arena with region := region }) :=
  ⟨_, adopt_ok_eq hrun arena⟩

/-! ## What comes of a request -/

theorem alignment_power : Size.IsPowerOfTwo alignment := by decide

/-- Buffers are aligned to less than a page, so the kernel aligns them anyway. -/
theorem alignment_le [Size.Paging] : alignment ≤ Size.pageSize :=
  Nat.le_trans (by decide) Size.Paging.roomy

/-- The regions that an arena resizes come from its family. -/
theorem Backed.family_resizing (h : arena.Backed) (moves : arena.strategies.mayMove = true) :
    arena.strategies.resizing.source.family = arena.strategies.source.family := by
  rw [Strategies.mayMove] at moves
  have hbelongs := h.consistent.2
  cases hresizing : arena.strategies.resizing with
  | noOp | remapKeepAddress =>
    rw [hresizing] at moves
    cases moves
  | heapOrAbort | heapOrFail | remapMayMove =>
    rw [hresizing] at hbelongs
    exact hbelongs _ rfl

/-- What is answered when a buffer that may move is resized. -/
theorem Backed.answer_resize (h : arena.Backed) (moves : arena.strategies.mayMove = true)
    (positive : 0 < capacity) (environment : Environment) (machine : Machine) :
    (Region.resize arena.strategies.resizing arena.region arena.capacity capacity alignment
        arena.diagnostics environment machine).1.map Region.length =
      arena.strategies.resizing.source.answer environment machine.ledger alignment capacity :=
  Region.answer_resize moves (h.family_resizing moves ▸ h.suits) positive arena.region
    arena.diagnostics environment machine

/-- What is answered to a request of an arena whose buffer may move. -/
theorem Backed.answer_request (h : arena.Backed) (moves : arena.strategies.mayMove = true)
    (positive : 0 < capacity) (environment : Environment) (machine : Machine) :
    ∃ result machine', arena.request capacity environment machine = (result, machine') ∧
      (result.map Region.length =
          arena.strategies.source.answer environment machine.ledger alignment capacity ∨
        result.map Region.length =
          arena.strategies.resizing.source.answer environment machine.ledger alignment capacity ∨
        ∃ address ledger, result = .error (.fault (.unmapRefused arena.capacity address)) ∧
          arena.strategies.disposal = .pageUnmap ∧
            environment.grantsUnmap ledger address arena.capacity = false) := by
  have hresize := h.answer_resize moves positive environment machine
  have hstays : ¬ ¬ arena.strategies.mayMove = true := fun hnot => hnot moves
  by_cases hforce : (arena.diagnostics.forceRelocation && arena.strategies.mayMove) = true
  · rw [request, if_pos hforce]
    -- the debug layer relocates by resizing, as without forced relocation
    by_cases hdebug : arena.diagnostics.debugLayer = true
    · rw [Region.relocate, if_neg hstays, if_pos hdebug]
      exact ⟨_, _, rfl, Or.inr (Or.inl hresize)⟩
    · obtain ⟨result, machine', hrun, hcases⟩ := Region.answer_relocate moves
        (h.consistent.1 ▸ h.suits) positive alignment_power alignment_le arena.region
        (Bool.eq_false_iff.2 hdebug) environment machine
      refine ⟨result, machine', hrun, ?_⟩
      rcases hcases with hanswer | ⟨rfl, hdisposal, ledger, hrefused⟩
      · exact Or.inl hanswer
      · exact Or.inr (Or.inr ⟨_, ledger, rfl, hdisposal, hrefused⟩)
  · rw [request, if_neg hforce]
    exact ⟨_, _, rfl, Or.inr (Or.inl hresize)⟩

/-- Outcomes of a request: a region of a size that suits the arena, a failure, or a stop for one of
the causes that cannot be prevented. -/
def Expected [Size.Paging] (environment : Environment) (arena : Arena) : Except Stop Region → Prop
  | .ok region => arena.strategies.source.family.Suits alignment region.length
  | .error (.failure _) => True
  | .error (.fault fault) => Interruption environment arena.strategies fault

/-- A request is as expected if a source of the family of the arena answers it. -/
theorem expected_of_answer {source : Source} {result : Except Stop Region} {ledger : Ledger}
    (positive : 0 < capacity) (hfamily : source.family = arena.strategies.source.family)
    (haborts : source.aborts = true →
      arena.strategies.source.aborts = true ∨ arena.strategies.resizing.source.aborts = true)
    (hanswer : result.map Region.length = source.answer environment ledger alignment capacity) :
    Expected environment arena result := by
  cases result with
  | ok region =>
    have hsuits := Source.suits_of_answer positive hanswer.symm
    rwa [hfamily] at hsuits
  | error reason =>
    cases reason with
    | failure failure => exact trivial
    | fault fault =>
      obtain ⟨habort, rfl, hrefused⟩ := Source.fault_of_answer hanswer.symm
      exact .aborted (haborts habort) hrefused

/-- What an arena asks for is as expected, in both ways of asking. -/
theorem Backed.request (h : arena.Backed) (positive : 0 < capacity) (environment : Environment)
    (machine : Machine) :
    Expected environment arena (arena.request capacity environment machine).1 := by
  cases hmoves : arena.strategies.mayMove with
  | true =>
    obtain ⟨result, machine', hrun, hcases⟩ := h.answer_request hmoves positive environment machine
    rw [hrun]
    rcases hcases with hanswer | hanswer | ⟨address, ledger, rfl, hdisposal, hrefused⟩
    · exact expected_of_answer positive rfl Or.inl hanswer
    · exact expected_of_answer positive (h.family_resizing hmoves) Or.inr hanswer
    · exact .unmapRefused hdisposal hrefused
  | false =>
    have hforce : ¬ (arena.diagnostics.forceRelocation && arena.strategies.mayMove) = true := by
      rw [hmoves, Bool.and_false]
      exact Bool.false_ne_true
    obtain ⟨result, machine', hrun, hcases⟩ := Region.resize_fixed
      (show arena.strategies.resizing.mayMove = false from hmoves) h.consistent.2 h.suits positive
      arena.region arena.diagnostics environment machine
    rw [Arena.request, if_neg hforce, hrun]
    rcases hcases with ⟨failure, rfl⟩ | ⟨region, rfl, hsuits⟩
    · exact trivial
    · exact hsuits

/-- Taking another buffer keeps an arena backed, and only what cannot be prevented stops it. -/
theorem Backed.adopt (h : arena.Backed) {request : Procedure Machine Region}
    (expected : Expected environment arena (request environment machine).1) :
    ∃ result machine' region, Arena.adopt request environment (machine, arena) =
        (result, machine', { arena with region := region }) ∧
      Backed { arena with region := region } ∧
      ∀ fault, result = .error (.fault fault) →
        Interruption environment arena.strategies fault := by
  cases hrun : request environment machine with
  | mk result middle =>
    rw [hrun] at expected
    cases result with
    | error reason =>
      refine ⟨_, middle, arena.region, adopt_error hrun arena, h, ?_⟩
      rintro fault ⟨⟩
      exact expected
    | ok region =>
      obtain ⟨machine', hadopt⟩ := adopt_ok hrun arena
      exact ⟨_, machine', region, hadopt, ⟨h.consistent, expected⟩, by simp⟩

/-- A buffer has at least one byte. -/
theorem Backed.positive (h : arena.Backed) : 0 < arena.capacity := by
  have hsuits := h.suits
  cases hfamily : arena.strategies.source.family with
  | heap =>
    rw [hfamily] at hsuits
    exact Nat.pos_of_ne_zero hsuits.1
  | pages =>
    rw [hfamily] at hsuits
    exact hsuits.2.1

/-- An arena never wants less than it has. -/
theorem le_wanted {needed : Nat} (h : arena.wanted? needed = some capacity) :
    arena.capacity ≤ capacity := by
  by_cases hfits : needed ≤ arena.capacity
  · rw [wanted?, if_pos hfits] at h
    exact Nat.le_of_eq (Option.some.inj h)
  · have hneeded := le_of_wanted?_eq_some h
    omega

/-- Making room gives an arena another buffer at most. -/
theorem Backed.makeRoom (h : arena.Backed) (additional : Nat) (environment : Environment)
    (machine : Machine) :
    ∃ result machine' region, Arena.makeRoom additional environment (machine, arena) =
        (result, machine', { arena with region := region }) ∧
      Backed { arena with region := region } ∧
      ∀ fault, result = .error (.fault fault) →
        Interruption environment arena.strategies fault := by
  rw [makeRoom_eq]
  split
  · exact ⟨_, machine, arena.region, rfl, h, by simp⟩
  · split
    · exact ⟨_, machine, arena.region, rfl, h, by simp⟩
    · split
      · exact ⟨_, machine, arena.region, rfl, h, by simp⟩
      · rename_i capacity hwanted
        exact h.adopt (h.request (Nat.lt_of_lt_of_le h.positive (le_wanted hwanted)) _ _)

/-! ## What lasts -/

/-- A relation that every operation but shrinking follows: it composes, it holds wherever the
strategies and the capacity are the same, and making room follows it. -/
structure Lasting [Size.Paging] (relation : Machine × Arena → Machine × Arena → Prop) : Prop where
  trans : ∀ first second third, relation first second → relation second third →
    relation first third
  same : ∀ {before after}, after.2.strategies = before.2.strategies →
    after.2.capacity = before.2.capacity → relation before after
  room : ∀ additional, Follows relation (makeRoom additional)

namespace Lasting

variable {relation : Machine × Arena → Machine × Arena → Prop} {α β : Type}
  {procedure : Procedure (Machine × Arena) α} {next : α → Procedure (Machine × Arena) β}

theorem bind (h : Lasting relation) (hfirst : Follows relation procedure)
    (hnext : ∀ value, Follows relation (next value)) : Follows relation (procedure >>= next) :=
  Follows.bind h.trans hfirst hnext

theorem unchanged (h : Lasting relation)
    (hsame : ∀ environment state, (procedure environment state).2 = state) :
    Follows relation procedure :=
  Follows.of_unchanged (fun _ => h.same rfl rfl) hsame

theorem map (hfollows : Follows relation procedure) (answer : α → β) :
    Follows relation (answer <$> procedure) := by
  refine ⟨fun environment state => ?_⟩
  rw [map_state]
  exact hfollows.holds environment state

theorem own (h : Lasting relation) : Follows relation own := h.unchanged fun _ _ => rfl

theorem ensure (h : Lasting relation) {condition : Prop} [Decidable condition] (fault : Fault) :
    Follows relation (Procedure.ensure condition fault) := by
  refine h.unchanged fun environment state => ?_
  by_cases hcondition : condition
  · rw [ensure_apply _ hcondition]
  · rw [ensure_apply_not _ hcondition]

theorem checked (h : Lasting relation) {α : Type} (result : Except Fault α) :
    Follows relation (Procedure.checked result) := by
  refine h.unchanged fun environment state => ?_
  cases result <;> rfl

theorem refuse (h : Lasting relation) (failure : Failure) :
    Follows relation (Arena.refuse failure) :=
  ⟨fun _ _ => h.same rfl rfl⟩

theorem add (h : Lasting relation) (content : Stretch Empty) :
    Follows relation (Arena.add content) := by
  refine h.bind h.own fun arena => ?_
  cases arena.build with
  | none => exact h.unchanged fun _ _ => rfl
  | some build =>
    simp only
    cases build.failure with
    | some failure => exact h.unchanged fun _ _ => rfl
    | none =>
      refine h.bind (Follows.attempt (h.room _)) fun outcome => ?_
      cases outcome with
      | error failure => exact h.refuse failure
      | ok => exact ⟨fun _ _ => h.same rfl rfl⟩

/-- An addition keeps whatever making room and refusing keep. -/
theorem addition (h : Lasting relation) (addition : Addition) : Follows relation addition.run := by
  have hprefixed : ∀ content : Stretch Empty, Follows relation (addPrefixed content) := by
    intro content
    unfold addPrefixed
    split
    · exact h.refuse _
    · exact h.bind (h.add _) fun _ => h.add _
  cases addition with
  | bytes values => exact h.add _
  | zeroes count => exact h.add _
  | integer type value => exact h.add _
  | pointer address => exact h.add _
  | terminated value => exact h.add _
  | prefixed content => exact hprefixed _
  | text value => exact hprefixed _
  | align alignment =>
    exact h.bind (h.ensure _) fun _ => h.bind h.own fun _ => h.bind (h.checked _) fun _ =>
      h.bind (h.checked _) fun _ => h.add _

theorem begin (h : Lasting relation) : Follows relation Arena.begin :=
  h.bind h.own fun _ => h.bind (h.ensure _) fun _ => ⟨fun _ _ => h.same rfl rfl⟩

theorem endBuild (h : Lasting relation) (call : BuildEnd) :
    Follows relation (Arena.endBuild call) := by
  refine h.bind h.own fun arena => ?_
  cases arena.build <;> exact ⟨fun _ _ => h.same rfl rfl⟩

theorem commit (h : Lasting relation) : Follows relation Arena.commit := by
  refine h.bind (h.endBuild _) fun build => ?_
  cases build.failure with
  | some failure => exact ⟨fun _ _ => h.same rfl rfl⟩
  | none =>
    exact h.bind h.own fun arena => h.bind (h.checked _) fun _ => ⟨fun _ _ => h.same rfl rfl⟩

theorem abandon (h : Lasting relation) : Follows relation Arena.abandon :=
  h.bind (h.endBuild _) fun _ => ⟨fun _ _ => h.same rfl rfl⟩

theorem push (h : Lasting relation) {addition : Procedure (Machine × Arena) Unit}
    (hadds : Follows relation addition) : Follows relation (Arena.push addition) := by
  refine h.bind h.begin fun _ => h.bind (Follows.attempt hadds) fun outcome => ?_
  cases outcome with
  | ok => exact h.commit
  | error failure => exact h.bind h.abandon fun _ => h.unchanged fun _ _ => rfl

theorem ensureIdle (h : Lasting relation) (call : IdleCall) :
    Follows relation (Arena.ensureIdle call) :=
  h.bind h.own fun _ => h.ensure _

/-- What making room keeps, and all changes that leave strategies and capacity alone, is kept by
every operation but shrinking. -/
theorem operation (h : Lasting relation) {operation : Operation} (other : operation ≠ .shrink) :
    Follows relation operation.run := by
  cases operation with
  | shrink => exact absurd rfl other
  | add addition => exact map (h.addition addition) _
  | push addition => exact map (h.push (h.addition addition)) _
  | begin => exact map h.begin _
  | commit => exact map h.commit _
  | abandon => exact map h.abandon _
  | reserve additional => exact map (h.bind (h.ensureIdle _) fun _ => h.room _) _
  | clear => exact map (h.bind (h.ensureIdle _) fun _ => ⟨fun _ _ => h.same rfl rfl⟩) _
  | truncate reference =>
    exact map (h.bind (h.ensureIdle _) fun _ => h.bind h.own fun _ => h.bind (h.ensure _) fun _ =>
      ⟨fun _ _ => h.same rfl rfl⟩) _
  | overwrite reference content =>
    exact map (h.bind h.own fun _ => h.bind (h.checked _) fun _ => ⟨fun _ _ => h.same rfl rfl⟩) _
  | read reference reading => exact h.bind h.own fun _ => h.checked _

end Lasting

/-! ## Every reachable arena is backed -/

/-- A backed arena stays backed. -/
def Backs [Size.Paging] (before after : Machine × Arena) : Prop := before.2.Backed → after.2.Backed

/-- A request for room leaves a buffer that suits the family of the arena. -/
theorem lasting_backs : Lasting Backs where
  trans _ _ _ h h' hbacked := h' (h hbacked)
  same hstrategies hcapacity hbacked := by
    refine ⟨?_, ?_⟩
    · rw [hstrategies]
      exact hbacked.consistent
    · rw [hstrategies, hcapacity]
      exact hbacked.suits
  room additional := by
    refine ⟨fun environment (machine, arena) h => ?_⟩
    obtain ⟨result, machine', region, hrun, hbacked, -⟩ :=
      h.makeRoom additional environment machine
    rw [hrun]
    exact hbacked

/-- Shrinking asks for what is in use, which is never nothing. -/
theorem Backed.shrink (h : arena.Backed) (hformed : arena.WellFormed) (environment : Environment)
    (machine : Machine) : Backed (Arena.shrink environment (machine, arena)).2.2 := by
  rcases shrink_cases environment machine arena with
    ⟨fault, -, hrun⟩ | ⟨target, -, -, hrun⟩ | ⟨target, htarget, -, hmoves, hrun⟩ <;> rw [hrun]
  · exact h
  · exact h
  · have hpositive := hformed.positive (Size.le_of_roundUp_eq_ok (by decide) htarget)
    have hanswer := h.answer_resize hmoves hpositive environment machine
    obtain ⟨result, machine', region, hadopt, hbacked, -⟩ :=
      h.adopt (expected_of_answer hpositive (h.family_resizing hmoves) Or.inr hanswer)
    rw [hadopt]
    exact hbacked

/-- Every operation leaves a buffer that suits the family of the arena. -/
theorem Backed.after (h : arena.Backed) (hformed : arena.WellFormed) (environment : Environment)
    (machine : Machine) (operation : Operation) :
    (arena.after environment machine operation).Backed := by
  by_cases hother : operation = .shrink
  · rw [hother, Arena.after, Operation.run, map_state]
    exact h.shrink hformed environment machine
  · exact (lasting_backs.operation hother).holds environment (machine, arena) h

/-- Making an arena is refused, or gives it a region of the size that it asked for. -/
theorem create_cases [Size.Paging] (capacity : Nat) (strategies : Strategies)
    (environment : Environment) (machine : Machine) :
    (∃ reason machine', ∀ diagnostics : Diagnostics,
        create capacity strategies diagnostics environment machine = (.error reason, machine')) ∨
      ∃ size region middle machine', strategies.IsConsistent ∧ firstOffset ≤ size ∧
        Region.allocate strategies.source size alignment environment machine =
          (.ok region, middle) ∧
        ∀ diagnostics : Diagnostics, create capacity strategies diagnostics environment machine =
          (.ok ⟨{ region with memory := region.memory.fill 0 firstOffset (Run.constant 0) },
            firstOffset, strategies, diagnostics, none⟩, machine') := by
  simp only [create]
  by_cases hconsistent : strategies.IsConsistent
  · simp only [bind_apply_ok _ _ (ensure_apply _ hconsistent _ _)]
    cases hsize : Size.roundUp? (max capacity firstOffset) alignment with
    | none => exact Or.inl ⟨_, _, fun _ => bind_apply_error _ _ (orFail_none ..)⟩
    | some size =>
      have hle := Size.le_of_roundUp?_eq_some (by decide) hsize
      simp only [bind_apply_ok _ _ (orFail_some ..)]
      -- no request names the diagnostics, so these only come with the arena
      cases hrun : Region.allocate strategies.source size alignment environment machine with
      | mk result middle =>
        cases result with
        | error reason => exact Or.inl ⟨_, _, fun _ => bind_apply_error _ _ hrun⟩
        | ok region =>
          refine Or.inr ⟨size, region, middle, { middle with
              log := .arenaCreated region.length region.address strategies :: middle.log },
            hconsistent, Nat.le_trans (Nat.le_max_right ..) hle, hrun, fun diagnostics => ?_⟩
          rw [bind_apply_ok _ _ hrun, bind_apply_ok _ _ (emit_apply ..)]
          rfl
  · exact Or.inl ⟨_, _, fun _ => bind_apply_error _ _ (ensure_apply_not _ hconsistent _ _)⟩

/-- What a new arena was made of. -/
theorem create_ok {strategies : Strategies} {diagnostics : Diagnostics} {machine' : Machine}
    (made : create capacity strategies diagnostics environment machine = (.ok arena, machine')) :
    ∃ size region middle, strategies.IsConsistent ∧ 0 < size ∧
      Size.roundUp? (max capacity firstOffset) alignment = some size ∧
      Region.allocate strategies.source size alignment environment machine = (.ok region, middle) ∧
      arena = ⟨{ region with memory := region.memory.fill 0 firstOffset (Run.constant 0) },
        firstOffset, strategies, diagnostics, none⟩ ∧
      machine' = { middle with
        log := .arenaCreated region.length region.address strategies :: middle.log } := by
  rw [create] at made
  by_cases hconsistent : strategies.IsConsistent
  · rw [bind_apply_ok _ _ (ensure_apply _ hconsistent _ _)] at made
    cases hsize : Size.roundUp? (max capacity firstOffset) alignment with
    | none =>
      rw [hsize, bind_apply_error _ _ (orFail_none ..)] at made
      cases made
    | some size =>
      have hle := Size.le_of_roundUp?_eq_some (by decide) hsize
      -- the first bytes are reserved, so there is never nothing to ask for
      have hpositive : 0 < size :=
        Nat.lt_of_lt_of_le (by decide) (Nat.le_trans (Nat.le_max_right ..) hle)
      rw [hsize, bind_apply_ok _ _ (orFail_some ..)] at made
      cases hrun : Region.allocate strategies.source size alignment environment machine with
      | mk result middle =>
        cases result with
        | error reason =>
          rw [bind_apply_error _ _ hrun] at made
          cases made
        | ok region =>
          rw [bind_apply_ok _ _ hrun, bind_apply_ok _ _ (emit_apply ..)] at made
          cases made
          exact ⟨size, region, middle, hconsistent, hpositive, rfl, hrun, rfl, rfl⟩
  · rw [bind_apply_error _ _ (ensure_apply_not _ hconsistent _ _)] at made
    cases made

/-- A new arena is backed by the region that it asked for. -/
theorem backed_of_create {strategies : Strategies} {diagnostics : Diagnostics} {machine' : Machine}
    (made : create capacity strategies diagnostics environment machine = (.ok arena, machine')) :
    arena.Backed := by
  obtain ⟨size, region, middle, hconsistent, hpositive, -, hrun, rfl, -⟩ := create_ok made
  have hanswer := Region.answer_allocate strategies.source hpositive alignment_power alignment_le
    environment machine
  rw [hrun] at hanswer
  exact ⟨hconsistent, Source.suits_of_answer hpositive hanswer.symm⟩

/-- The buffer of every arena suits the family of its strategies. -/
theorem Reachable.backed (h : arena.Reachable) : arena.Backed := by
  induction h with
  | start environment machine machine' capacity strategies diagnostics arena made =>
    exact backed_of_create made
  | step before environment machine operation ih =>
    exact ih.after before.wellFormed environment machine operation

end Arena

end PagedAlloc
