import PagedAlloc.Proofs.BuildProtocol
import PagedAlloc.Proofs.RegionResizing

/-!
# Ownership

An arena owns one region for all of its life. The books know the region by just the length that the
arena takes for its capacity (`Arena.Owns`), so whatever the arena resizes, moves or gives back is
live at this moment and named as it is. What does not succeed leaves the region alone.

Only the debug layer leaves mappings behind. They stay in the books without access, and no later
buffer shares an address with them.
-/

namespace PagedAlloc.Arena

variable {paging : Size.Paging}

open Procedure

/-- The buffer of an arena is a live region of its family, beside the other ones. -/
structure Owns [Size.Paging] (state : Machine × Arena) (others : Ledger) : Prop where
  consistent : state.2.strategies.IsConsistent
  live : state.2.region.Live state.1 state.2.strategies.source.family alignment state.2.capacity
    others

/-- Mappings that were left behind: all access to them is gone, and there are none but under the
debug layer on mappings that may move. -/
structure Stale (arena : Arena) (left : Ledger) : Prop where
  isSealed : ∀ holding ∈ left, holding.origin = .pages true
  moved : left ≠ [] →
    arena.strategies.resizing = .remapMayMove ∧ arena.diagnostics.debugLayer = true

/-- The books, the buffer and the settings of an arena are what they were. -/
structure Still (before after : Machine × Arena) : Prop where
  books : before.1.SameBooks after.1
  region : after.2.region = before.2.region
  strategies : after.2.strategies = before.2.strategies
  diagnostics : after.2.diagnostics = before.2.diagnostics

/-- An arena owns a region again, beside the other ones and those that it left behind, and has named
live regions only. -/
structure Carries [Size.Paging] (others : Ledger) (before after : Machine × Arena) : Prop where
  strategies : after.2.strategies = before.2.strategies
  diagnostics : after.2.diagnostics = before.2.diagnostics
  strays : after.1.strays = before.1.strays
  owns : ∃ left, Stale before.2 left ∧ Owns after (left ++ others)

/-- What an operation may come to: the buffer is carried along, and left alone if it stops. -/
structure Ends [Size.Paging] {α : Type} (others : Ledger) (before after : Machine × Arena)
    (outcome : Except Stop α) : Prop where
  carries : Carries others before after
  stopped : ∀ reason, outcome = .error reason → Still before after

variable {environment : Environment} {machine : Machine} {arena : Arena} {others left : Ledger}
  {before after first second third : Machine × Arena}

namespace Stale

theorem nil (arena : Arena) : Stale arena [] := ⟨nofun, absurd rfl⟩

/-- What is left behind early and late is left behind together. -/
theorem append {more : Ledger} (h : Stale arena left) (h' : Stale arena more) :
    Stale arena (more ++ left) := by
  refine ⟨fun holding hmem => ?_, fun hmoved => ?_⟩
  · exact (List.mem_append.1 hmem).elim (h'.isSealed _) (h.isSealed _)
  · by_cases hmore : more = []
    · exact h.moved fun hnil => hmoved (by rw [hmore, hnil]; rfl)
    · exact h'.moved hmore

theorem congr {other : Arena} (h : Stale arena left) (strategies : other.strategies = arena.strategies)
    (diagnostics : other.diagnostics = arena.diagnostics) : Stale other left :=
  ⟨h.isSealed, fun hmoved => strategies ▸ diagnostics ▸ h.moved hmoved⟩

end Stale

/-- Nothing has happened yet. -/
theorem Still.refl (state : Machine × Arena) : Still state state := ⟨.refl _, rfl, rfl, rfl⟩

/-- Two stretches without a change make one. -/
theorem Still.trans (first second third : Machine × Arena) (h : Still first second)
    (h' : Still second third) : Still first third where
  books := h.books.trans h'.books
  region := h'.region.trans h.region
  strategies := h'.strategies.trans h.strategies
  diagnostics := h'.diagnostics.trans h.diagnostics

theorem Still.symm (h : Still before after) : Still after before :=
  ⟨⟨h.books.ledger.symm, h.books.strays.symm⟩, h.region.symm,
    h.strategies.symm, h.diagnostics.symm⟩

/-- Whatever leaves books and buffer alone leaves ownership as it is. -/
theorem Still.owns (h : Still before after) (owns : Owns before others) : Owns after others := by
  refine ⟨h.strategies ▸ owns.consistent, ?_⟩
  rw [capacity, h.region, h.strategies]
  exact ⟨h.books.holds owns.live.holds, owns.live.spans⟩

/-- A buffer that is left alone is carried along with nothing left behind. -/
theorem Still.carries (h : Still before after) (owns : Owns before others) :
    Carries others before after :=
  ⟨h.strategies, h.diagnostics, h.books.strays, [], .nil _, h.owns owns⟩

/-- An operation that touches neither books nor buffer may come to any outcome. -/
theorem Still.ends {α : Type} (h : Still before after) (owns : Owns before others)
    (outcome : Except Stop α) : Ends others before after outcome :=
  ⟨h.carries owns, fun _ _ => h⟩

/-- What a second operation leaves behind is added to what the first one left. -/
theorem Carries.trans (h : Carries others first second)
    (h' : ∀ more, Owns second more → Carries more second third) : Carries others first third := by
  obtain ⟨left, hstale, howns⟩ := h.owns
  obtain ⟨hstrategies, hdiagnostics, hstrays, more, hstale', howns'⟩ := h' _ howns
  refine ⟨hstrategies.trans h.strategies, hdiagnostics.trans h.diagnostics,
    hstrays.trans h.strays, more ++ left,
    hstale.append (hstale'.congr h.strategies.symm h.diagnostics.symm), ?_⟩
  rwa [List.append_assoc]

/-- Other contents in the same buffer change nothing for its owner. -/
theorem Owns.rewritten {memory : Memory Empty} (h : Owns (machine, arena) others)
    (same : memory.length = arena.region.memory.length) (length : Nat) :
    Owns (machine, { arena with
      region := { arena.region with memory := memory }
      length := length }) others := by
  refine ⟨h.consistent, ?_, ?_⟩
  · rw [Region.holding, same]
    exact h.live.holds
  · exact same ▸ h.live.spans

/-! ## Requests -/

/-- What an arena asks for is served in the place of its buffer, or not at all. -/
theorem Owns.request (h : Owns (machine, arena) others) (unmaps : environment.UnmapsLive)
    (capacity : Nat) :
    ∃ result middle, arena.request capacity environment machine = (result, middle) ∧
      Region.Serves environment machine middle arena.strategies.source.family alignment
        arena.capacity arena.region others
        (arena.strategies.resizing = .remapMayMove ∧ arena.diagnostics.debugLayer = true) result := by
  rw [Arena.request]
  split
  · obtain ⟨result, middle, hrun, hrelocates⟩ := Region.relocate_relocates h.live h.consistent rfl
      unmaps capacity arena.diagnostics
    exact ⟨result, middle, hrun, hrelocates.serves⟩
  · obtain ⟨result, middle, hrun, hresizes⟩ := Region.resize_resizes h.live h.consistent.2 capacity
      arena.diagnostics environment
    exact ⟨result, middle, hrun, hresizes.serves⟩

/-- A stale region is a mapping without access, once the kernel takes the access away. -/
theorem stale_of_leaves (protects : environment.ProtectsLive) {stale : Prop}
    (rare : stale → arena.strategies.resizing = .remapMayMove ∧ arena.diagnostics.debugLayer = true)
    (h : Region.Leaves environment arena.region stale left) : Stale arena left := by
  by_cases hstale : stale
  · obtain ⟨isSealed, rfl, hsealed⟩ := h.stale hstale
    refine ⟨fun holding hmem => ?_, fun _ => rare hstale⟩
    rw [List.mem_singleton.1 hmem, hsealed protects]
  · exact h.none hstale ▸ .nil arena

/-- Taking the buffer that a request gives, if it gives one. -/
theorem Owns.adopt (h : Owns (machine, arena) others) (protects : environment.ProtectsLive)
    {request : Procedure Machine Region} {result : Except Stop Region} {middle : Machine}
    (hrun : request environment machine = (result, middle))
    (serves : Region.Serves environment machine middle arena.strategies.source.family alignment
      arena.capacity arena.region others
      (arena.strategies.resizing = .remapMayMove ∧ arena.diagnostics.debugLayer = true) result) :
    ∃ outcome after, Arena.adopt request environment (machine, arena) = (outcome, after) ∧
      Ends others (machine, arena) after outcome := by
  cases result with
  | error reason =>
    have hstill : Still (machine, arena) (middle, arena) :=
      ⟨serves.refused reason rfl, rfl, rfl, rfl⟩
    exact ⟨_, _, adopt_error hrun arena, hstill.ends h _⟩
  | ok moved =>
    obtain ⟨left, hleaves, hsucceeds⟩ := serves.granted moved rfl
    refine ⟨_, _, adopt_ok_eq hrun arena, ⟨rfl, rfl, serves.strays, left,
      stale_of_leaves protects id hleaves, h.consistent, ?_⟩, nofun⟩
    exact (hsucceeds.congr (Region.sameBooks_log ..)).live

/-- Making room takes another buffer at most. -/
theorem Owns.makeRoom (h : Owns (machine, arena) others) (unmaps : environment.UnmapsLive)
    (protects : environment.ProtectsLive) (additional : Nat) :
    ∃ outcome after, Arena.makeRoom additional environment (machine, arena) = (outcome, after) ∧
      Ends others (machine, arena) after outcome := by
  have hstill := Still.refl (machine, arena)
  rw [makeRoom_eq]
  split
  · exact ⟨_, _, rfl, hstill.ends h _⟩
  · split
    · exact ⟨_, _, rfl, hstill.ends h _⟩
    · split
      · exact ⟨_, _, rfl, hstill.ends h _⟩
      · obtain ⟨result, middle, hrun, hserves⟩ := h.request unmaps _
        exact h.adopt protects hrun hserves

/-! ## Operations -/

/-- In an environment a procedure carries the buffer of an arena along, and leaves it alone where it
stops. -/
structure Retains [Size.Paging] {α : Type} (environment : Environment)
    (procedure : Procedure (Machine × Arena) α) : Prop where
  ends : ∀ {state others}, Owns state others →
    Ends others state (procedure environment state).2 (procedure environment state).1

section Retains

variable {α β : Type} {procedure : Procedure (Machine × Arena) α}
  {next : α → Procedure (Machine × Arena) β}

/-- Steps that leave the buffer alone make a procedure that does. -/
theorem still_bind (h : Follows Still procedure) (hnext : ∀ value, Follows Still (next value)) :
    Follows Still (procedure >>= next) :=
  Follows.bind Still.trans h hnext

/-- A procedure that only looks at the arena leaves the buffer alone. -/
theorem still_unchanged (h : ∀ environment state, (procedure environment state).2 = state) :
    Follows Still procedure :=
  Follows.of_unchanged Still.refl h

theorem Retains.of_still (h : Follows Still procedure) : Retains environment procedure :=
  ⟨fun howns => (h.holds environment _).ends howns _⟩

/-- Only the last step may touch the buffer: an error of the steps before it leaves everything as
it was. -/
theorem Retains.bind (h : Follows Still procedure) (hnext : ∀ value, Retains environment (next value)) :
    Retains environment (procedure >>= next) := by
  refine ⟨fun {state others} howns => ?_⟩
  have hfirst := h.holds environment state
  rw [bind_apply]
  cases hrun : procedure environment state with
  | mk result middle =>
    rw [hrun] at hfirst
    cases result with
    | error reason => exact hfirst.ends howns _
    | ok value =>
      have hends := (hnext value).ends (hfirst.owns howns)
      exact ⟨(hfirst.carries howns).trans fun more hmore => ((hnext value).ends hmore).carries,
        fun reason hreason => hfirst.trans _ _ _ (hends.stopped reason hreason)⟩

/-- Rephrasing the answer changes nothing about the buffer. -/
theorem Retains.map (h : Retains environment procedure) (answer : α → β) :
    Retains environment (answer <$> procedure) := by
  refine ⟨fun {state others} howns => ?_⟩
  have hends := h.ends howns
  cases hrun : procedure environment state with
  | mk outcome after =>
    rw [hrun] at hends
    rw [map_apply _ _ hrun]
    refine ⟨hends.carries, fun reason hreason => ?_⟩
    cases outcome with
    | ok value => cases hreason
    | error other => exact hends.stopped other rfl

end Retains

theorem still_ensure {condition : Prop} [Decidable condition] (fault : Fault) :
    Follows Still (ensure condition fault) := by
  apply still_unchanged
  intro environment state
  by_cases h : condition
  · rw [ensure_apply _ h]
  · rw [ensure_apply_not _ h]

theorem still_checked {α : Type} (result : Except Fault α) : Follows Still (checked result) := by
  apply still_unchanged
  intro environment state
  cases result <;> rfl

theorem still_own : Follows Still own := still_unchanged fun _ _ => rfl

theorem still_refuse (failure : Failure) : Follows Still (refuse failure) :=
  ⟨fun _ _ => ⟨⟨rfl, rfl⟩, rfl, rfl, rfl⟩⟩

theorem still_begin : Follows Still begin :=
  still_bind still_own fun _ => still_bind (still_ensure _) fun _ =>
    ⟨fun _ _ => ⟨.refl _, rfl, rfl, rfl⟩⟩

/-- The end of a build forgets the build and touches nothing else. -/
theorem still_endBuild (call : BuildEnd) : Follows Still (endBuild call) := by
  refine still_bind still_own fun arena => ?_
  cases arena.build with
  | none => exact still_unchanged fun _ _ => rfl
  | some build => exact ⟨fun _ _ => ⟨.refl _, rfl, rfl, rfl⟩⟩

/-- Committing moves the length, in the buffer that is there. -/
theorem still_commit : Follows Still commit := by
  refine still_bind (still_endBuild _) fun build => ?_
  cases build.failure with
  | some failure => exact ⟨fun _ _ => ⟨⟨rfl, rfl⟩, rfl, rfl, rfl⟩⟩
  | none =>
    exact still_bind still_own fun arena => still_bind (still_checked _) fun _ =>
      ⟨fun _ _ => ⟨⟨rfl, rfl⟩, rfl, rfl, rfl⟩⟩

theorem still_abandon : Follows Still abandon :=
  still_bind (still_endBuild _) fun _ => ⟨fun _ _ => ⟨.refl _, rfl, rfl, rfl⟩⟩

theorem still_ensureIdle (call : IdleCall) : Follows Still (ensureIdle call) :=
  still_bind still_own fun _ => still_ensure _

section Served

variable (unmaps : environment.UnmapsLive) (protects : environment.ProtectsLive)

include unmaps protects

/-- Making room carries the buffer along, and leaves it alone if it stops. -/
theorem retains_makeRoom (additional : Nat) : Retains environment (makeRoom additional) := by
  refine ⟨fun {state others} howns => ?_⟩
  obtain ⟨outcome, after, hrun, hends⟩ := howns.makeRoom unmaps protects additional
  exact hrun ▸ hends

/-- One addition carries the buffer along, and leaves it alone if it stops. -/
theorem retains_add [Size.Paging] (content : Stretch Empty) : Retains environment
    (add content) := by
  refine Retains.bind still_own fun arena => ?_
  cases arena.build with
  | none => exact .of_still (still_unchanged fun _ _ => rfl)
  | some build =>
    dsimp only
    cases build.failure with
    | some failure => exact .of_still (still_unchanged fun _ _ => rfl)
    | none =>
      refine ⟨fun {state others} howns => ?_⟩
      obtain ⟨machine, held⟩ := state
      obtain ⟨outcome, after, hrun, hends⟩ := howns.makeRoom unmaps protects content.length
      dsimp only
      cases outcome with
      | ok =>
        rw [bind_apply_ok _ _ (attempt_ok _ hrun)]
        -- there was room, and the bytes are written into the region that the request left
        exact ⟨hends.carries.trans fun more hmore => ⟨rfl, rfl, rfl, [], .nil _,
          hmore.rewritten (Memory.length_write ..) _⟩, nofun⟩
      | error reason =>
        have hstill := hends.stopped reason rfl
        cases reason with
        | fault fault =>
          rw [bind_apply_error _ _ (attempt_fault _ hrun)]
          exact hstill.ends howns _
        | failure failure =>
          rw [bind_apply_ok _ _ (attempt_failure _ hrun)]
          have hrefused := (still_refuse failure).holds environment after
          exact (hstill.trans _ _ _ hrefused).ends howns _

theorem retains_addAlign (align : Nat) : Retains environment (addAlign align) :=
  .bind (still_ensure _) fun _ => .bind still_own fun _ => .bind (still_checked _) fun _ =>
    .bind (still_checked _) fun _ => retains_add unmaps protects _

theorem retains_reserve (additional : Nat) : Retains environment (reserve additional) :=
  .bind (still_ensureIdle _) fun _ => retains_makeRoom unmaps protects additional

end Served

/-- Shrinking carries the buffer along, and leaves it alone if it stops. -/
theorem retains_shrink (protects : environment.ProtectsLive) : Retains environment shrink := by
  refine .bind (still_ensureIdle _) fun _ => ⟨fun {state others} howns => ?_⟩
  obtain ⟨machine, arena⟩ := state
  have hstill := Still.refl (machine, arena)
  rw [bind_apply_ok _ _ (own_apply ..)]
  dsimp only
  cases Size.roundUp arena.length alignment with
  | error fault =>
    rw [bind_apply_error _ _ (checked_error ..)]
    exact hstill.ends howns _
  | ok target =>
    rw [bind_apply_ok _ _ (checked_ok ..)]
    split
    · obtain ⟨result, middle, hrun, hresizes⟩ := Region.resize_resizes howns.live
        howns.consistent.2 target arena.diagnostics environment
      obtain ⟨outcome, after, hadopt, hends⟩ := howns.adopt protects hrun hresizes.serves
      show Ends others _ (Arena.adopt _ environment _).2 (Arena.adopt _ environment _).1
      rw [hadopt]
      exact hends
    · exact hstill.ends howns _

/-- Overwriting changes bytes, not the region that they are in. -/
theorem retains_overwrite (reference : Reference) (content : Stretch Empty) :
    Retains environment (overwrite reference content) := by
  refine .bind still_own fun arena => .bind (still_checked _) fun _ => ⟨fun {state others} howns => ?_⟩
  exact ⟨⟨rfl, rfl, rfl, [], .nil _, howns.rewritten (Memory.length_write ..) _⟩, nofun⟩

theorem still_truncate (reference : Reference) : Follows Still (truncate reference) :=
  still_bind (still_ensureIdle _) fun _ => still_bind still_own fun _ =>
    still_bind (still_ensure _) fun _ => ⟨fun _ _ => ⟨⟨rfl, rfl⟩, rfl, rfl, rfl⟩⟩

theorem still_clear : Follows Still clear :=
  still_bind (still_ensureIdle _) fun _ => ⟨fun _ _ => ⟨.refl _, rfl, rfl, rfl⟩⟩

/-! ## Additions of two parts -/

/-- What is added first: a length goes in front of its content. -/
def Addition.first? : Addition → Option Addition
  | prefixed content => some (.integer .lengthPrefix content.length)
  | text value => some (.integer .lengthPrefix (utf8 value).length)
  | bytes _ | zeroes _ | align _ | integer _ _ | pointer _ | terminated _ => none

/-- The same operation with what is added first, and no more. -/
def Operation.first? : Operation → Option Operation
  | add addition => addition.first?.map add
  | push addition => addition.first?.map push
  | reserve _ | shrink | truncate _ | clear | begin | commit | abandon | read _ _ | overwrite _ _ =>
    none

/-- An addition that stops leaves the buffer as it was, or as the first of its parts did. -/
def Addition.StopsStill [Size.Paging] (environment : Environment) (state : Machine × Arena)
    (addition : Addition) (outcome : Except Stop Unit) (after : Machine × Arena) : Prop :=
  ∀ reason, outcome = .error reason → Still state after ∨
    ∃ first ∈ addition.first?, ∃ middle, first.run environment state = (.ok (), middle) ∧
      Still middle after

/-- An operation that stops leaves the buffer as it was, or as the first of its parts did. -/
def Operation.StopsStill [Size.Paging] (environment : Environment) (state : Machine × Arena)
    (operation : Operation) (outcome : Except Stop Answer) (after : Machine × Arena) : Prop :=
  ∀ reason, outcome = .error reason → Still state after ∨
    ∃ first ∈ operation.first?, ∃ answer middle, first.run environment state = (.ok answer, middle) ∧
      Still middle after

/-- A prefixed addition has two parts, and it may stop after the first one has moved the buffer. -/
theorem addPrefixed_ends (unmaps : environment.UnmapsLive) (protects : environment.ProtectsLive)
    {state : Machine × Arena} (h : Owns state others) (content : Stretch Empty) :
    ∃ outcome after, addPrefixed content environment state = (outcome, after) ∧
      Carries others state after ∧
      ∀ reason, outcome = .error reason → Still state after ∨
        ∃ middle, addInteger .lengthPrefix content.length environment state = (.ok (), middle) ∧
          Still middle after := by
  unfold addPrefixed
  split
  · have hrefused := (still_refuse .overflow).holds environment state
    exact ⟨_, _, rfl, hrefused.carries h, fun _ _ => Or.inl hrefused⟩
  · have hfirst := (retains_add unmaps protects
      (Stretch.ofBytes (IntegerType.lengthPrefix.encode content.length))).ends h
    cases hrun : addInteger .lengthPrefix content.length environment state with
    | mk outcome middle =>
      rw [show add _ environment state = _ from hrun] at hfirst
      cases outcome with
      | error reason =>
        rw [bind_apply_error _ _ hrun]
        exact ⟨_, _, rfl, hfirst.carries, fun _ _ => Or.inl (hfirst.stopped reason rfl)⟩
      | ok =>
        rw [bind_apply_ok _ _ hrun]
        have hsecond := retains_add unmaps protects content
        refine ⟨_, _, rfl, hfirst.carries.trans fun more hmore => (hsecond.ends hmore).carries,
          fun reason hreason => Or.inr ⟨middle, rfl, ?_⟩⟩
        obtain ⟨left, -, howns⟩ := hfirst.carries.owns
        exact (hsecond.ends howns).stopped reason hreason

/-- Whatever comes of an addition, the buffer is carried along. -/
theorem Addition.ends (unmaps : environment.UnmapsLive) (protects : environment.ProtectsLive)
    {state : Machine × Arena} (h : Owns state others) (addition : Addition) :
    ∃ outcome after, addition.run environment state = (outcome, after) ∧
      Carries others state after ∧ addition.StopsStill environment state outcome after := by
  have hsingle (content : Stretch Empty) : ∃ outcome after,
      Arena.add content environment state = (outcome, after) ∧ Carries others state after ∧
        ∀ reason, outcome = .error reason → Still state after := by
    have hends := (retains_add unmaps protects content).ends h
    exact ⟨_, _, rfl, hends.carries, hends.stopped⟩
  cases addition with
  | bytes | zeroes | integer | pointer | terminated =>
    obtain ⟨outcome, after, hrun, hcarries, hstopped⟩ := hsingle _
    exact ⟨outcome, after, hrun, hcarries, fun reason hreason => Or.inl (hstopped reason hreason)⟩
  | align alignment =>
    have hends := (retains_addAlign unmaps protects alignment).ends h
    exact ⟨_, _, rfl, hends.carries, fun reason hreason => Or.inl (hends.stopped reason hreason)⟩
  | prefixed content =>
    obtain ⟨outcome, after, hrun, hcarries, hstopped⟩ := addPrefixed_ends unmaps protects h content
    refine ⟨outcome, after, hrun, hcarries, fun reason hreason => ?_⟩
    exact (hstopped reason hreason).imp_right fun hmiddle => ⟨_, rfl, hmiddle⟩
  | text value =>
    obtain ⟨outcome, after, hrun, hcarries, hstopped⟩ :=
      addPrefixed_ends unmaps protects h (Stretch.ofBytes (utf8 value))
    rw [Stretch.length_ofBytes] at hstopped
    refine ⟨outcome, after, hrun, hcarries, fun reason hreason => ?_⟩
    exact (hstopped reason hreason).imp_right fun hmiddle => ⟨_, rfl, hmiddle⟩

/-! ## Pushes -/

/-- The end of a push leaves the buffer to what the addition made of it, and succeeds if the addition
did. -/
theorem Reachable.push_run (h : arena.Reachable) (idle : arena.build = none) (addition : Addition)
    (environment : Environment) (machine : Machine) :
    ∃ outcome middle answer after,
      addition.run environment (machine, { arena with build := some ⟨arena.length, none⟩ }) =
        (outcome, middle) ∧
      Arena.push addition.run environment (machine, arena) = (answer, after) ∧
      Still middle after ∧ (outcome = .ok () → ∃ reference, answer = .ok reference) := by
  have hcommit (state : Machine × Arena) := still_commit.holds environment state
  have hbegin := begin_idle idle environment machine
  rcases addition.aligned_or_stopped environment machine
    { arena with build := some ⟨arena.length, none⟩ } with aligned | ⟨fault, hrun⟩
  · obtain ⟨outcome, machine', built, hrun, hadds⟩ :=
      h.staged_begun.run aligned environment machine
    refine ⟨outcome, (machine', built), ?_⟩
    rw [push, bind_apply_ok _ _ hbegin]
    cases outcome with
    | ok =>
      obtain ⟨machine'', hend⟩ := commit_staged hadds.build hadds.start_le environment machine'
      rw [bind_apply_ok _ _ (attempt_ok _ hrun)]
      exact ⟨_, _, hrun, rfl, hcommit _, fun _ => ⟨⟨arena.length⟩, congrArg Prod.fst hend⟩⟩
    | error reason =>
      cases reason with
      | fault fault =>
        rw [bind_apply_error _ _ (attempt_fault _ hrun)]
        exact ⟨_, _, hrun, rfl, .refl _, by simp⟩
      | failure failure =>
        -- the failed build is abandoned, which does not undo the growth of the buffer
        rw [bind_apply_ok _ _ (attempt_failure _ hrun)]
        exact ⟨_, _, hrun, rfl, (still_bind still_abandon fun _ =>
          still_unchanged fun _ _ => rfl).holds environment (machine', built), by simp⟩
  · rw [push, bind_apply_ok _ _ hbegin, bind_apply_error _ _ (attempt_fault _ hrun)]
    exact ⟨_, _, _, _, hrun, rfl, .refl _, by simp⟩

/-- A push carries the buffer along. If it stops, then the buffer is as before it or as a push of
the first part alone leaves it. -/
theorem Reachable.push_ends (h : arena.Reachable) (unmaps : environment.UnmapsLive)
    (protects : environment.ProtectsLive) (owns : Owns (machine, arena) others)
    (addition : Addition) :
    ∃ answer after, Arena.push addition.run environment (machine, arena) = (answer, after) ∧
      Carries others (machine, arena) after ∧
      ∀ reason, answer = .error reason → Still (machine, arena) after ∨
        ∃ first ∈ addition.first?, ∃ reference middle,
          Arena.push first.run environment (machine, arena) = (.ok reference, middle) ∧
            Still middle after := by
  by_cases idle : arena.build = none
  · obtain ⟨outcome, middle, answer, after, hrun, hpush, hend, hok⟩ :=
      h.push_run idle addition environment machine
    have hbegun : Still (machine, arena)
        (machine, { arena with build := some ⟨arena.length, none⟩ }) := ⟨.refl _, rfl, rfl, rfl⟩
    obtain ⟨outcome', middle', hrun', hcarries, hstops⟩ :=
      addition.ends unmaps protects (hbegun.owns owns)
    obtain ⟨rfl, rfl⟩ := Prod.mk.inj (hrun.symm.trans hrun')
    refine ⟨answer, after, hpush, ?_, ?_⟩
    · -- the addition is the same run beside whatever was left behind so far
      refine (hbegun.carries owns).trans fun more hmore => ?_
      obtain ⟨_, _, hagain, hcarries', -⟩ := addition.ends unmaps protects hmore
      obtain ⟨-, rfl⟩ := Prod.mk.inj (hrun.symm.trans hagain)
      exact hcarries'.trans fun _ hlast => hend.carries hlast
    · rintro reason rfl
      cases outcome with
      | ok =>
        -- an addition that succeeded is committed
        obtain ⟨reference, hreference⟩ := hok rfl
        cases hreference
      | error reason =>
        rcases hstops reason rfl with hstill | ⟨first, hfirst, built, hrunFirst, hstill⟩
        · exact Or.inl (hbegun.trans _ _ _ (hstill.trans _ _ _ hend))
        · -- a push of the first part alone ends with the buffer that was there when the second stopped
          obtain ⟨outcome, middle', answer, after', hrunFirst', hpushFirst, hendFirst, hokFirst⟩ :=
            h.push_run idle first environment machine
          obtain ⟨rfl, rfl⟩ := Prod.mk.inj (hrunFirst.symm.trans hrunFirst')
          obtain ⟨reference, rfl⟩ := hokFirst rfl
          exact Or.inr ⟨first, hfirst, reference, after', hpushFirst,
            hendFirst.symm.trans _ _ _ (hstill.trans _ _ _ hend)⟩
  · have hrun : Arena.push addition.run environment (machine, arena) =
        (.error (.fault .beginWithinBuild), machine, arena) := by
      rcases begin_cases environment machine arena with ⟨hidle, -⟩ | hbegin
      · exact absurd hidle idle
      · exact bind_apply_error _ _ hbegin
    exact ⟨_, _, hrun, (Still.refl _).carries owns, fun _ _ => Or.inl (.refl _)⟩

/-! ## The life of an arena -/

/-- Whatever comes of an operation, the buffer is carried along. -/
theorem Reachable.ends (h : arena.Reachable) (unmaps : environment.UnmapsLive)
    (protects : environment.ProtectsLive) (owns : Owns (machine, arena) others)
    (operation : Operation) :
    ∃ outcome after, operation.run environment (machine, arena) = (outcome, after) ∧
      Carries others (machine, arena) after ∧
      operation.StopsStill environment (machine, arena) outcome after := by
  have hkept {outcome : Except Stop Answer} {after : Machine × Arena}
      (hrun : operation.run environment (machine, arena) = (outcome, after))
      (hretains : Retains environment operation.run) :
      Carries others (machine, arena) after ∧
        operation.StopsStill environment (machine, arena) outcome after := by
    have hends := hretains.ends owns
    rw [hrun] at hends
    exact ⟨hends.carries, fun reason hreason => Or.inl (hends.stopped reason hreason)⟩
  -- all but additions and pushes touch the buffer in their last step at most
  cases operation with
  | reserve additional =>
    exact ⟨_, _, rfl, hkept rfl (.map (retains_reserve unmaps protects additional) _)⟩
  | shrink => exact ⟨_, _, rfl, hkept rfl (.map (retains_shrink protects) _)⟩
  | overwrite reference content =>
    exact ⟨_, _, rfl, hkept rfl (.map (retains_overwrite reference content) _)⟩
  | truncate reference => exact ⟨_, _, rfl, hkept rfl (.map (.of_still (still_truncate _)) _)⟩
  | clear => exact ⟨_, _, rfl, hkept rfl (.map (.of_still still_clear) _)⟩
  | begin => exact ⟨_, _, rfl, hkept rfl (.map (.of_still still_begin) _)⟩
  | commit => exact ⟨_, _, rfl, hkept rfl (.map (.of_still still_commit) _)⟩
  | abandon => exact ⟨_, _, rfl, hkept rfl (.map (.of_still still_abandon) _)⟩
  | read reference reading =>
    exact ⟨_, _, rfl, hkept rfl
      (.of_still (still_bind still_own fun _ => still_checked _))⟩
  | add addition =>
    obtain ⟨outcome, after, hrun, hcarries, hstops⟩ := addition.ends unmaps protects owns
    refine ⟨_, after, map_apply _ _ hrun, hcarries, fun reason hreason => ?_⟩
    cases outcome with
    | ok => cases hreason
    | error other =>
      refine (hstops other rfl).imp_right ?_
      rintro ⟨first, hfirst, middle, hrunFirst, hstill⟩
      exact ⟨.add first, Option.mem_map_of_mem _ hfirst, _, middle, map_apply _ _ hrunFirst, hstill⟩
  | push addition =>
    obtain ⟨answer, after, hrun, hcarries, hstops⟩ := h.push_ends unmaps protects owns addition
    refine ⟨_, after, map_apply _ _ hrun, hcarries, fun reason hreason => ?_⟩
    cases answer with
    | ok => cases hreason
    | error other =>
      refine (hstops other rfl).imp_right ?_
      rintro ⟨first, hfirst, reference, middle, hrunFirst, hstill⟩
      exact ⟨.push first, Option.mem_map_of_mem _ hfirst, _, middle, map_apply _ _ hrunFirst,
        hstill⟩

/-- A new arena owns a fresh region, beside all that was live before. -/
theorem owns_of_create (tidy : machine.Tidy) {capacity : Nat} {strategies : Strategies}
    {diagnostics : Diagnostics} {machine' : Machine}
    (made : create capacity strategies diagnostics environment machine = (.ok arena, machine')) :
    Owns (machine', arena) machine.ledger ∧ machine'.strays = machine.strays := by
  obtain ⟨size, region, middle, hconsistent, -, -, hrun, rfl, rfl⟩ := create_ok made
  obtain ⟨result, middle', hrun', hobtains⟩ :=
    Region.allocate_obtains tidy strategies.source size alignment environment
  obtain ⟨rfl, rfl⟩ := Prod.mk.inj (hrun'.symm.trans hrun)
  obtain ⟨hwhole, hlive, -⟩ := hobtains.granted region rfl
  have hfilled : (region.memory.fill 0 firstOffset (Run.constant 0)).length =
      region.memory.length := Memory.length_fill ..
  have hbuffer := hlive.of_length
    { region with memory := region.memory.fill 0 firstOffset (Run.constant 0) } rfl
    hfilled (hfilled.trans hwhole)
  exact ⟨⟨hconsistent, ⟨(Region.sameBooks_log ..).holds hbuffer.holds, hbuffer.spans⟩⟩,
    hobtains.strays⟩

/-- In the end the region is given back, and all others stay. -/
theorem Owns.release (h : Owns (machine, arena) others) (unmaps : environment.UnmapsLive) :
    ∃ after, Arena.release environment (machine, arena) = (.ok (), after, arena) ∧
      after.ledger.Perm others ∧ after.strays = machine.strays := by
  have hlive : arena.region.Live _ arena.strategies.source.family alignment arena.capacity others :=
    ⟨(Region.sameBooks_log machine
      (.arenaReleased arena.capacity arena.region.address :: machine.log)).holds h.live.holds,
      h.live.spans⟩
  obtain ⟨after, hrun, hbooks, hstrays⟩ := hlive.release h.consistent.1.symm unmaps
  rw [Arena.release, bind_apply_ok _ _ (own_apply ..), bind_apply_ok _ _ (note_apply ..)]
  exact ⟨after, ask_apply _ hrun _, hbooks, hstrays⟩

/-- The life of an arena that was made on a machine: it goes through any operations, each of which
may have succeeded, failed or been stopped, and the machine is what they leave of it. A live mapping
is unmapped and loses all access whenever the arena wants so. -/
inductive Lived [Size.Paging] (first : Machine) : Machine × Arena → Prop where
  | start (environment : Environment) (capacity : Nat) (strategies : Strategies)
      (diagnostics : Diagnostics) {machine : Machine} {arena : Arena}
      (made : create capacity strategies diagnostics environment first = (.ok arena, machine)) :
      Lived first (machine, arena)
  | step {state : Machine × Arena} (before : Lived first state) (environment : Environment)
      (unmaps : environment.UnmapsLive) (protects : environment.ProtectsLive)
      (operation : Operation) : Lived first (operation.run environment state).2

namespace Lived

variable {state : Machine × Arena} {first : Machine}

theorem reachable (h : Lived first state) : state.2.Reachable := by
  induction h with
  | start environment capacity strategies diagnostics made => exact .start _ _ _ _ _ _ _ made
  | @step state before environment unmaps protects operation ih =>
    exact ih.step environment state.1 operation

theorem owns (h : Lived first state) (tidy : first.Tidy) :
    ∃ left, Stale state.2 left ∧ Owns state (left ++ first.ledger) ∧
      state.1.strays = first.strays := by
  induction h with
  | start environment capacity strategies diagnostics made =>
    obtain ⟨howns, hstrays⟩ := owns_of_create tidy made
    exact ⟨[], .nil _, howns, hstrays⟩
  | step before environment unmaps protects operation ih =>
    obtain ⟨left, hstale, howns, hstrays⟩ := ih
    obtain ⟨outcome, after, hrun, hcarries, -⟩ :=
      before.reachable.ends unmaps protects howns operation
    obtain ⟨more, hstale', howns'⟩ := hcarries.owns
    rw [hrun]
    refine ⟨more ++ left, ?_, (List.append_assoc ..).symm ▸ howns', hcarries.strays.trans hstrays⟩
    exact (hstale.append hstale').congr hcarries.strategies hcarries.diagnostics

/-- At every moment of the life of an arena its buffer is a live region of its family that shares no
address with what was live before, nor with the mappings that were left behind, of which there are
none but under the debug layer. Whatever operation comes next, this is so afterwards, the mappings
left behind among the others; nothing was resized, unmapped or freed but a live region of just the
length that was named. An operation that stops leaves the region as it was. Where a length goes in
front of a content there are two additions, and if only the second one stops, the region is as the
first one left it. In the end the region is given back, and nothing is left of the arena in the books
but the mappings that lost all access. -/
theorem owns_one_region (h : Lived first state) (tidy : first.Tidy)
    (unmaps : environment.UnmapsLive) (protects : environment.ProtectsLive) :
    ∃ left, Stale state.2 left ∧ Owns state (left ++ first.ledger) ∧
      state.1.strays = first.strays ∧
      (∀ operation : Operation, ∃ outcome after,
        operation.run environment state = (outcome, after) ∧
          Carries (left ++ first.ledger) state after ∧
          operation.StopsStill environment state outcome after) ∧
      ∃ after, Arena.release environment state = (.ok (), after, state.2) ∧
        after.ledger.Perm (left ++ first.ledger) ∧ after.strays = first.strays := by
  obtain ⟨left, hstale, howns, hstrays⟩ := h.owns tidy
  obtain ⟨after, hrelease, hbooks, hafter⟩ := howns.release unmaps
  exact ⟨left, hstale, howns, hstrays, h.reachable.ends unmaps protects howns, after, hrelease,
    hbooks, hafter.trans hstrays⟩

end Lived

end PagedAlloc.Arena

namespace PagedAlloc.Arena

open Procedure

attribute [local instance] Size.Paging.common

/-- Under the debug layer one page is left behind by an arena that grew, and nothing else. -/
theorem owns_one_region_of_moved :
    let kernel : Environment :=
      { Environment.ordinary with
        grantsUnmap := fun _ _ _ => true
        grantsProtect := fun _ _ _ => true }
    let made : Arena :=
      ⟨⟨65536, 4096, (Memory.zeroed 4096).fill 0 16 (Run.constant 0)⟩, 16, .pages, ⟨true, false⟩, none⟩
    ∃ machine, create 16 .pages ⟨true, false⟩ kernel .fresh = (.ok made, machine) ∧
      let moved := ((Operation.push (.zeroes 5000)).run kernel (machine, made)).2
      (∃ left, Stale moved.2 left ∧ Owns moved left ∧ moved.1.strays = 0 ∧
        ∃ after, Arena.release kernel moved = (.ok (), after, moved.2) ∧ after.ledger.Perm left ∧
          after.strays = 0) ∧
      moved.2.capacity = 8192 ∧
        (Arena.release kernel moved).2.1.ledger = [⟨65536, 4096, .pages true⟩] := by
  intro kernel made
  have unmaps : kernel.UnmapsLive := fun _ _ _ _ => rfl
  have protects : kernel.ProtectsLive := fun _ _ _ _ => rfl
  obtain ⟨machine, hmade⟩ :
      ∃ machine, create 16 .pages ⟨true, false⟩ kernel .fresh = (.ok made, machine) := ⟨_, rfl⟩
  have hlived := (Lived.start kernel 16 .pages ⟨true, false⟩ hmade).step kernel unmaps protects
    (.push (.zeroes 5000))
  obtain ⟨left, hstale, howns, hstrays, -, after, hrelease, hbooks, hafter⟩ :=
    hlived.owns_one_region (show Machine.fresh.Tidy from nofun) unmaps protects
  obtain rfl := congrArg Prod.snd hmade
  rw [show Machine.fresh.ledger = [] from rfl, List.append_nil] at howns hbooks
  exact ⟨_, hmade, ⟨left, hstale, howns, hstrays, after, hrelease, hbooks, hafter⟩,
    by decide +kernel, by decide +kernel⟩

/-- An addition of two parts that stops may have moved the buffer: the heap gives 128 bytes for the
length in front of the content, and refuses the 256 bytes that the content needs. A fixed buffer stays
where it is, but the length is written. -/
theorem moved_by_failed_push :
    let small : Environment :=
      { Environment.ordinary with
        grantsHeap := fun _ size _ => size ≤ 128
        grantsUnmap := fun _ _ _ => true
        grantsProtect := fun _ _ _ => true }
    (∃ made machine, create 64 .heap .off small .fresh = (.ok made, machine) ∧
      let full := ((Operation.push (.zeroes 48)).run small (machine, made)).2
      let pushed := (Operation.push (.prefixed (Stretch.zeros 100))).run small full
      Lived .fresh full ∧ pushed.1 = .error (.failure (.outOfMemory 256)) ∧
        full.2.capacity = 64 ∧ pushed.2.2.capacity = 128 ∧ ¬ Still full pushed.2) ∧
    ∃ made machine, create 64 .fixedHeap .off small .fresh = (.ok made, machine) ∧
      let building := (Operation.begin.run small (machine, made)).2
      let added := (Operation.add (.prefixed (Stretch.zeros 100))).run small building
      Lived .fresh building ∧ added.1 = .error (.failure (.cannotGrow 64 128)) ∧
        building.2.length = 16 ∧ added.2.2.length = 20 ∧ ¬ Still building added.2 := by
  intro small
  have unmaps : small.UnmapsLive := fun _ _ _ _ => rfl
  have protects : small.ProtectsLive := fun _ _ _ _ => rfl
  constructor
  · obtain ⟨made, machine, hmade⟩ : ∃ made machine,
        create 64 .heap .off small .fresh = (.ok made, machine) := ⟨_, _, rfl⟩
    have hlived := (Lived.start small 64 .heap .off hmade).step small unmaps protects
      (.push (.zeroes 48))
    cases hmade
    refine ⟨_, _, rfl, hlived, by decide +kernel, by decide +kernel, by decide +kernel,
      fun hstill => ?_⟩
    have hcapacity := congrArg (·.memory.length) hstill.region
    revert hcapacity
    decide +kernel
  · obtain ⟨made, machine, hmade⟩ : ∃ made machine,
        create 64 .fixedHeap .off small .fresh = (.ok made, machine) := ⟨_, _, rfl⟩
    have hlived := (Lived.start small 64 .fixedHeap .off hmade).step small unmaps protects .begin
    cases hmade
    refine ⟨_, _, rfl, hlived, by decide +kernel, by decide +kernel, by decide +kernel,
      fun hstill => ?_⟩
    -- the length of the content is in the first byte behind the start
    have hbyte := congrArg (·.memory.cell 16) hstill.region
    revert hbyte
    decide +kernel

end PagedAlloc.Arena
