import PagedAlloc.Proofs.RoundTrips
import PagedAlloc.Proofs.SizeRequests

/-!
# Fixed buffers

Under the strategy that never resizes, an arena keeps the buffer that it was made with. Its limit is
not tested as such: what exceeds the capacity is a request for at least twice of it, and that is
declined. So an addition is made just if it fits (`Arena.Firm.meet`), the first one of a build that
does not fit decides the build, and the arena goes back to where the build began with all the room
that it had (`Arena.fixed_accepts_what_fits`).
-/

namespace PagedAlloc.Arena

variable {paging : Size.Paging}

open Procedure

/-- The arena after operations, each with the kernel and the machine that it meets. -/
def afterAll [Size.Paging] : Arena → List (Environment × Machine × Operation) → Arena
  | arena, [] => arena
  | arena, (environment, machine, operation) :: rest =>
    (arena.after environment machine operation).afterAll rest

/-- A whole build: it begins, makes all additions whatever comes of each, and is committed. -/
def attemptBuild [Size.Paging] (additions : List Addition) :
    Procedure (Machine × Arena) (List (Except Failure Unit) × Except Failure Reference) := do
  begin
  let outcomes ← addEach additions
  return (outcomes, ← attempt commit)

/-- The additions of a build are aligned, and can be counted where a number goes before them. -/
def Proper (additions : List Addition) : Prop :=
  ∀ addition ∈ additions, addition.Aligned ∧ ¬ addition.Oversized

instance : DecidablePred Proper := fun additions =>
  inferInstanceAs (Decidable (∀ addition ∈ additions, _))

/-- The build runs to its end, and its commit gives a reference. -/
def Commits [Size.Paging] (environment : Environment) (machine : Machine) (arena : Arena)
    (additions : List Addition) : Prop :=
  ∃ outcomes reference state, attemptBuild additions environment (machine, arena) =
    (.ok (outcomes, .ok reference), state)

/-- What a fixed arena tells where so many bytes in all do not fit: that its capacity cannot grow to
what it wants for some of them, or that no size has room for them. -/
inductive Declines (arena : Arena) (needed : Nat) : Failure → Prop where
  | full (part requested : Nat) (exceeds : arena.capacity < part) (within : part ≤ needed)
      (wanted : arena.wanted? part = some requested) (room : Representable alignment needed) :
      Declines arena needed (.cannotGrow arena.capacity requested)
  | overflow (large : ¬ Representable alignment needed) : Declines arena needed .overflow

/-- A build that fits: all its additions are made, and they are kept. -/
structure Accepted [Size.Paging] (environment : Environment) (machine : Machine) (arena : Arena)
    (additions : List Addition) (last : Machine × Arena) : Prop where
  run : attemptBuild additions environment (machine, arena) =
    (.ok (List.replicate additions.length (.ok ()), .ok ⟨arena.length⟩), last)
  length : last.2.length = arena.length + (encodings arena.length additions).length
  idle : last.2.build = none
  same : SameBuffer arena last.2

/-- A build that does not fit: the earlier additions are made, the next one passes the capacity and
is declined, and the later ones repeat the failure without any effect. The commit goes back to where
the build began, and every build that fits there is made afterwards. -/
structure Declined [Size.Paging] (environment : Environment) (machine : Machine) (arena : Arena)
    (earlier : List Addition) (addition : Addition) (later : List Addition) (failure : Failure)
    (middle last : Machine × Arena) : Prop where
  fits : arena.length + (encodings arena.length earlier).length ≤ arena.capacity
  exceeds :
    arena.capacity < arena.length + (encodings arena.length (earlier ++ [addition])).length
  told : arena.Declines (arena.length + (encodings arena.length (earlier ++ [addition])).length)
    failure
  added : addEach (earlier ++ [addition]) environment
      (machine, { arena with build := some ⟨arena.length, none⟩ }) =
    (.ok (List.replicate earlier.length (.ok ()) ++ [.error failure]), middle)
  repeated : addEach later environment middle =
    (.ok (List.replicate later.length (.error failure)), middle)
  committed : commit environment middle = (.error (.failure failure), last)
  run : attemptBuild (earlier ++ addition :: later) environment (machine, arena) =
    (.ok (List.replicate earlier.length (.ok ()) ++
      List.replicate (later.length + 1) (.error failure), .error failure), last)
  length : last.2.length = arena.length
  idle : last.2.build = none
  same : SameBuffer arena last.2
  afterwards : ∀ environment machine more, Proper more →
    arena.length + (encodings arena.length more).length ≤ arena.capacity →
      Commits environment machine last.2 more

/-- A well-formed arena whose buffer is never resized, shorter than half of all addresses. -/
structure Firm [Size.Paging] (arena : Arena) : Prop where
  fixed : arena.strategies.resizing = .noOp
  short : arena.capacity < 1 <<< 63
  rounded : arena.Rounded
  wellFormed : arena.WellFormed

/-- What comes of a demand for so many bytes by a build that has not failed: they fit and are there,
or they do not and the build has failed. -/
inductive Takes (arena : Arena) (start size : Nat) : Except Stop Unit → Arena → Prop where
  | made {after : Arena} (fits : arena.length + size ≤ arena.capacity)
      (same : SameBuffer arena after) (length : after.length = arena.length + size)
      (build : after.build = some ⟨start, none⟩) : Takes arena start size (.ok ()) after
  | declined {after : Arena} {failure : Failure} (exceeds : arena.capacity < arena.length + size)
      (told : arena.Declines (arena.length + size) failure) (same : SameBuffer arena after)
      (build : after.build = some ⟨start, some failure⟩) :
      Takes arena start size (.error (.failure failure)) after

variable {environment : Environment} {machine : Machine} {arena after made : Arena}
  {start needed part size : Nat} {failure first : Failure} {addition : Addition}
  {additions : List Addition}

/-! ## Firm arenas -/

/-- An arena with the same buffer and settings is firm as well. -/
theorem Firm.of_same (h : arena.Firm) (same : SameBuffer arena after)
    (formed : after.WellFormed) : after.Firm where
  fixed := same.strategies ▸ h.fixed
  short := same.capacity ▸ h.short
  rounded := by
    refine ⟨⟨same.strategies ▸ h.rounded.backed.consistent, ?_⟩, same.capacity ▸ h.rounded.aligned⟩
    rw [same.strategies, same.capacity]
    exact h.rounded.backed.suits
  wellFormed := formed

theorem Firm.aligns (h : arena.Firm) : arena.Aligns :=
  Nat.lt_of_le_of_lt h.wellFormed.fits h.short

/-! ## Requests of a fixed arena -/

/-- A buffer that is never resized does not move. -/
theorem mayMove_of_fixed (fixed : arena.strategies.resizing = .noOp) :
    arena.strategies.mayMove = false := by
  unfold Strategies.mayMove
  rw [fixed]
  rfl

/-- A fixed arena gets what it has, and nothing else. -/
theorem request_fixed [Size.Paging] (fixed : arena.strategies.resizing = .noOp) (capacity : Nat)
    (environment : Environment) (machine : Machine) :
    arena.request capacity environment machine =
      (if capacity ≤ arena.capacity then .ok arena.region
        else .error (.failure (.cannotGrow arena.capacity capacity)), machine) := by
  unfold request
  rw [mayMove_of_fixed fixed, Bool.and_false, if_neg Bool.false_ne_true, fixed, Region.resize]
  split <;> rfl

/-- Making room leaves a fixed arena as it is. -/
theorem makeRoom_fixed (fixed : arena.strategies.resizing = .noOp) (additional : Nat)
    (environment : Environment) (machine : Machine) :
    (makeRoom additional environment (machine, arena)).2.2 = arena := by
  rw [makeRoom_eq]
  split
  · rfl
  · split
    · rfl
    · split
      · rfl
      · rename_i capacity _
        have hrequest := request_fixed fixed capacity environment machine
        split at hrequest
        · rw [adopt_ok_eq hrequest]
        · rw [adopt_error hrequest]

/-- Shrinking leaves an arena as it is that may not move. -/
theorem shrink_stays (stays : arena.strategies.mayMove = false) (environment : Environment)
    (machine : Machine) : (shrink environment (machine, arena)).2 = (machine, arena) := by
  rcases shrink_cases environment machine arena with
    ⟨fault, -, hrun⟩ | ⟨target, -, -, hrun⟩ | ⟨target, -, -, hmoves, -⟩
  · rw [hrun]
  · rw [hrun]
  · cases stays.symm.trans hmoves

/-- Nothing takes its buffer from a fixed arena. -/
theorem invariant_fixed (fixed : made.strategies.resizing = .noOp) :
    Invariant (fun _ => True) fun state => SameBuffer made state.2 where
  sits hsits same := same.trans hsits.buffer
  room {environment state} _ same additional := by
    have hfixed : state.2.strategies.resizing = .noOp := same.strategies ▸ fixed
    rwa [makeRoom_fixed hfixed additional environment state.1]
  shrink {environment state} _ same := by
    have hfixed : state.2.strategies.resizing = .noOp := same.strategies ▸ fixed
    rwa [shrink_stays (mayMove_of_fixed hfixed) environment state.1]

/-- A run of a fixed arena keeps its buffer. -/
theorem Reachable.afterAll_same (h : arena.Reachable) (fixed : arena.strategies.resizing = .noOp)
    (steps : List (Environment × Machine × Operation)) :
    (arena.afterAll steps).Reachable ∧ SameBuffer arena (arena.afterAll steps) := by
  induction steps generalizing arena with
  | nil => exact ⟨h, .refl arena⟩
  | cons step rest ih =>
    obtain ⟨environment, machine, operation⟩ := step
    have hsame : SameBuffer arena (arena.after environment machine operation) :=
      (invariant_fixed fixed).operation h trivial (.refl arena) operation
    obtain ⟨hreachable, hlater⟩ := ih (h.step environment machine operation)
      (hsame.strategies ▸ fixed)
    exact ⟨hreachable, hsame.trans hlater⟩

/-! ## What is declined -/

/-- What does not fit a machine word is not representable. -/
theorem not_representable_of_limit (large : Size.limit ≤ needed) :
    ¬ Representable alignment needed := by
  rintro ⟨size, hlimit, -, hle⟩
  omega

theorem Representable.le (h : Representable alignment needed) (within : part ≤ needed) :
    Representable alignment part := by
  obtain ⟨size, hlimit, hdvd, hle⟩ := h
  exact ⟨size, hlimit, hdvd, Nat.le_trans within hle⟩

/-- What is declined for some bytes is declined for all of them, if there is a size for these. -/
theorem Declines.weaken (h : arena.Declines part failure) (within : part ≤ needed)
    (room : Representable alignment needed) : arena.Declines needed failure := by
  cases h with
  | full portion requested exceeds hwithin wanted _ =>
    exact .full portion requested exceeds (Nat.le_trans hwithin within) wanted room
  | overflow large => exact absurd (room.le within) large

/-- Arenas of the same capacity decline alike. -/
theorem Declines.congr (h : arena.Declines needed failure)
    (same : after.capacity = arena.capacity) : after.Declines needed failure := by
  cases h with
  | full portion requested exceeds within wanted room =>
    rw [← same]
    refine .full portion requested (same ▸ exceeds) within ?_ room
    rw [← wanted]
    unfold wanted?
    rw [same]
  | overflow large => exact .overflow large

/-- Room is made in a fixed arena just if there is some. -/
theorem Firm.makeRoom (h : arena.Firm) (additional : Nat) (environment : Environment)
    (machine : Machine) :
    (arena.length + additional ≤ arena.capacity ∧
      Arena.makeRoom additional environment (machine, arena) = (.ok (), machine, arena)) ∨
    arena.capacity < arena.length + additional ∧ ∃ failure,
      arena.Declines (arena.length + additional) failure ∧
      Arena.makeRoom additional environment (machine, arena) =
        (.error (.failure failure), machine, arena) := by
  have hcalm : ¬ (arena.diagnostics.forceRelocation && arena.strategies.mayMove) = true := by
    rw [mayMove_of_fixed h.fixed, Bool.and_false]
    exact Bool.false_ne_true
  rw [makeRoom_eq]
  by_cases hfits : arena.length + additional ≤ arena.capacity
  · have hlimit := Nat.lt_of_le_of_lt hfits h.rounded.backed.capacity_lt
    rw [Size.add?, if_pos hlimit]
    dsimp only
    rw [if_pos ⟨hfits, hcalm⟩]
    exact Or.inl ⟨hfits, rfl⟩
  · refine Or.inr ⟨Nat.lt_of_not_le hfits, ?_⟩
    by_cases hlimit : arena.length + additional < Size.limit
    · rw [Size.add?, if_pos hlimit]
      dsimp only
      rw [if_neg fun hroom => hfits hroom.1]
      have hrepresentable : (arena.wanted? (arena.length + additional)).isSome ↔ _ :=
        h.rounded.wanted_iff h.short
      cases hwanted : arena.wanted? (arena.length + additional) with
      | none =>
        rw [hwanted] at hrepresentable
        exact ⟨_, .overflow fun hroom => Bool.false_ne_true (hrepresentable.2 hroom), rfl⟩
      | some requested =>
        -- at least twice the capacity is asked for, and nothing beyond the capacity is given
        have hmore := le_of_wanted?_eq_some hwanted
        have hrequest := request_fixed h.fixed requested environment machine
        rw [if_neg (by omega)] at hrequest
        rw [hwanted] at hrepresentable
        exact ⟨_, .full _ requested (Nat.lt_of_not_le hfits) (Nat.le_refl _) hwanted
          (hrepresentable.1 rfl), adopt_error hrequest arena⟩
    · rw [Size.add?, if_neg hlimit]
      exact ⟨_, .overflow (not_representable_of_limit (Nat.le_of_not_lt hlimit)), rfl⟩

/-! ## Additions -/

/-- Cells are added to a fixed arena just if they fit. -/
theorem Firm.add (h : arena.Firm) (building : arena.build = some ⟨start, none⟩)
    (content : Stretch Empty) (environment : Environment) (machine : Machine) :
    ∃ outcome machine' after, Arena.add content environment (machine, arena) =
        (outcome, machine', after) ∧ arena.Takes start content.length outcome after := by
  rw [add_building building]
  rcases h.makeRoom content.length environment machine with
    ⟨hfits, hroom⟩ | ⟨hexceeds, failure, htold, hroom⟩
  · rw [hroom]
    exact ⟨_, _, _, rfl, .made hfits ⟨rfl, rfl, rfl, rfl⟩ rfl building⟩
  · rw [hroom]
    refine ⟨_, _, _, rfl, .declined hexceeds htold ⟨rfl, rfl, rfl, rfl⟩ ?_⟩
    show arena.build.map _ = _
    rw [building]
    rfl

/-- What comes of a demand behind another one that was met comes of both. -/
theorem Takes.behind {outcome : Except Stop Unit} {last : Arena}
    (h : after.Takes start size outcome last) (same : SameBuffer arena after)
    (length : after.length = arena.length + part) :
    arena.Takes start (part + size) outcome last := by
  cases h with
  | made fits same' length' build =>
    rw [length, same.capacity] at fits
    rw [length] at length'
    exact .made (by omega) (same.trans same') (by omega) build
  | declined exceeds told same' build =>
    rw [length, same.capacity] at exceeds
    rw [length, Nat.add_assoc] at told
    exact .declined (by omega) (told.congr same.capacity.symm) (same.trans same') build

/-- Demands for cells are met in a fixed arena just if they fit all together. -/
theorem Firm.meet (h : arena.Firm) (building : arena.build = some ⟨start, none⟩)
    {demands : List Demand} (cells : ∀ demand ∈ demands, ∃ content, demand = .cells content)
    (single : demands.length ≤ 1 ∨
      Representable alignment (arena.length + (demands.map Demand.size).sum))
    (environment : Environment) (machine : Machine) :
    ∃ outcome machine' after, Arena.meet demands environment (machine, arena) =
        (outcome, machine', after) ∧
      arena.Takes start (demands.map Demand.size).sum outcome after := by
  induction demands generalizing arena machine with
  | nil => exact ⟨_, _, _, rfl, .made h.wellFormed.fits (.refl arena) rfl building⟩
  | cons demand rest ih =>
    obtain ⟨content, rfl⟩ := cells demand (List.mem_cons_self ..)
    obtain ⟨outcome, machine', after, hrun, htakes⟩ := h.add building content environment machine
    have hrun' : (Demand.cells content).run environment (machine, arena) =
      (outcome, machine', after) := hrun
    rw [List.map_cons, List.sum_cons] at single ⊢
    rw [Arena.meet]
    cases htakes with
    | declined exceeds told same build =>
      rw [bind_apply_error _ _ hrun']
      refine ⟨_, _, _, rfl, .declined (Nat.lt_of_lt_of_le exceeds ?_) ?_ same build⟩
      · exact Nat.add_le_add_left (Nat.le_add_right ..) _
      · -- an overflow is told of the whole only if the whole would not be representable
        rcases single with hsingle | hroom
        · obtain rfl : rest = [] := by simpa using hsingle
          exact told
        · exact told.weaken (Nat.add_le_add_left (Nat.le_add_right ..) _) hroom
    | made fits same length build =>
      have hformed := ((grows_add content).holds environment (machine, arena) h.wellFormed).1
      rw [hrun] at hformed
      obtain ⟨outcome, machine', last, hrest, htakes⟩ := ih (h.of_same same hformed) build
        (fun other hother => cells other (List.mem_cons_of_mem _ hother))
        (single.imp Nat.le_of_succ_le (fun hroom => by rwa [length, Nat.add_assoc])) machine'
      rw [bind_apply_ok _ _ hrun']
      exact ⟨_, _, _, hrest, htakes.behind same length⟩

/-- An addition demands one thing only, or no more than a number of four bytes can count. -/
theorem Addition.demands_single (counted : ¬ addition.Oversized) (length : Nat) :
    (addition.demands length).length ≤ 1 ∨
      ((addition.demands length).map Demand.size).sum ≤ 4 + 1 <<< 32 := by
  have hprefixed {content : Stretch Empty}
      (hcounted : content.length < IntegerType.lengthPrefix.modulus) :
      ((prefixedDemands content).map Demand.size).sum ≤ 4 + 1 <<< 32 := by
    have hlength : content.length < 1 <<< 32 := hcounted
    rw [prefixedDemands, if_neg (Nat.not_le.2 hcounted)]
    simp only [List.map_cons, List.map_nil, List.sum_cons, List.sum_nil, Demand.size,
      Stretch.length_ofBytes, IntegerType.length_encode, IntegerType.lengthPrefix]
    omega
  cases addition with
  | bytes | zeroes | integer | pointer | terminated => exact Or.inl (Nat.le_refl 1)
  | align alignment =>
    rw [demands]
    split
    · exact Or.inl (Nat.le_refl 1)
    · exact Or.inl (Nat.zero_le 1)
  | prefixed content => exact Or.inr (hprefixed (Nat.not_le.1 counted))
  | text value =>
    refine Or.inr (hprefixed ?_)
    rw [Stretch.length_ofBytes]
    exact Nat.not_le.1 counted

/-- An addition to a fixed arena is made just if its encoding fits. -/
theorem Firm.takes (h : arena.Firm) (building : arena.build = some ⟨start, none⟩)
    (aligned : addition.Aligned) (counted : ¬ addition.Oversized) (environment : Environment)
    (machine : Machine) :
    ∃ outcome machine' after, addition.run environment (machine, arena) =
        (outcome, machine', after) ∧ after.WellFormed ∧
      arena.Takes start (addition.encoding arena.length).length outcome after := by
  have hsize := Addition.size_demands aligned counted h.aligns
  have hsingle : (addition.demands arena.length).length ≤ 1 ∨
      Representable alignment
        (arena.length + ((addition.demands arena.length).map Demand.size).sum) := by
    refine (Addition.demands_single counted arena.length).imp_right fun hshort => ?_
    have hlength : arena.length < 1 <<< 63 := h.aligns
    refine ⟨1 <<< 63 + 1 <<< 33, by decide, by decide, ?_⟩
    have hmore : 4 + 1 <<< 32 ≤ 1 <<< 33 := by decide
    omega
  obtain ⟨outcome, machine', after, hmeet, htakes⟩ :=
    h.meet building (addition.demands_cells arena.length) hsingle environment machine
  have hrun := (Addition.run_eq_meet aligned counted h.aligns environment machine).trans hmeet
  have hformed := (addition.grows.holds environment (machine, arena) h.wellFormed).1
  rw [hrun] at hformed
  exact ⟨outcome, machine', after, hrun, hformed, hsize ▸ htakes⟩

/-! ## All additions of a build -/

/-- Additions that fit all together are made. -/
theorem Firm.addEach_fits (h : arena.Firm) (building : arena.build = some ⟨start, none⟩)
    (proper : Proper additions)
    (fits : arena.length + (encodings arena.length additions).length ≤ arena.capacity)
    (environment : Environment) (machine : Machine) :
    ∃ machine' after, addEach additions environment (machine, arena) =
        (.ok (List.replicate additions.length (.ok ())), machine', after) ∧ after.Firm ∧
      SameBuffer arena after ∧ after.build = some ⟨start, none⟩ ∧
      after.length = arena.length + (encodings arena.length additions).length := by
  induction additions generalizing arena machine with
  | nil => exact ⟨machine, arena, rfl, h, .refl arena, building, rfl⟩
  | cons addition rest ih =>
    obtain ⟨⟨haligned, hcounted⟩, hrest⟩ := List.forall_mem_cons.1 proper
    rw [encodings] at fits ⊢
    simp only [List.length_append] at fits ⊢
    obtain ⟨outcome, machine', middle, hrun, hformed, htakes⟩ :=
      h.takes building haligned hcounted environment machine
    cases htakes with
    -- all additions fit together, so each of them fits behind those before it
    | declined exceeds => omega
    | made _ same length build =>
      have hfits : middle.length + (encodings middle.length rest).length ≤ middle.capacity := by
        rw [length, same.capacity]
        omega
      obtain ⟨last, after, heach, hfirm, hsame, hbuild, hlength⟩ :=
        ih (h.of_same same hformed) build hrest hfits machine'
      rw [addEach_cons (attempt_ok _ hrun), heach]
      refine ⟨last, after, rfl, hfirm, same.trans hsame, hbuild, ?_⟩
      rw [hlength, length, Nat.add_assoc]

/-- After a failure all additions repeat it and change nothing. -/
theorem Firm.addEach_repeats (h : arena.Firm) (failed : arena.build = some ⟨start, some first⟩)
    (proper : Proper additions) (environment : Environment) (machine : Machine) :
    addEach additions environment (machine, arena) =
      (.ok (List.replicate additions.length (.error first)), machine, arena) := by
  induction additions with
  | nil => rfl
  | cons addition rest ih =>
    obtain ⟨⟨haligned, hcounted⟩, hrest⟩ := List.forall_mem_cons.1 proper
    have hguarded :=
      guarded_of_counted haligned hcounted (fun _ _ => h.aligns) environment machine
    rw [addEach_cons (attempt_failure _ (hguarded.failed _ _ failed)), ih hrest]
    rfl

/-- Additions may be made in two parts. -/
theorem addEach_append {outcomes outcomes' : List (Except Failure Unit)} {later : List Addition}
    {state middle last : Machine × Arena}
    (hfirst : addEach additions environment state = (.ok outcomes, middle))
    (hlater : addEach later environment middle = (.ok outcomes', last)) :
    addEach (additions ++ later) environment state = (.ok (outcomes ++ outcomes'), last) := by
  induction additions generalizing state outcomes with
  | nil =>
    cases hfirst
    exact hlater
  | cons addition rest ih =>
    rw [addEach] at hfirst
    obtain ⟨outcome, between, hrun, hfirst⟩ := bind_ok hfirst
    obtain ⟨others, _, hrest, hpure⟩ := bind_ok hfirst
    cases hpure
    have hadds := ih hrest
    rw [List.cons_append, addEach, bind_apply_ok _ _ hrun, bind_apply_ok _ _ hadds]
    rfl

/-- Of additions that exceed a capacity there is a first one that does. -/
theorem exists_first_exceeding {capacity length : Nat} (present : length ≤ capacity)
    (exceeds : capacity < length + (encodings length additions).length) :
    ∃ earlier addition later, additions = earlier ++ addition :: later ∧
      length + (encodings length earlier).length ≤ capacity ∧
      capacity < length + (encodings length (earlier ++ [addition])).length := by
  induction additions generalizing length with
  | nil => exact absurd exceeds (Nat.not_lt.2 present)
  | cons addition rest ih =>
    by_cases hfits : length + (addition.encoding length).length ≤ capacity
    · have hrest : capacity < length + (addition.encoding length).length +
          (encodings (length + (addition.encoding length).length) rest).length := by
        simpa [encodings, Nat.add_assoc] using exceeds
      obtain ⟨earlier, next, later, rfl, hroom, hlarge⟩ := ih hfits hrest
      refine ⟨addition :: earlier, next, later, rfl, ?_, ?_⟩
      · simpa [encodings, Nat.add_assoc] using hroom
      · simpa [encodings, Nat.add_assoc] using hlarge
    · refine ⟨[], addition, rest, rfl, present, ?_⟩
      simpa [encodings] using Nat.lt_of_not_le hfits

/-! ## Whole builds -/

/-- How a build goes, once it is known how its additions and its commit do. -/
theorem attemptBuild_eq (idle : arena.build = none) {outcomes : List (Except Failure Unit)}
    {committed : Except Failure Reference} {middle last : Machine × Arena}
    (hadd : addEach additions environment
        (machine, { arena with build := some ⟨arena.length, none⟩ }) = (.ok outcomes, middle))
    (hcommit : attempt commit environment middle = (.ok committed, last)) :
    attemptBuild additions environment (machine, arena) = (.ok (outcomes, committed), last) := by
  rw [attemptBuild, bind_apply_ok _ _ (begin_idle idle _ _), bind_apply_ok _ _ hadd,
    bind_apply_ok _ _ hcommit]
  rfl

/-- Beginning a build leaves the buffer alone. -/
theorem Firm.begun (h : arena.Firm) :
    Firm { arena with build := some ⟨arena.length, none⟩ } :=
  h.of_same ⟨rfl, rfl, rfl, rfl⟩ h.wellFormed.begun.wellFormed

/-- A build that fits is made and kept. -/
theorem Firm.accepts (h : arena.Firm) (idle : arena.build = none) (proper : Proper additions)
    (fits : arena.length + (encodings arena.length additions).length ≤ arena.capacity)
    (environment : Environment) (machine : Machine) :
    ∃ last, Accepted environment machine arena additions last := by
  obtain ⟨middle, built, hadd, -, hsame, hbuild, hlength⟩ :=
    h.begun.addEach_fits rfl proper fits environment machine
  have hstart : arena.length ≤ built.length := hlength.symm ▸ Nat.le_add_right ..
  obtain ⟨last, hcommit⟩ := commit_staged hbuild hstart environment middle
  refine ⟨_, attemptBuild_eq idle hadd (attempt_ok _ hcommit), hlength, rfl, ?_⟩
  exact ⟨hsame.address, hsame.capacity, hsame.strategies, hsame.diagnostics⟩

/-- A build that exceeds the capacity fails where it does, and goes back. -/
theorem Firm.declines (h : arena.Firm) (idle : arena.build = none) {earlier later : List Addition}
    (proper : Proper (earlier ++ addition :: later))
    (fits : arena.length + (encodings arena.length earlier).length ≤ arena.capacity)
    (exceeds : arena.capacity <
      arena.length + (encodings arena.length (earlier ++ [addition])).length)
    (environment : Environment) (machine : Machine) :
    ∃ failure middle last,
      Declined environment machine arena earlier addition later failure middle last := by
  obtain ⟨hearlier, ⟨haligned, hcounted⟩, hlater⟩ :
      Proper earlier ∧ (addition.Aligned ∧ ¬ addition.Oversized) ∧ Proper later := by
    simpa only [Proper, List.forall_mem_append, List.forall_mem_cons] using proper
  obtain ⟨before, room, hadd, hfirm, hsame, hbuild, hlength⟩ :=
    h.begun.addEach_fits rfl hearlier fits environment machine
  -- up to the addition that does not fit, all bytes are those of the encodings
  have hlast : (encodings arena.length (earlier ++ [addition])).length =
      (encodings arena.length earlier).length + (addition.encoding room.length).length := by
    rw [hlength, encodings_append, List.length_append, encodings, encodings, List.append_nil]
  have hcapacity : room.capacity = arena.capacity := hsame.capacity
  have hroom : room.length = arena.length + (encodings arena.length earlier).length := hlength
  obtain ⟨outcome, middle, full, hrun, hformed, htakes⟩ :=
    hfirm.takes hbuild haligned hcounted environment before
  cases htakes with
  | made => omega
  | @declined after failure _ told same build =>
    have hfull : full.Firm := hfirm.of_same same hformed
    have hfailed : addEach [addition] environment (before, room) =
        (.ok [.error failure], middle, full) := addEach_cons (attempt_failure _ hrun)
    have hrepeated := hfull.addEach_repeats build hlater environment middle
    obtain ⟨machine', hcommit⟩ :=
      commit_staged build (hformed.started _ build).2 environment middle
    have hsame' : SameBuffer arena { full with build := none, length := arena.length } := by
      have hall := hsame.trans same
      exact ⟨hall.address, hall.capacity, hall.strategies, hall.diagnostics⟩
    -- the commit goes back to the start, and so to an arena that is as firm as before
    have hback : Firm { full with build := none, length := arena.length } := by
      have hstable := (commit_rewinds environment middle full).stable hformed
      rw [hcommit] at hstable
      exact h.of_same hsame' hstable.wellFormed
    refine ⟨failure, (middle, full), _, fits, exceeds, ?_, addEach_append hadd hfailed, hrepeated,
      hcommit, ?_, rfl, rfl, hsame', ?_⟩
    · rw [hlast, ← Nat.add_assoc, ← hroom]
      exact told.congr hcapacity.symm
    · have hrest : addEach (addition :: later) environment (before, room) = _ :=
        addEach_append hfailed hrepeated
      exact attemptBuild_eq idle (addEach_append hadd hrest) (attempt_failure _ hcommit)
    · intro environment machine more hmore hfits
      obtain ⟨last, haccepted⟩ := hback.accepts rfl hmore
        (hfits.trans (Nat.le_of_eq hsame'.capacity.symm)) environment machine
      exact ⟨_, _, last, haccepted.run⟩

/-- Every arena that was made with a fixed buffer, whatever its settings are and whatever it went
through, has this buffer. Each build of it is made just if it fits; otherwise the first addition that
passes the capacity decides it, and nothing is left of the build. -/
theorem fixed_accepts_what_fits {capacity : Nat} {strategies : Strategies}
    {diagnostics : Diagnostics} {machine' : Machine}
    (creation : create capacity strategies diagnostics environment machine = (.ok made, machine'))
    (short : environment.Short) (fixed : strategies.resizing = .noOp)
    (steps : List (Environment × Machine × Operation)) :
    let arena := made.afterAll steps
    SameBuffer made arena ∧
      (arena.build = none → ∀ environment machine additions, Proper additions →
        (Commits environment machine arena additions ↔
          arena.length + (encodings arena.length additions).length ≤ arena.capacity) ∧
        (arena.length + (encodings arena.length additions).length ≤ arena.capacity →
          ∃ last, Accepted environment machine arena additions last) ∧
        (arena.capacity < arena.length + (encodings arena.length additions).length →
          ∃ earlier addition later failure middle last, additions = earlier ++ addition :: later ∧
            Declined environment machine arena earlier addition later failure middle last)) := by
  have hmade : made.Reachable := .start _ _ _ _ _ _ _ creation
  have hfixed : made.strategies.resizing = .noOp := by
    obtain ⟨size, region, middle, -, -, -, -, hshape, -⟩ := create_ok creation
    rw [hshape]
    exact fixed
  have hfirm : made.Firm :=
    ⟨hfixed, short_of_create short creation, hmade.rounded, hmade.wellFormed⟩
  obtain ⟨hreachable, hsame⟩ := hmade.afterAll_same hfixed steps
  intro arena
  have harena : arena.Firm := hfirm.of_same hsame hreachable.wellFormed
  refine ⟨hsame, fun idle environment machine additions proper => ?_⟩
  have hdeclines (exceeds : arena.capacity <
      arena.length + (encodings arena.length additions).length) :
      ∃ earlier addition later failure middle last, additions = earlier ++ addition :: later ∧
        Declined environment machine arena earlier addition later failure middle last := by
    -- some addition is the first one that goes beyond the capacity
    obtain ⟨earlier, addition, later, rfl, hroom, hlarge⟩ :=
      exists_first_exceeding harena.wellFormed.fits exceeds
    obtain ⟨failure, middle, last, hdeclined⟩ :=
      harena.declines idle proper hroom hlarge environment machine
    exact ⟨earlier, addition, later, failure, middle, last, rfl, hdeclined⟩
  refine ⟨⟨fun hcommits => ?_, fun hfits => ?_⟩,
    fun hfits => harena.accepts idle proper hfits environment machine, hdeclines⟩
  · by_contra hlarge
    obtain ⟨outcomes, reference, state, hrun⟩ := hcommits
    obtain ⟨earlier, addition, later, failure, middle, last, rfl, hdeclined⟩ :=
      hdeclines (Nat.lt_of_not_le hlarge)
    cases hrun.symm.trans hdeclined.run
  · obtain ⟨last, haccepted⟩ := harena.accepts idle proper hfits environment machine
    exact ⟨_, _, last, haccepted.run⟩

end PagedAlloc.Arena

namespace PagedAlloc.Arena

open Procedure

attribute [local instance] Size.Paging.common

/-- What fills the buffer to its last byte is kept, and one byte more is not. -/
theorem fixed_accepts_what_fits_after_push :
    let made : Arena :=
      ⟨⟨65536, 64, (Memory.zeroed 64).fill 0 16 (Run.constant 0)⟩, 16, .fixedHeap, .off, none⟩
    let arena := made.afterAll [(.ordinary, .fresh, .push (.bytes [1, 2, 3]))]
    let filling : List Addition := [.align 16, .prefixed (Stretch.zeros 28)]
    let exceeding : List Addition :=
      [.align 16, .bytes [4], .prefixed (Stretch.zeros 28), .zeroes 5]
    SameBuffer made arena ∧ arena.length = 19 ∧ Commits .ordinary .fresh arena filling ∧
      ¬ Commits .ordinary .fresh arena exceeding := by
  intro made arena filling exceeding
  have hshort : Environment.ordinary.Short := by
    intro ledger length hgrants
    simp only [Environment.ordinary, Bool.and_eq_true, decide_eq_true_eq] at hgrants
    omega
  have hproper : Proper filling ∧ Proper exceeding := by decide
  have hcreated : create 64 .fixedHeap .off .ordinary .fresh = (.ok made, _) := rfl
  obtain ⟨hsame, hbuilds⟩ := fixed_accepts_what_fits hcreated hshort rfl
    [(.ordinary, .fresh, .push (.bytes [1, 2, 3]))]
  have hidle : arena.build = none := by decide +kernel
  have hlength : arena.length = 19 := by decide +kernel
  have hcapacity : arena.capacity = 64 := hsame.capacity
  refine ⟨hsame, hlength, (hbuilds hidle .ordinary .fresh filling hproper.1).1.2 ?_,
    fun hcommits => ?_⟩
  · show arena.length + (encodings arena.length filling).length ≤ arena.capacity
    rw [hlength, hcapacity]
    decide
  · have hfits : arena.length + (encodings arena.length exceeding).length ≤ arena.capacity :=
      (hbuilds hidle .ordinary .fresh exceeding hproper.2).1.1 hcommits
    rw [hlength, hcapacity] at hfits
    exact absurd hfits (by decide)

end PagedAlloc.Arena
