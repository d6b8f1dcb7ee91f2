import PagedAlloc.Proofs.ExactReading
import PagedAlloc.Proofs.Mirrors
import PagedAlloc.Proofs.SizeRequests

/-!
# Reservations

An arena keeps no note of what was reserved: each addition looks at the capacity anew, while the
length goes up and down with builds, their ends and pops. What holds all the way is that the length
and the bytes that may still be added stay within the capacity (`Arena.Reserved`), so every request
for room finds it there (`Arena.Ready.makeRoom_within`). Hence a reservation covers every sequence of
operations that adds no more bytes than were reserved (`Arena.reservation_honoured`).
-/

namespace PagedAlloc

variable {paging : Size.Paging}

/-- A machine whose kernel maps any number of pages below 2^60 bytes and unmaps whatever it is told
to. -/
def Environment.generous [Size.Paging] : Environment :=
  { Environment.ordinary with
    grantsPages := fun _ length => 0 < length && length < 1 <<< 60
    grantsUnmap := fun _ _ _ => true }

/-- A kernel that grants everything is usual. -/
theorem Environment.generous_usual : Environment.generous.Usual where
  unmaps _ _ _ _ := rfl
  short ledger length hgrants := by
    simp only [generous, Bool.and_eq_true, decide_eq_true_eq] at hgrants
    omega

/-- A region of this family and size is granted. -/
def Family.Grants (environment : Environment) (ledger : Ledger) (size : Nat) : Family → Prop
  | .heap => environment.grantsHeap ledger size Arena.alignment = true
  | .pages => environment.grantsPages ledger size = true

namespace Arena

open Procedure

/-- The buffer moves whenever room is made, whether there is room or not. -/
def IsForced (arena : Arena) : Prop :=
  (arena.diagnostics.forceRelocation && arena.strategies.mayMove) = true

/-- If the buffer moves whenever room is made, the kernel takes the present one back and grants a new
one of the same capacity at any time. -/
def Regrants (environment : Environment) (arena : Arena) : Prop :=
  arena.IsForced → environment.UnmapsLive ∧
    ∀ ledger, arena.strategies.source.family.Grants environment ledger arena.capacity

/-- What an operation takes of a reservation: the bytes that it adds, padding included. -/
def Operation.cost (arena : Arena) : Operation → Nat
  | add addition | push addition => (addition.encoding arena.length).length
  | reserve _ | shrink | truncate _ | clear | begin | commit | abandon | read _ _
  | overwrite _ _ => 0

/-- The operations that a reservation is made for: pushes, whatever belongs to builds, pops, and
reading and writing what is there, each where the arena allows it. -/
def Operation.Covered (arena : Arena) : Operation → Prop
  | push addition => arena.build = none ∧ addition.Aligned ∧ ¬ addition.Oversized
  | add addition => arena.build ≠ none ∧ addition.Aligned ∧ ¬ addition.Oversized
  | begin | clear => arena.build = none
  | commit | abandon => arena.build ≠ none
  | truncate reference =>
    arena.build = none ∧ firstOffset ≤ reference.offset ∧ reference.offset ≤ arena.length
  | read reference reading => reading.Allowed arena reference
  | overwrite reference content => (Reading.bytes content.length).Allowed arena reference
  | reserve _ | shrink => False

instance (arena : Arena) : DecidablePred (Operation.Covered arena)
  | .push addition =>
    inferInstanceAs (Decidable (arena.build = none ∧ addition.Aligned ∧ ¬ addition.Oversized))
  | .add addition =>
    inferInstanceAs (Decidable (arena.build ≠ none ∧ addition.Aligned ∧ ¬ addition.Oversized))
  | .begin | .clear => inferInstanceAs (Decidable (arena.build = none))
  | .commit | .abandon => inferInstanceAs (Decidable (arena.build ≠ none))
  | .truncate _ => inferInstanceAs (Decidable (arena.build = none ∧ _ ≤ _ ∧ _ ≤ _))
  | .read reference reading => inferInstanceAs (Decidable (reading.Allowed arena reference))
  | .overwrite reference content =>
    inferInstanceAs (Decidable ((Reading.bytes content.length).Allowed arena reference))
  | .reserve _ | .shrink => isFalse id

/-- The operations, each with the kernel that it meets, take no more of a reservation than there
is. -/
def CoveredBy [Size.Paging] : (reserved : Nat) → Machine × Arena → List
    (Environment × Operation) → Prop
  | _, _, [] => True
  | reserved, state, (environment, operation) :: rest =>
    Regrants environment state.2 ∧ operation.Covered state.2 ∧
      operation.cost state.2 ≤ reserved ∧
        CoveredBy (reserved - operation.cost state.2) (operation.run environment state).2 rest

/-- The buffer has its capacity, and unless it has to move whenever room is made it is where it
was. -/
structure Stays (before after : Arena) : Prop where
  capacity : after.capacity = before.capacity
  strategies : after.strategies = before.strategies
  diagnostics : after.diagnostics = before.diagnostics
  address : ¬ before.IsForced → after.region.address = before.region.address

/-- What comes of an operation for which there is room: it succeeds, adds what it takes at most, and
no build has failed. -/
structure Served (arena : Arena) (operation : Operation)
    (run : Except Stop Answer × Machine × Arena) : Prop where
  answered : ∃ answer, run.1 = .ok answer
  stays : Stays arena run.2.2
  length : run.2.2.length ≤ arena.length + operation.cost arena
  unfailed : ∀ build ∈ run.2.2.build, build.failure = none

/-- The buffer is shorter than half of all addresses, and it is owned if it has to move. -/
structure Ready [Size.Paging] (state : Machine × Arena) : Prop where
  backed : state.2.Backed
  short : state.2.capacity < 1 <<< 63
  owned : state.2.IsForced → ∃ others, Owns state others

/-- So many bytes may still be added within the capacity, and no build has failed. -/
structure Reserved [Size.Paging] (reserved : Nat) (state : Machine × Arena) : Prop where
  reachable : state.2.Reachable
  ready : Ready state
  room : state.2.length + reserved ≤ state.2.capacity
  unfailed : ∀ build ∈ state.2.build, build.failure = none

variable {environment : Environment} {machine first : Machine} {arena middle after : Arena}
  {start additional reserved : Nat} {addition : Addition} {operation : Operation}
  {state : Machine × Arena}

/-! ## Buffers that stay -/

theorem Stays.refl (arena : Arena) : Stays arena arena := ⟨rfl, rfl, rfl, fun _ => rfl⟩

/-- Two stretches over which the buffer stays make one: the settings that force an arena to move
stay, too. -/
theorem Stays.trans (h : Stays arena middle) (h' : Stays middle after) : Stays arena after where
  capacity := h'.capacity.trans h.capacity
  strategies := h'.strategies.trans h.strategies
  diagnostics := h'.diagnostics.trans h.diagnostics
  address calm := by
    refine (h'.address fun forced => calm ?_).trans (h.address calm)
    rwa [IsForced, h.diagnostics, h.strategies] at forced

/-- An arena with the same buffer has the same capacity and address. -/
theorem SameBuffer.stays (h : SameBuffer arena after) : Stays arena after :=
  ⟨h.capacity, h.strategies, h.diagnostics, fun _ => h.address⟩

/-- Whether an arena is forced to move is told by its settings, which stay. -/
theorem Stays.isForced_iff (h : Stays arena after) : after.IsForced ↔ arena.IsForced := by
  rw [IsForced, IsForced, h.diagnostics, h.strategies]

/-- What the kernel grants again to an arena it grants to one with the same capacity. -/
theorem Stays.regrants (h : Stays arena after) (regrants : Regrants environment arena) :
    Regrants environment after := by
  unfold Regrants
  rw [h.isForced_iff, h.strategies, h.capacity]
  exact regrants

/-- An arena stays ready as long as its buffer stays. One that is forced to move has to own its
region again after each move. -/
theorem Ready.of_stays (h : Ready (machine, arena)) {machine' : Machine} (stays : Stays arena after)
    (owned : (∃ others, Owns (machine, arena) others) → arena.IsForced →
      ∃ others, Owns (machine', after) others) : Ready (machine', after) where
  backed := by
    refine ⟨stays.strategies ▸ h.backed.consistent, ?_⟩
    rw [stays.strategies, stays.capacity]
    exact h.backed.suits
  short := stays.capacity ▸ h.short
  owned forced :=
    have hforced := stays.isForced_iff.1 forced
    owned (h.owned hforced) hforced

/-- Ownership is kept where live mappings are unmapped on request. -/
theorem invariant_owned :
    Invariant Environment.UnmapsLive fun state => ∃ others, Owns state others :=
  .owned fun _ => id

/-! ## Room that is there -/

/-- A source gives a region again of a size that its regions have, where it is granted. -/
theorem answer_again {source : Source} {ledger : Ledger} {size : Nat}
    (suits : source.family.Suits alignment size)
    (grants : source.family.Grants environment ledger size) :
    source.answer environment ledger alignment size = .ok size := by
  unfold Source.answer
  cases hfamily : source.family with
  | heap =>
    rw [hfamily] at suits grants
    have hlayout : Heap.IsLayout size alignment := suits
    have hgrants : environment.grantsHeap ledger size alignment = true := grants
    simp only [if_pos hlayout, hgrants, if_true]
  | pages =>
    rw [hfamily] at suits grants
    have hgrants : environment.grantsPages ledger size = true := grants
    rw [Size.roundToPages?_eq_self suits.1 suits.2.2]
    simp only [hgrants, if_true]

/-- A buffer that may move is granted with the length that the sources of its family answer. -/
theorem Owns.request_granted {others : Ledger} {capacity length : Nat}
    (h : Owns (machine, arena) others) (backed : arena.Backed)
    (moves : arena.strategies.mayMove = true) (unmaps : environment.UnmapsLive)
    (positive : 0 < capacity)
    (answered : ∀ source : Source, source.family = arena.strategies.source.family →
      source.answer environment machine.ledger alignment capacity = .ok length) :
    ∃ region middle, arena.request capacity environment machine = (.ok region, middle) ∧
      region.length = length := by
  have hanswer {source : Source} (family : source.family = arena.strategies.source.family) :
      source.verdict environment machine.ledger alignment capacity = .ok length := by
    rw [Source.verdict, if_neg (Nat.ne_of_gt positive)]
    exact answered source family
  have hverdict : arena.verdict environment machine.ledger capacity = .ok length := by
    have hresizing := backed.family_resizing moves
    rw [verdict, Strategies.verdict, if_pos moves, Resizing.verdict_moves moves]
    split
    · split
      · exact hanswer hresizing
      · exact hanswer rfl
    · exact hanswer hresizing
  -- whatever way the request takes, the verdict on it is that of a source of the family
  rw [← h.request_verdict unmaps capacity] at hverdict
  cases hrun : arena.request capacity environment machine with
  | mk result middle =>
    rw [hrun] at hverdict
    cases result with
    | error reason => cases hverdict
    | ok region => exact ⟨region, middle, rfl, Except.ok.inj hverdict⟩

/-- A buffer that has to move is granted with the capacity that it has. -/
theorem Owns.request_again {others : Ledger} (h : Owns (machine, arena) others)
    (backed : arena.Backed) (forced : arena.IsForced) (regrants : Regrants environment arena) :
    ∃ region middle, arena.request arena.capacity environment machine = (.ok region, middle) ∧
      region.length = arena.capacity := by
  obtain ⟨unmaps, hgrants⟩ := regrants forced
  refine h.request_granted backed (Bool.and_eq_true_iff.1 forced).2 unmaps backed.positive ?_
  intro source hfamily
  rw [← hfamily] at hgrants
  exact answer_again (hfamily ▸ backed.suits) (hgrants machine.ledger)

/-- Room that is there is made: nothing happens, or the buffer moves to one of the same capacity. -/
theorem Ready.makeRoom_within (h : Ready (machine, arena)) (regrants : Regrants environment arena)
    (fits : arena.length + additional ≤ arena.capacity) :
    ∃ machine' region, makeRoom additional environment (machine, arena) =
        (.ok (), machine', { arena with region := region }) ∧
      Stays arena { arena with region := region } := by
  have hbacked : arena.Backed := h.backed
  have hlimit := Nat.lt_of_le_of_lt fits hbacked.capacity_lt
  rw [makeRoom_eq, Size.add?, if_pos hlimit]
  dsimp only
  by_cases hforced : arena.IsForced
  · rw [if_neg fun hcalm => hcalm.2 hforced, wanted?, if_pos fits]
    obtain ⟨others, howns⟩ := h.owned hforced
    obtain ⟨region, middle, hrun, hlength⟩ := howns.request_again hbacked hforced regrants
    exact ⟨_, region, adopt_ok_eq hrun arena, hlength, rfl, rfl, fun calm => absurd hforced calm⟩
  · rw [if_pos ⟨fits, hforced⟩]
    exact ⟨machine, arena.region, rfl, .refl arena⟩

/-- Demands for cells that have room are met. -/
theorem Ready.meet_within (h : Ready (machine, arena)) (regrants : Regrants environment arena)
    (building : arena.build = some ⟨start, none⟩) {demands : List Demand}
    (cells : ∀ demand ∈ demands, ∃ content, demand = .cells content)
    (fits : arena.length + (demands.map Demand.size).sum ≤ arena.capacity) :
    ∃ machine' after, meet demands environment (machine, arena) = (.ok (), machine', after) ∧
      Stays arena after ∧ after.length = arena.length + (demands.map Demand.size).sum ∧
      after.build = arena.build := by
  induction demands generalizing arena machine with
  | nil => exact ⟨machine, arena, rfl, .refl arena, rfl, rfl⟩
  | cons demand rest ih =>
    obtain ⟨content, rfl⟩ := cells demand (List.mem_cons_self ..)
    rw [List.map_cons, List.sum_cons, ← Nat.add_assoc] at fits ⊢
    have hsize : (Demand.cells content).size = content.length := rfl
    obtain ⟨middle, region, hroom, hstays⟩ :=
      h.makeRoom_within regrants (Nat.le_of_add_right_le fits)
    have hadd := add_building building content environment machine
    rw [← hsize, hroom] at hadd
    have hrun : (Demand.cells content).run environment (machine, arena) = _ := hadd
    -- writing the cells keeps the buffer in which there was room
    have hstays' := hstays.trans (sits_write middle { arena with region := region } arena.length
      content (arena.length + content.length)).buffer.stays
    have hready : Ready (_, _) := h.of_stays hstays' fun howned hforced =>
      hrun ▸ invariant_owned.demand (regrants hforced).1 howned (.cells content)
    obtain ⟨last, after, hrest, hlast, hlength, hbuild⟩ := ih hready (hstays'.regrants regrants)
      building (fun other hother => cells other (List.mem_cons_of_mem _ hother))
      (hstays'.capacity.symm ▸ fits)
    rw [meet, bind_apply_ok _ _ hrun]
    exact ⟨last, after, hrest, hstays'.trans hlast, hlength, hbuild⟩

/-- An addition that has room is made. -/
theorem Ready.addition_within (h : Ready (machine, arena)) (formed : arena.WellFormed)
    (regrants : Regrants environment arena) (building : arena.build = some ⟨start, none⟩)
    (aligned : addition.Aligned) (counted : ¬ addition.Oversized)
    (fits : arena.length + (addition.encoding arena.length).length ≤ arena.capacity) :
    ∃ machine' after, addition.run environment (machine, arena) = (.ok (), machine', after) ∧
      Stays arena after ∧
      after.length = arena.length + (addition.encoding arena.length).length ∧
      after.build = arena.build := by
  have hshort : arena.Aligns := Nat.lt_of_le_of_lt formed.fits h.short
  have hsize := Addition.size_demands aligned counted hshort
  rw [← hsize] at fits ⊢
  rw [Addition.run_eq_meet aligned counted hshort]
  exact h.meet_within regrants building (addition.demands_cells arena.length) fits

/-! ## Operations -/

/-- What comes of an operation is told by what comes of the call. -/
theorem Served.of_call {α : Type} {procedure : Procedure (Machine × Arena) α} {f : α → Answer}
    {value : α} {machine' : Machine}
    (hrun : procedure environment (machine, arena) = (.ok value, machine', after))
    (stays : Stays arena after) (length : after.length ≤ arena.length + operation.cost arena)
    (unfailed : ∀ build ∈ after.build, build.failure = none) :
    Served arena operation ((f <$> procedure) environment (machine, arena)) := by
  rw [map_apply _ f hrun]
  exact ⟨⟨f value, rfl⟩, stays, length, unfailed⟩

/-- Where a build is allowed to end, there is one that has not failed. -/
theorem exists_building (building : arena.build ≠ none)
    (unfailed : ∀ build ∈ arena.build, build.failure = none) :
    ∃ start, arena.build = some ⟨start, none⟩ := by
  obtain ⟨⟨start, failure⟩, hbuild⟩ := Option.ne_none_iff_exists'.1 building
  obtain rfl : failure = none := unfailed _ hbuild
  exact ⟨start, hbuild⟩

/-- An addition within the reservation succeeds. -/
theorem Reserved.add (h : Reserved reserved (machine, arena))
    (regrants : Regrants environment arena) (covered : (Operation.add addition).Covered arena)
    (within : (Operation.add addition).cost arena ≤ reserved) :
    Served arena (.add addition) ((Operation.add addition).run environment (machine, arena)) := by
  obtain ⟨hbuilding, haligned, hcounted⟩ := covered
  obtain ⟨start, hbuild⟩ := exists_building hbuilding h.unfailed
  obtain ⟨machine', after, hrun, hstays, hlength, hsame⟩ :=
    h.ready.addition_within h.reachable.wellFormed regrants hbuild haligned hcounted
      (Nat.le_trans (Nat.add_le_add_left within _) h.room)
  exact .of_call hrun hstays (Nat.le_of_eq hlength) (hsame ▸ h.unfailed)

/-- A push within the reservation succeeds: its build is begun, filled and committed within the
same room. -/
theorem Reserved.push (h : Reserved reserved (machine, arena))
    (regrants : Regrants environment arena) (covered : (Operation.push addition).Covered arena)
    (within : (Operation.push addition).cost arena ≤ reserved) :
    Served arena (.push addition) ((Operation.push addition).run environment (machine, arena)) := by
  obtain ⟨hidle, haligned, hcounted⟩ := covered
  -- the push is a build of its own, so there is room for it in the arena where that has begun
  have hbegun : Stays arena { arena with build := some ⟨arena.length, none⟩ } :=
    (sits_begun machine arena).buffer.stays
  have hready : Ready (machine, { arena with build := some ⟨arena.length, none⟩ }) :=
    h.ready.of_stays hbegun fun howned _ => howned.imp fun _ => (sits_begun machine arena).owns
  obtain ⟨middle, built, hrun, hstays, hlength, hbuild⟩ := hready.addition_within
    h.reachable.wellFormed.begun.wellFormed (hbegun.regrants regrants) rfl haligned hcounted
    (Nat.le_trans (Nat.add_le_add_left within _) h.room)
  have hended : addition.run environment (machine, _) = (ending none (), middle, built) := hrun
  obtain ⟨last, hpush⟩ :=
    push_staged hidle hended hbuild (hlength.symm ▸ Nat.le_add_right ..)
  have hlast := hbegun.trans hstays
  exact .of_call hpush ⟨hlast.capacity, hlast.strategies, hlast.diagnostics, hlast.address⟩
    (Nat.le_of_eq hlength) nofun

/-- An operation that a reservation covers succeeds in the room that there is. -/
theorem Reserved.serves (h : Reserved reserved (machine, arena))
    (regrants : Regrants environment arena) (covered : operation.Covered arena)
    (within : operation.cost arena ≤ reserved) :
    Served arena operation (operation.run environment (machine, arena)) := by
  have hformed : arena.WellFormed := h.reachable.wellFormed
  have hsame {build : Option Build} {length : Nat} :
      Stays arena { arena with build := build, length := length } :=
    ⟨rfl, rfl, rfl, fun _ => rfl⟩
  -- only additions and pushes ask for room; the other operations keep the buffer by what they do
  cases operation with
  | reserve | shrink => exact covered.elim
  | add addition => exact h.add regrants covered within
  | push addition => exact h.push regrants covered within
  | begin =>
    refine .of_call (begin_idle covered environment machine) hsame (Nat.le_refl _) ?_
    rintro build ⟨⟩
    rfl
  | commit =>
    obtain ⟨start, hbuild⟩ := exists_building covered h.unfailed
    obtain ⟨machine', hcommit⟩ :=
      commit_staged hbuild (hformed.started _ hbuild).2 environment machine
    exact .of_call hcommit hsame (Nat.le_refl _) nofun
  | abandon =>
    obtain ⟨start, hbuild⟩ := exists_building covered h.unfailed
    exact .of_call (abandon_staged hbuild environment machine) hsame
      (hformed.started _ hbuild).2 nofun
  | truncate reference =>
    rcases truncate_cases reference environment machine arena with
      ⟨⟨-, -, hle⟩, machine', hrun⟩ | ⟨hbarred, -⟩
    · exact .of_call hrun hsame hle h.unfailed
    · exact absurd covered hbarred
  | clear =>
    have hrun : Arena.clear environment (machine, arena) =
        (.ok (), machine, { arena with length := firstOffset }) :=
      bind_apply_ok _ _ (ensureIdle_idle covered _)
    exact .of_call hrun hsame hformed.reserved h.unfailed
  | read reference reading =>
    have hallowed : reading.Allowed arena reference := covered
    have hfind := hallowed.find
    rw [Operation.run, bind_apply_ok _ _ (own_apply ..)]
    cases hfound : reading.find arena reference with
    | error fault =>
      rw [hfound] at hfind
      cases hfind
    | ok answer => exact ⟨⟨answer, rfl⟩, .refl arena, Nat.le_refl _, h.unfailed⟩
  | overwrite reference content =>
    rcases overwrite_exactly hformed content environment machine with
      ⟨-, after, hrun, hwritten⟩ | ⟨hbarred, -⟩
    · rw [hwritten.rest] at hrun
      exact .of_call hrun ⟨rfl, rfl, rfl, fun _ => rfl⟩ (Nat.le_refl _) h.unfailed
    · exact absurd covered hbarred

/-! ## Runs -/

/-- After an operation there is still room for what remains of the reservation. -/
theorem Reserved.step (h : Reserved reserved (machine, arena))
    (regrants : Regrants environment arena) (within : operation.cost arena ≤ reserved)
    (served : Served arena operation (operation.run environment (machine, arena))) :
    Reserved (reserved - operation.cost arena)
      (operation.run environment (machine, arena)).2 where
  reachable := h.reachable.step environment machine operation
  ready := h.ready.of_stays served.stays fun howned hforced =>
    invariant_owned.operation h.reachable (regrants hforced).1 howned operation
  room := by
    have hroom : arena.length + reserved ≤ arena.capacity := h.room
    have hlength := served.length
    rw [served.stays.capacity]
    omega
  unfailed := served.unfailed

/-- A sequence of operations that a reservation covers succeeds, and the buffer stays. -/
theorem Reserved.serves_all (h : Reserved reserved state)
    {steps : List (Environment × Operation)} (covered : CoveredBy reserved state steps) :
    let run := Procedure.moves Operation.run (steps.map fun step => .call step.1 step.2) state
    (∀ answer ∈ run.1, ∃ value, answer = .ok value) ∧ Stays state.2 run.2.2 := by
  induction steps generalizing state reserved with
  | nil => exact ⟨by simp [Procedure.moves], .refl _⟩
  | cons step rest ih =>
    obtain ⟨environment, operation⟩ := step
    obtain ⟨machine, arena⟩ := state
    obtain ⟨hregrants, hcovered, hwithin, hrest⟩ := covered
    have hserved := h.serves hregrants hcovered hwithin
    obtain ⟨hanswers, hstays⟩ := ih (h.step hregrants hwithin hserved) hrest
    exact ⟨List.forall_mem_cons.2 ⟨hserved.answered, hanswers⟩, hserved.stays.trans hstays⟩

/-- A reservation that succeeds in an idle arena is honoured. There is room for as many bytes as
were asked for, and every sequence of operations that it covers succeeds and keeps the capacity; the
buffer stays where it is, unless it has to move whenever room is made. -/
theorem reservation_honoured {machine' : Machine} {reserved : Arena}
    (lived : Life Environment.Usual first (machine, arena)) (tidy : first.Tidy)
    (idle : arena.build = none) (usual : environment.Usual)
    (granted : reserve additional environment (machine, arena) = (.ok (), machine', reserved)) :
    additional ≤ reserved.capacity - reserved.length ∧
      ∀ steps, CoveredBy additional (machine', reserved) steps →
        let run := Procedure.moves Operation.run (steps.map fun step => .call step.1 step.2)
          (machine', reserved)
        (∀ answer ∈ run.1, ∃ value, answer = .ok value) ∧
          run.2.2.capacity = reserved.capacity ∧
          (¬ reserved.IsForced → run.2.2.region.address = reserved.region.address) := by
  have hreachable : arena.Reachable := lived.reachable
  obtain ⟨outcome, middle, region, hroom, -⟩ :=
    hreachable.backed.makeRoom additional environment machine
  obtain ⟨_, _, _, hroom', -, -, hlength, hmade⟩ :=
    hreachable.wellFormed.makeRoom additional environment machine
  rw [hroom] at hroom'
  cases hroom'
  have hrun : reserve additional environment (machine, arena) =
      (outcome, middle, { arena with region := region }) := by
    rw [reserve, bind_apply_ok _ _ (ensureIdle_idle idle _), hroom]
  have hnext := lived.step environment usual (.reserve additional)
  rw [Operation.run, map_state, granted] at hnext
  rw [granted] at hrun
  cases hrun
  have hfits : arena.length + additional ≤ region.length := hmade rfl
  refine ⟨Nat.le_sub_of_add_le' hfits, fun steps hcovered => ?_⟩
  have hhalf := hnext.half tidy
  have hreserved : Reserved additional (machine', { arena with region := region }) := by
    refine ⟨hnext.reachable, ⟨hnext.reachable.backed, hhalf.2, fun _ => hhalf.1⟩, hfits,
      fun build hbuild => ?_⟩
    rw [idle] at hbuild
    cases hbuild
  obtain ⟨hanswers, hstays⟩ := hreserved.serves_all hcovered
  exact ⟨hanswers, hstays.capacity, hstays.address⟩

end Arena

end PagedAlloc

namespace PagedAlloc.Arena

open Procedure

attribute [local instance] Size.Paging.common

/-- A reserved page is filled by a push, a build and another push, all of which move the buffer. -/
theorem reservation_honoured_while_moving :
    let kernel : Environment := .generous
    let made : Arena :=
      ⟨⟨65536, 4096, (Memory.zeroed 4096).fill 0 16 (Run.constant 0)⟩, 16, .pages, ⟨false, true⟩,
        none⟩
    let steps : List (Environment × Operation) :=
      [.push (.bytes [1, 2, 3]), .begin, .add (.align 8), .add (.prefixed (Stretch.zeros 5)),
        .commit, .read ⟨16⟩ (.bytes 3), .truncate ⟨19⟩, .push (.zeroes 4000)].map ((kernel, ·))
    let machine := (create 32 .pages ⟨false, true⟩ kernel .fresh).2
    let reserved := (reserve 4080 kernel (machine, made)).2
    let run := Procedure.moves Operation.run (steps.map fun step => .call step.1 step.2) reserved
    (create 32 .pages ⟨false, true⟩ kernel .fresh).1 = .ok made ∧
      (∀ answer ∈ run.1, ∃ value, answer = .ok value) ∧ run.2.2.capacity = 4096 ∧
      run.2.2.region.address ≠ reserved.2.region.address := by
  intro kernel made steps machine reserved run
  have hmade : (create 32 .pages ⟨false, true⟩ kernel .fresh).1 = .ok made := rfl
  have hlived : Life Environment.Usual .fresh (machine, made) :=
    .start kernel Environment.generous_usual 32 .pages ⟨false, true⟩ (Prod.fst_eq_iff.1 hmade)
  have hok : (reserve 4080 kernel (machine, made)).1 = .ok () := by decide +kernel
  have hgranted : reserve 4080 kernel (machine, made) = (.ok (), reserved.1, reserved.2) := by
    rw [Prod.mk.eta]
    exact Prod.fst_eq_iff.1 hok
  have hhonoured := (reservation_honoured hlived (show Machine.fresh.Tidy from nofun) rfl
    Environment.generous_usual hgranted).2
  simp only [Prod.mk.eta] at hhonoured
  have hregrants : ∀ state : Machine × Arena, state.2.strategies.source.family = .pages →
      state.2.capacity = 4096 → Regrants kernel state.2 := by
    intro state hfamily hcapacity _
    rw [hfamily, hcapacity]
    exact ⟨Environment.generous_usual.unmaps, fun _ => rfl⟩
  have hsteps : CoveredBy 4080 reserved steps := by
    iterate 8
      refine ⟨hregrants _ (by decide +kernel) (by decide +kernel), by decide +kernel,
        by decide +kernel, ?_⟩
    trivial
  obtain ⟨hanswers, hcapacity, -⟩ := hhonoured steps hsteps
  rw [show Procedure.moves Operation.run _ reserved = run from rfl] at hanswers hcapacity
  have hpage : reserved.2.capacity = 4096 := by decide +kernel
  have hmoved : run.2.2.region.address ≠ reserved.2.region.address := by decide +kernel
  exact ⟨hmade, hanswers, hcapacity.trans hpage, hmoved⟩

end PagedAlloc.Arena
