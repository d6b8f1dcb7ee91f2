import Mathlib.Data.List.Forall2
import PagedAlloc.Proofs.ArenaTwins
import PagedAlloc.Proofs.FreshContents
import PagedAlloc.Proofs.Lockstep
import PagedAlloc.Proofs.Mirrors

/-!
# Bytes that are not in use

Nobody who uses an arena learns anything about the bytes beyond its end: what was cut off, what a
failed build left behind, what fresh memory happens to hold. Two arenas are alike if they differ in
such bytes at most (`Arena.Alike`). Alike arenas go in lockstep (`Arena.lockstep_alike`), because a
request for another buffer does the same for both (`Arena.Alike.adopt`) and whatever makes an arena
longer writes all bytes that come into use. So they cannot be told apart by any run of operations
(`Arena.Alike.unobservable`).
-/

namespace PagedAlloc.Arena

variable {paging : Size.Paging}

open Procedure

/-- Two states are the same but for bytes that are not in use: the reserved ones, and those from the
end of the arena to the end of its buffer. -/
structure Alike (state state' : Machine × Arena) : Prop where
  wellFormed : state.2.WellFormed
  whole : state'.2.region.Whole
  machine : state'.1 = state.1
  address : state'.2.region.address = state.2.region.address
  capacity : state'.2.capacity = state.2.capacity
  length : state'.2.length = state.2.length
  strategies : state'.2.strategies = state.2.strategies
  diagnostics : state'.2.diagnostics = state.2.diagnostics
  build : state'.2.build = state.2.build
  bytes : ∀ offset, firstOffset ≤ offset → offset < state.2.length →
    state'.2.region.memory.cell offset = state.2.region.memory.cell offset

/-- The same use of an arena, but the heap may have left something else in fresh memory. -/
inductive SameMove : Move Operation → Move Operation → Prop where
  | call (environment : Environment) (residue : (address length : Nat) → Tree Empty)
      (operation : Operation) :
      SameMove (.call environment operation) (.call (environment.reseeded residue) operation)
  | others (machine : Machine) : SameMove (.others machine) (.others machine)

variable {environment : Environment} {residue : (address length : Nat) → Tree Empty}
  {machine machine' : Machine} {arena arena' : Arena} {state state' : Machine × Arena}
  {capacity : Nat}

namespace Alike

/-- Being alike goes both ways. -/
theorem symm (h : Alike state state') : Alike state' state where
  wellFormed := by
    refine ⟨h.whole, ?_, ?_, fun build hbuild => ?_⟩
    · exact h.length ▸ h.wellFormed.reserved
    · rw [h.length, h.capacity]
      exact h.wellFormed.fits
    · rw [h.length]
      exact h.wellFormed.started build (h.build ▸ hbuild)
  whole := h.wellFormed.whole
  machine := h.machine.symm
  address := h.address.symm
  capacity := h.capacity.symm
  length := h.length.symm
  strategies := h.strategies.symm
  diagnostics := h.diagnostics.symm
  build := h.build.symm
  bytes offset hstart hlt := (h.bytes offset hstart (h.length ▸ hlt)).symm

/-- What is said about alike arenas is said about one arena and two contents of its buffer. -/
theorem eq_with_memory (h : Alike (machine, arena) (machine', arena')) :
    arena' =
      { arena with region := { arena.region with memory := arena'.region.memory } } := by
  obtain ⟨⟨address, capacity, memory⟩, length, strategies, diagnostics, build⟩ := arena
  obtain ⟨⟨address', capacity', memory'⟩, length', strategies', diagnostics', build'⟩ := arena'
  obtain rfl : address' = address := h.address
  obtain rfl : capacity' = capacity := h.capacity
  obtain rfl : length' = length := h.length
  obtain rfl : strategies' = strategies := h.strategies
  obtain rfl : diagnostics' = diagnostics := h.diagnostics
  obtain rfl : build' = build := h.build
  rfl

/-- Alike arenas have memories of the same size. -/
theorem room (h : Alike state state') :
    state'.2.region.memory.length = state.2.region.memory.length :=
  h.whole.trans (h.capacity.trans h.wellFormed.whole.symm)

/-- Alike arenas are peers from the first offset on. -/
theorem peers (h : Alike state state') : Peers firstOffset state.2 state'.2 where
  wellFormed := h.wellFormed
  whole := h.whole
  length := h.length
  capacity := h.capacity
  build := h.build
  cells := h.bytes

/-- Alike arenas stay alike if they log the same and keep their buffers and what is in use of them.
-/
theorem keeps {after after' : Arena} (h : Alike (machine, arena) (machine', arena'))
    (events : List Event) (same : SameBuffer arena after) (same' : SameBuffer arena' after')
    (peers : Peers firstOffset after after') :
    Alike ({ machine with log := events ++ machine.log }, after)
      ({ machine' with log := events ++ machine'.log }, after') where
  wellFormed := peers.wellFormed
  whole := peers.whole
  machine := by
    obtain rfl : machine' = machine := h.machine
    rfl
  address := same'.address.trans (h.address.trans same.address.symm)
  capacity := peers.capacity
  length := peers.length
  strategies := same'.strategies.trans (h.strategies.trans same.strategies.symm)
  diagnostics := same'.diagnostics.trans (h.diagnostics.trans same.diagnostics.symm)
  build := peers.build
  bytes := peers.cells

/-! ## Requests for another buffer -/

/-- The same request for a capacity is served without a look at the contents. -/
theorem blind_serve (h : Alike (machine, arena) (machine', arena')) (capacity : Nat) :
    Region.Blind (arena.serve capacity) (arena'.serve capacity) := by
  rw [h.eq_with_memory]
  generalize hmemory : arena'.region.memory = memory
  have hroom : memory.length = arena.region.memory.length := hmemory ▸ h.room
  obtain ⟨⟨address, length, memory⟩, used, strategies, diagnostics, build⟩ := arena
  exact Region.blind_ite (Region.blind_pure address length hroom) <|
    Region.blind_ite (Region.blind_relocate _ _ _ _ _ _ _ hroom)
      (Region.blind_resize _ _ _ _ _ _ _ hroom)

/-- Alike arenas get the same buffer, with the same bytes in use, from requests that do not look at
contents. -/
theorem adopt (h : Alike (machine, arena) (machine', arena'))
    {request request' : Procedure Machine Region} (hroom : arena.length ≤ capacity)
    (hblind : Region.Blind request request')
    (hyields : Yields request (arena.region.Replaces arena.capacity capacity))
    (hyields' : Yields request' (arena'.region.Replaces arena'.capacity capacity)) :
    Concur Alike (Arena.adopt request environment (machine, arena))
      (Arena.adopt request' (environment.reseeded residue) (machine', arena')) := by
  obtain rfl : machine' = machine := h.machine
  have hsame := hblind.same environment residue machine'
  cases hrun : request environment machine' with
  | mk result middle =>
    cases hrun' : request' (environment.reseeded residue) machine' with
    | mk result' middle' =>
      rw [hrun, hrun'] at hsame
      cases hsame with
      | stopped reason =>
        rw [adopt_error hrun, adopt_error hrun']
        exact ⟨rfl, { h with machine := rfl }⟩
      | @gives address length memory memory' middle same =>
        have hplace : arena'.region.address = arena.region.address := h.address
        have hcapacity : arena'.capacity = arena.capacity := h.capacity
        have hused : arena'.length = arena.length := h.length
        -- both keep their own contents, which are the same as far as they are in use
        obtain ⟨hformed, hextends⟩ := h.wellFormed.replace (hyields.holds hrun) hroom
        obtain ⟨hformed', hextends'⟩ :=
          h.symm.wellFormed.replace (hyields'.holds hrun') (hused ▸ hroom)
        rw [adopt_ok_eq hrun, adopt_ok_eq hrun', hplace, hcapacity]
        refine ⟨rfl, hformed, hformed'.whole, rfl, rfl, rfl, h.length, h.strategies,
          h.diagnostics, h.build, fun offset hstart hlt => ?_⟩
        calc memory'.cell offset
            = arena'.region.memory.cell offset := hextends'.cells offset (hused ▸ hlt)
          _ = arena.region.memory.cell offset := h.bytes offset hstart hlt
          _ = memory.cell offset := (hextends.cells offset hlt).symm

/-- Making room does the same to alike arenas. -/
theorem makeRoom (h : Alike state state') (additional : Nat) :
    Concur Alike (Arena.makeRoom additional environment state)
      (Arena.makeRoom additional (environment.reseeded residue) state') := by
  obtain ⟨machine, arena⟩ := state
  obtain ⟨machine', arena'⟩ := state'
  have hlength : arena'.length = arena.length := h.length
  rw [makeRoom_serve, makeRoom_serve, hlength, wanted?_congr h.capacity]
  cases hneeded : (Size.add? arena.length additional).bind arena.wanted? with
  | none => exact ⟨rfl, h⟩
  | some capacity =>
    exact h.adopt (le_of_makeRoom_wanted hneeded) (h.blind_serve capacity)
      (yields_serve h.wellFormed capacity) (yields_serve h.symm.wellFormed capacity)

/-- Shrinking does the same to alike arenas. -/
theorem shrink (h : Alike state state') :
    Concur Alike (Arena.shrink environment state)
      (Arena.shrink (environment.reseeded residue) state') := by
  obtain ⟨machine, arena⟩ := state
  obtain ⟨machine', arena'⟩ := state'
  refine concur_shrink h h.build h.length h.capacity h.strategies fun target htarget _ => ?_
  have hblind : Region.Blind
      (Region.resize arena.strategies.resizing arena.region arena.capacity target alignment
        arena.diagnostics)
      (Region.resize arena'.strategies.resizing arena'.region arena'.capacity target alignment
        arena'.diagnostics) := by
    -- the two arenas differ in nothing but the memory of their regions
    rw [h.eq_with_memory]
    exact Region.blind_resize _ _ _ _ _ _ _ h.room
  exact h.adopt (Size.le_of_roundUp_eq_ok (by decide) htarget) hblind
    (Region.yields_resize _ h.wellFormed.whole rfl ..) (Region.yields_resize _ h.whole rfl ..)

/-- Alike arenas are given back alike. -/
theorem release (h : Alike state state') :
    Concur Alike (Arena.release environment state)
      (Arena.release (environment.reseeded residue) state') := by
  obtain ⟨machine, arena⟩ := state
  obtain ⟨machine', arena'⟩ := state'
  obtain rfl : machine' = machine := h.machine
  have hlength : arena'.capacity = arena.capacity := h.capacity
  have haddress : arena'.region.address = arena.region.address := h.address
  have hstrategies : arena'.strategies = arena.strategies := h.strategies
  rw [Arena.release, bind_apply_ok _ _ (own_apply ..), bind_apply_ok _ _ (own_apply ..),
    bind_apply_ok _ _ (note_apply ..), bind_apply_ok _ _ (note_apply ..), hlength, haddress,
    hstrategies]
  cases hrun : Region.release arena.strategies.disposal arena.region.address arena.capacity
      alignment environment { machine' with
        log := .arenaReleased arena.capacity arena.region.address :: machine'.log } with
  | mk result after =>
    have hrun' := hrun
    rw [← (Region.decided_release ..).same environment residue] at hrun'
    rw [ask_apply _ hrun, ask_apply _ hrun']
    exact ⟨rfl, { h with machine := rfl }⟩

end Alike

/-- Alike arenas go in lockstep, whatever fresh memory holds. -/
theorem lockstep_alike (environment : Environment)
    (residue : (address length : Nat) → Tree Empty) :
    Lockstep firstOffset environment (environment.reseeded residue) Alike where
  reserved := Nat.le_refl _
  peers h := h.peers
  keeps events h same same' peers := h.keeps events same same' peers
  makeRoom additional h := h.makeRoom additional
  shrink h := h.shrink

/-! ## Runs -/

/-- What an operation answers, with the bytes of the answer one by one. -/
def told [Size.Paging] (operation : Operation) : Procedure (Machine × Arena) Answer :=
  Answer.plain <$> operation.run

/-- The contents of the bytes that are not in use make no difference. Alike arenas that are used in
the same way give the same answers, failures and faults; they are alike in the end, and what comes
of giving them back then is the same as well. -/
theorem Alike.unobservable (h : Alike state state') {moves moves' : List (Move Operation)}
    (hmoves : List.Forall₂ SameMove moves moves') :
    let run := Procedure.moves told moves state
    let run' := Procedure.moves told moves' state'
    run'.1 = run.1 ∧ Alike run.2 run'.2 ∧
      ∀ environment residue, Concur Alike (Arena.release environment run.2)
        (Arena.release (environment.reseeded residue) run'.2) := by
  dsimp only
  induction hmoves generalizing state state' with
  | nil => exact ⟨rfl, h, fun _ _ => h.release⟩
  | cons hmove _ ih =>
    cases hmove with
    | call environment residue operation =>
      obtain ⟨hanswer, hrelated⟩ := (lockstep_alike environment residue).told h operation
      obtain ⟨hanswers, hlast⟩ := ih hrelated
      exact ⟨congrArg₂ List.cons hanswer hanswers, hlast⟩
    | others machine => exact ih { h with machine := rfl }

/-- A reachable arena and one that holds the same bytes in use are alike, whatever else is in their
buffers. -/
theorem Reachable.alike (h : arena.Reachable) (machine : Machine) {memory : Memory Empty}
    (room : memory.length = arena.region.memory.length)
    (bytes : ∀ offset, firstOffset ≤ offset → offset < arena.length →
      memory.cell offset = arena.region.memory.cell offset) :
    Alike (machine, arena)
      (machine, { arena with region := { arena.region with memory := memory } }) :=
  ⟨h.wellFormed, room.trans h.wellFormed.whole, rfl, rfl, rfl, rfl, rfl, rfl, rfl, bytes⟩

end PagedAlloc.Arena

namespace PagedAlloc.Arena

open Procedure

attribute [local instance] Size.Paging.common

theorem unobservable_after_truncate :
    let arena : Arena :=
      ⟨⟨65536, 16, ⟨16, .leaf (Run.constant 0)⟩⟩, 16, .heap, ⟨true, true⟩, none⟩
    let pushed := arena.after .ordinary .fresh (.push (.bytes [1, 2, 3]))
    let cut := pushed.after .ordinary .fresh (.truncate ⟨17⟩)
    let memory := cut.region.memory.write 17 (Stretch.ofBytes [9, 9])
    let other : Arena := { cut with region := { cut.region with memory := memory } }
    let full := Environment.ordinary.reseeded fun _ _ => .leaf (Run.constant 7)
    (other.region.memory.cell 17).toByte ≠ (cut.region.memory.cell 17).toByte ∧
      (Procedure.moves told
        [.call full (.push (.zeroes 40)), .call full (.read ⟨16⟩ (.bytes 3))] (.fresh, other)).1 =
      (Procedure.moves told
        [.call .ordinary (.push (.zeroes 40)), .call .ordinary (.read ⟨16⟩ (.bytes 3))]
          (.fresh, cut)).1 := by
  intro arena pushed cut memory other full
  have hreach : cut.Reachable :=
    ((Reachable.start .ordinary .fresh _ 16 .heap ⟨true, true⟩ _ rfl).step .ordinary .fresh
      (.push (.bytes [1, 2, 3]))).step .ordinary .fresh (.truncate ⟨17⟩)
  have hlength : cut.length = 17 := by decide +kernel
  have halike : Alike (.fresh, cut) (.fresh, other) := by
    refine hreach.alike .fresh (Memory.length_write ..) fun offset _ hlt => ?_
    have hwithin := Nat.lt_of_lt_of_le hlt hreach.wellFormed.fits
    exact Memory.cell_write_of_disjoint (Nat.lt_of_lt_of_eq hwithin hreach.wellFormed.whole.symm)
      (Or.inl (hlength ▸ hlt))
  have hmoves : List.Forall₂ SameMove
      [.call .ordinary (.push (.zeroes 40)), .call .ordinary (.read ⟨16⟩ (.bytes 3))]
      [.call full (.push (.zeroes 40)), .call full (.read ⟨16⟩ (.bytes 3))] :=
    .cons (.call ..) (.cons (.call ..) .nil)
  exact ⟨by decide +kernel, (halike.unobservable hmoves).1⟩

end PagedAlloc.Arena
