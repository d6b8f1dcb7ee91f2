import PagedAlloc.Proofs.FixedSessions

/-!
# Isolation of fixed blocks

Links are written into free blocks, and a block is zeroed when it is handed out. None of these
writes hits a live block: a block that is handed out was not live, lies in a chunk apart from all
live blocks, and keeps what is written into it until it is given back or all blocks are
(`FixedList.Session.Reachable.blocks_isolated`).
-/

namespace PagedAlloc.FixedList

variable {paging : Size.Paging}

open FixedChunk

/-- An address is that of a block of a chunk, and the whole block lies in the chunk. -/
def Places (list : FixedList) (address : Nat) : Prop :=
  ∃ start chunk index, (start, chunk) ∈ list.chunks.toList ∧ index < list.blocksPerChunk ∧
    address = start + headerSize + index * list.blockSize ∧
    address + list.blockSize ≤ start + chunk.size

/-- What a caller may rely on: an address that is answered was not live, is that of a block which
reads zero, and is apart from all other live ones. Until a call is made on it, a live block stays
live and holds what it holds. -/
structure Session.Isolated [Size.Paging] (session : Session) : Prop where
  allocates : ∀ (environment : Environment) (size : Nat) (address : Nat) (machine : Machine)
    (list : FixedList), FixedList.allocate size environment (session.machine, session.list) =
      (.ok address, machine, list) →
    address ∉ session.live ∧ list.blockSize = session.list.blockSize ∧ list.Places address ∧
      list.contents address = .ok (List.replicate list.blockSize (.byte 0))
  placed : ∀ address ∈ session.live, session.list.Places address
  apart : session.live.Pairwise fun p q =>
    p + session.list.blockSize ≤ q ∨ q + session.list.blockSize ≤ p
  kept : ∀ address ∈ session.live, ∀ later : Session, Leads (·.Touches address) session later →
    address ∈ later.live ∧ later.list.contents address = session.list.contents address

variable {machine : Machine} {list : FixedList} {session : Session} {address other : Nat}

/-- The address of a block in use is that of a block in some chunk. -/
theorem Uses.places (huses : list.Uses address) : list.Places address := by
  obtain ⟨start, chunk, stock, index, hmem, stocked, hindex, rfl⟩ := huses
  have hlt := stocked.index_lt hindex
  refine ⟨start, chunk, index, hmem, hlt, (Nat.add_assoc ..).symm, ?_⟩
  have hend := stocked.block_le hlt
  rw [blockOffset_succ] at hend
  omega

/-- The blocks of two different addresses in use share no address. -/
theorem Sound.uses_apart (h : Sound machine list) (huses : list.Uses address)
    (hother : list.Uses other) (hne : address ≠ other) :
    address + list.blockSize ≤ other ∨ other + list.blockSize ≤ address := by
  obtain ⟨start, chunk, stock, index, hmem, stocked, hindex, rfl⟩ := huses
  obtain ⟨start', chunk', stock', index', hmem', stocked', hindex', rfl⟩ := hother
  have hin := h.block_inside (stocked.index_lt hindex)
  have hin' := h.block_inside (stocked'.index_lt hindex')
  rcases h.apart _ hmem _ hmem' with heq | happart
  · -- in one chunk, blocks of different numbers lie apart
    obtain rfl : start = start' := heq
    have hspots : index ≠ index' := fun heq => hne (heq ▸ rfl)
    have happart := blocks_apart list.blockSize hspots
    simp only [blockOffset_succ] at happart
    omega
  · simp only at happart
    omega

/-- In every sound session the blocks are isolated, by the specs of the single operations. -/
theorem Session.Sound.isolated (h : session.Sound) : session.Isolated where
  allocates environment size address machine list hrun := by
    obtain ⟨result, machine', after, hrun', hsound, hcases⟩ := h.list.allocate environment size
    rw [hrun] at hrun'
    obtain ⟨rfl, rfl, rfl⟩ : result = .ok address ∧ machine' = machine ∧ after = list := by
      simpa [eq_comm] using hrun'
    rcases hcases with ⟨⟨failure, hfail⟩, -⟩ | ⟨place, heq, hprovides⟩
    · cases hfail
    · obtain rfl := Except.ok.inj heq
      refine ⟨fun hlive => hprovides.unused ((h.live address).1 hlive),
        hprovides.evolves.blockSize, hprovides.used.places, ?_⟩
      rw [hprovides.zero, hprovides.evolves.blockSize]
  placed address hlive := ((h.live address).1 hlive).places
  apart := h.distinct.imp_of_mem fun hp hq hne =>
    h.list.uses_apart ((h.live _).1 hp) ((h.live _).1 hq) hne
  kept _ hlive _ hleads := hleads.kept h hlive

/-- In every reachable session blocks are handed out zeroed and apart from all live ones, and no
call reaches a block that it is not made on. -/
theorem Session.Reachable.blocks_isolated (h : session.Reachable) : session.Isolated :=
  h.sound.isolated

end PagedAlloc.FixedList

namespace PagedAlloc.FixedList

open FixedChunk

attribute [local instance] Size.Paging.common

theorem blocks_isolated_after_write :
    ∃ session, Session.start ⟨24, 200, true⟩ .ordinary .fresh = .ok session ∧
      let after := ((session.after .ordinary (.allocate 24)).after .ordinary (.allocate 8)).after
        .ordinary (.write 65584 4 [(Run.constant 7, 20)])
      after.live = [65608, 65584] ∧ after.Isolated := by
  have hstart : Session.start ⟨24, 200, true⟩ .ordinary .fresh = .ok _ := rfl
  refine ⟨_, hstart, by decide +kernel, ?_⟩
  have first := (Session.Reachable.of_start hstart).step .ordinary (.allocate 24) trivial
  have second := first.step .ordinary (.allocate 8) trivial
  have third := second.step .ordinary (.write 65584 4 [(Run.constant 7, 20)])
    (show 65584 ∈ _ ∧ 4 + 20 ≤ _ by decide +kernel)
  exact third.blocks_isolated

end PagedAlloc.FixedList
