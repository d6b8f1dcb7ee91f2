import PagedAlloc.Proofs.Sessions

/-!
# Blocks of a chunk

Whatever a caller did, and whatever it wrote into its payloads, a walk over any chunk of a
segregated list finds blocks that fill the chunk without a gap, each with the right links
(`SegregatedList.Session.Reachable.blocks_contiguous`).
-/

namespace PagedAlloc

variable {paging : Size.Paging}

namespace Chunk

open Layout

/-- Blocks of the chunk at an address that follow each other without a gap from an offset up to the
bound `finish`: each one names the chunk and the block in front of it, and holds a payload that is
not too small and ends on a boundary. -/
def Contiguous (address finish : Nat) :
    Option Nat → Nat → List (BlockRef × BlockHeader) → Prop
  | _, start, [] => start = finish
  | prev, start, (ref, header) :: rest =>
    ref = ⟨address, start⟩ ∧ header.chunk = address ∧ header.prev = prev ∧
      Block.payloadAlign ∣ header.size ∧ Block.minPayload ≤ header.size ∧
        Contiguous address finish (some start) (start + Block.headerSize + header.size) rest

variable {address : Nat} {slots : List Slot}

/-- The blocks that a walk finds lie end to end. -/
theorem contiguous_visited (prev : Option Nat) (start : Nat) (valid : ∀ slot ∈ slots, slot.Valid) :
    Contiguous address (stop start slots) prev start (visited address prev start slots) := by
  induction slots generalizing prev start with
  | nil => rfl
  | cons slot rest ih =>
    obtain ⟨hdvd, hmin⟩ := valid slot (List.mem_cons_self ..)
    refine ⟨rfl, rfl, rfl, hdvd, hmin, ?_⟩
    rw [Nat.add_assoc]
    exact ih (some start) (start + slot.total) fun other hother =>
      valid other (List.mem_cons_of_mem _ hother)

theorem length_visited (prev : Option Nat) (start : Nat) :
    (visited address prev start slots).length = slots.length := by
  induction slots generalizing prev start with
  | nil => rfl
  | cons slot rest ih => simp [visited, ih]

/-- If no two slots next to each other are free then no two visited blocks are. -/
theorem isChain_visited (prev : Option Nat) (start : Nat) (apart : slots.IsChain Slot.Apart) :
    (visited address prev start slots).IsChain fun p q =>
      ¬ (p.2.isFree = true ∧ q.2.isFree = true) := by
  induction slots generalizing prev start with
  | nil => exact List.IsChain.nil
  | cons slot rest ih =>
    have hrest := ih (some start) (start + slot.total) apart.tail
    cases rest with
    | nil => exact List.IsChain.singleton _
    | cons next rest => exact List.IsChain.cons_cons apart.rel hrest

end Chunk

namespace SegregatedList

open Layout

/-- In every chunk of every reachable session, a walk from the first block visits blocks that fill
the chunk from its header to its end without a gap or an overlap, with the right links and valid
sizes, no two free blocks lie next to each other, and a chunk of the dedicated category is a single
block. -/
theorem Session.Reachable.blocks_contiguous {session : Session} (h : session.Reachable)
    (index : Fin categoryCount) :
    ∀ entry ∈ (session.list.category index).chunks.toList,
      ∃ blocks, entry.2.blocks entry.1 = .ok blocks ∧
        Chunk.Contiguous entry.1 entry.2.size none Chunk.headerSize blocks ∧
        (blocks.IsChain fun p q => ¬ (p.2.isFree = true ∧ q.2.isFree = true)) ∧
        (chunkSizeOf index = none → blocks.length = 1) := by
  rintro ⟨address, chunk⟩ hmem
  have hsound := h.sound.list
  have hsettled := (hsound.sound index).settled hmem
  refine ⟨_, hsettled.blocks_eq, ?_, Chunk.isChain_visited none Chunk.headerSize hsettled.apart, ?_⟩
  · rw [← hsettled.tiled.ends]
    exact Chunk.contiguous_visited none Chunk.headerSize hsettled.tiled.valid
  · intro hdedicated
    rw [Chunk.length_visited]
    exact hsettled.single (by rw [hsound.chunkSize, hdedicated]; rfl)

end SegregatedList

end PagedAlloc

namespace PagedAlloc.SegregatedList

open Layout

attribute [local instance] Size.Paging.common

/-- The first of two payloads was freed, so a free block lies in front of the other one. -/
theorem blocks_contiguous_after_free :
    let session := ((Session.after ⟨.fresh, .empty, []⟩ .ordinary (.allocate 64 true)).after
      .ordinary (.allocate 50 false)).after .ordinary (.free 65616)
    session.live = [(65712, 50)] ∧
      ∀ entry ∈ (session.list.category (categoryFor 64)).chunks.toList,
        ∃ blocks, entry.2.blocks entry.1 = .ok blocks ∧
          Chunk.Contiguous entry.1 entry.2.size none Chunk.headerSize blocks ∧
          (blocks.IsChain fun p q => ¬ (p.2.isFree = true ∧ q.2.isFree = true)) ∧
          (chunkSizeOf (categoryFor 64) = none → blocks.length = 1) := by
  have first := (Session.Reachable.start .fresh).step .ordinary
    Environment.ordinary_fitsAddresses (.allocate 64 true) trivial
  have second := first.step .ordinary Environment.ordinary_fitsAddresses (.allocate 50 false) trivial
  have third := second.step .ordinary Environment.ordinary_fitsAddresses (.free 65616)
    (show 65616 ∈ _ by decide +kernel)
  exact ⟨by decide +kernel, third.blocks_contiguous (categoryFor 64)⟩

end PagedAlloc.SegregatedList
