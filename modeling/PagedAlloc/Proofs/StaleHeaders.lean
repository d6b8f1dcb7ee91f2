import PagedAlloc.Proofs.Tiling

/-!
# Headers of freed blocks

A merge gives up the header of the block that is taken in, but nothing is written over it: it writes
only headers of blocks that are still there afterwards. So the header of a freed block goes on to
tell that the block is free, as long as its bytes belong to a free block, be it the block itself or
one that took it in (`Freed`). Each of the two steps of freeing keeps such headers: marking another
block as free (`Freed.mark`) and merging two free blocks (`Freed.absorb`).
-/

namespace PagedAlloc

namespace Layout

/-- A header at this offset is the one of the block, or it lies in the payload with room behind
it. -/
def Covers (spot : Nat × Slot) (offset : Nat) : Prop :=
  (offset = spot.1 ∨ spot.1 + Block.headerSize ≤ offset) ∧
    offset + Block.headerSize < spot.1 + spot.2.total

variable {start offset : Nat} {slot next : Slot} {before after : List Slot}

/-- A slot is in front of a given one, this one itself, or behind it. -/
theorem mem_spots_middle {spot : Nat × Slot} :
    spot ∈ spots start (before ++ slot :: after) ↔
      spot ∈ spots start before ∨ spot = (stop start before, slot) ∨
        spot ∈ spots (stop start before + slot.total) after := by
  simp only [spots_append, spots, List.mem_append, List.mem_cons]

/-- What one of two free blocks covers is covered by the block that they are merged into. -/
theorem covered_merged (free : slot.isFree = true)
    (h : ∃ spot ∈ spots start (before ++ slot :: next :: after),
      spot.2.isFree = true ∧ Covers spot offset) :
    ∃ spot ∈ spots start (before ++ ⟨slot.size + next.total, slot.isFree⟩ :: after),
      spot.2.isFree = true ∧ Covers spot offset := by
  have hend : stop start before + Slot.total ⟨slot.size + next.total, slot.isFree⟩ =
      stop start before + slot.total + next.total := by
    simp only [Slot.total]
    omega
  have hmerged : stop start before + Block.headerSize ≤ stop start before + slot.total :=
    Nat.add_le_add_left (Nat.le_add_right ..) _
  obtain ⟨spot, hspot, hfree, hcovers⟩ := h
  simp only [mem_spots_middle, hend]
  rcases mem_spots_middle.1 hspot with hbefore | rfl | hback
  · exact ⟨spot, Or.inl hbefore, hfree, hcovers⟩
  · refine ⟨_, Or.inr (Or.inl rfl), free, hcovers.1, ?_⟩
    simp only [hend]
    exact Nat.lt_add_right _ hcovers.2
  · -- what the second slot covers, its own header included, is covered by the merged one
    rcases List.mem_cons.1 hback with rfl | hafter
    · obtain ⟨hplace, hlt⟩ := hcovers
      refine ⟨_, Or.inr (Or.inl rfl), free, Or.inr ?_, by simpa only [hend] using hlt⟩
      simp only at hplace ⊢
      omega
    · exact ⟨spot, Or.inr (Or.inr hafter), hfree, hcovers⟩

end Layout

open Layout

namespace Chunk

/-- At an offset of the chunk at an address there is the header of a freed block: it tells that the
block is free, and its bytes belong to a free block. -/
structure Freed (chunk : Chunk) (address : Nat) (slots : List Slot) (offset : Nat) : Prop where
  record : ∃ prev size,
    chunk.memory.record? offset Block.headerSize = some ⟨address, prev, size, true⟩
  covered : ∃ spot ∈ spots headerSize slots, spot.2.isFree = true ∧ Covers spot offset

variable {chunk chunk' : Chunk} {address offset : Nat} {slot next : Slot}
  {slots slots' before after : List Slot}

/-- A free block of a layout has the header of a freed one. -/
theorem Tiled.freed (h : chunk.Tiled address (before ++ slot :: after)) (free : slot.isFree = true) :
    chunk.Freed address (before ++ slot :: after) (stop headerSize before) where
  record := ⟨_, _, free ▸ h.record?_eq⟩
  covered := by
    refine ⟨_, mem_spots_middle.2 (Or.inr (Or.inl rfl)), free, Or.inl rfl, ?_⟩
    have hvalid := (h.valid slot (by simp)).2
    simp only [Slot.total, Block.minPayload] at hvalid ⊢
    omega

namespace Freed

theorem withLargest (h : chunk.Freed address slots offset) (size : Nat) :
    Freed { chunk with largestFree := size } address slots offset :=
  ⟨h.record, h.covered⟩

/-- Where no payload of the new layout was written to, a header stays that of a freed block. -/
theorem of_payloads (h : chunk.Freed address slots offset) (tiled : chunk'.Tiled address slots')
    (length : chunk'.memory.length = chunk.memory.length)
    (covered : ∃ spot ∈ spots headerSize slots', spot.2.isFree = true ∧ Covers spot offset)
    (payloads : ∀ spot ∈ spots headerSize slots', ∀ x, spot.1 + Block.headerSize ≤ x →
      x < spot.1 + spot.2.total → chunk'.memory.cell x = chunk.memory.cell x) :
    chunk'.Freed address slots' offset := by
  refine ⟨?_, covered⟩
  obtain ⟨⟨place, slot⟩, hspot, hfree, hplace, hlt⟩ := covered
  simp only at hfree hplace hlt
  rcases hplace with rfl | hbehind
  · -- the header of a block of the layout is the one that the layout says
    obtain ⟨before, after, rfl, rfl⟩ := mem_spots_iff.1 hspot
    exact ⟨_, _, hfree ▸ tiled.record?_eq⟩
  · obtain ⟨prev, size, hrecord⟩ := h.record
    refine ⟨prev, size, ?_⟩
    rw [← hrecord]
    exact Memory.record?_congr (by decide) length fun x hle hx _ =>
      payloads _ hspot x (by simp only; omega) (by simp only; omega)

/-- Marking a used block as free keeps the headers of the blocks that were freed before. -/
theorem mark (h : chunk.Freed address (before ++ slot :: after) offset) (used : slot.isFree = false)
    (old : chunk.Tiled address (before ++ slot :: after)) {header : BlockHeader}
    (tiled : Tiled (chunk.setHeader ⟨address, stop headerSize before⟩ header) address
      (before ++ ⟨slot.size, true⟩ :: after)) :
    Freed (chunk.setHeader ⟨address, stop headerSize before⟩ header) address
      (before ++ ⟨slot.size, true⟩ :: after) offset := by
  refine h.of_payloads tiled (Memory.length_store ..) ?_ ?_
  · obtain ⟨spot, hspot, hfree, hcovers⟩ := h.covered
    refine ⟨spot, ?_, hfree, hcovers⟩
    rcases mem_spots_middle.1 hspot with hbefore | rfl | hafter
    · exact mem_spots_middle.2 (Or.inl hbefore)
    · rw [used] at hfree
      cases hfree
    · exact mem_spots_middle.2 (Or.inr (Or.inr hafter))
  · intro spot hspot x hle hlt
    have hend := spot_le_stop hspot
    have hlength := old.length
    rw [tiled.ends] at hend
    simp only [setHeader] at hend ⊢
    -- the header that is written lies outside of every payload
    rw [Memory.cell_store _ _ _ _ (by omega), if_neg]
    rcases mem_spots_middle.1 hspot with hbefore | rfl | hafter
    · have := spot_le_stop hbefore
      omega
    · simp only at hle ⊢
      omega
    · have hstart := le_of_mem_spots hafter
      rw [Slot.total] at hstart
      omega

/-- Merging two free blocks keeps the headers of freed blocks, the one that is given up among
them. -/
theorem absorb (h : chunk.Freed address (before ++ slot :: next :: after) offset)
    (free : slot.isFree = true) (old : chunk.Tiled address (before ++ slot :: next :: after))
    {memory : Memory BlockHeader}
    (tiled : Tiled { chunk with memory := memory } address
      (before ++ ⟨slot.size + next.total, slot.isFree⟩ :: after))
    (cells : ∀ x, x < chunk.size →
      x < stop headerSize before ∨
        (stop headerSize before + Block.headerSize ≤ x ∧
          x < stop headerSize before + slot.total + next.total) ∨
        stop headerSize before + slot.total + next.total + Block.headerSize ≤ x →
      memory.cell x = chunk.memory.cell x) :
    Freed { chunk with memory := memory } address
      (before ++ ⟨slot.size + next.total, slot.isFree⟩ :: after) offset := by
  refine h.of_payloads tiled (tiled.length.trans old.length.symm) (covered_merged free h.covered) ?_
  intro spot hspot x hle hlt
  have hend := spot_le_stop hspot
  rw [tiled.ends] at hend
  -- only the headers of the merged block and of the one behind it are written
  apply cells x (Nat.lt_of_lt_of_le hlt hend)
  rcases mem_spots_middle.1 hspot with hbefore | rfl | hafter
  · exact Or.inl (Nat.lt_of_lt_of_le hlt (spot_le_stop hbefore))
  · simp only [Slot.total] at hle hlt ⊢
    omega
  · have hstart := le_of_mem_spots hafter
    simp only [Slot.total] at hstart ⊢
    omega

end Freed

end Chunk

end PagedAlloc
