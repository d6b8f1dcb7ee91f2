import PagedAlloc.Proofs.BlockSteps

/-!
# Chunks at rest

Between two operations a chunk is settled: its blocks tile it, no two free ones lie next to each
other, a chunk whose blocks are not cut holds a single one, and the chunk remembers its largest free
block. This module says what has to be shown at the end of an operation for the chunk to be settled
again (`Settled.take`, `Tiled.settle`, `Settled.grow`, `settled_freeAll`).
-/

namespace PagedAlloc.Chunk

variable {paging : Size.Paging}

open Layout

/-- The layout that a walk over the chunk at an address sees. -/
def slots (chunk : Chunk) (address : Nat) : List Slot :=
  match chunk.blocks address with
  | .ok blocks => blocks.map fun (_, header) => ⟨header.size, header.isFree⟩
  | .error _ => []

/-- The chunk at an address has this layout and is at rest. The blocks of a shared chunk may be
cut. -/
structure Settled (chunk : Chunk) (shared : Bool) (address : Nat) (slots : List Slot) : Prop where
  tiled : chunk.Tiled address slots
  nonempty : slots ≠ []
  apart : slots.IsChain Slot.Apart
  single : shared = false → slots.length = 1
  measured : chunk.largestFree = largest slots

variable {chunk chunk' : Chunk} {shared : Bool} {address : Nat} {slot : Slot}
  {slots before after : List Slot}

/-- The layout of a chunk is what a walk through its blocks reads. -/
theorem slots_of_blocks (h : chunk.blocks address = .ok (visited address none headerSize slots)) :
    chunk.slots address = slots := by
  rw [Chunk.slots, h]
  exact map_visited ..

theorem Tiled.slots_eq (h : chunk.Tiled address slots) (nonempty : slots ≠ []) :
    chunk.slots address = slots :=
  slots_of_blocks (h.blocks_eq nonempty)

namespace Settled

theorem slots_eq (h : chunk.Settled shared address slots) : chunk.slots address = slots :=
  h.tiled.slots_eq h.nonempty

theorem blocks_eq (h : chunk.Settled shared address slots) :
    chunk.blocks address = .ok (visited address none headerSize slots) :=
  h.tiled.blocks_eq h.nonempty

/-- A chunk whose blocks are not cut has nothing around a block. -/
theorem alone (h : chunk.Settled shared address (before ++ slot :: after)) (whole : shared = false) :
    before = [] ∧ after = [] := by
  have hlength := h.single whole
  rw [List.length_append, List.length_cons] at hlength
  exact ⟨List.eq_nil_of_length_eq_zero (by omega), List.eq_nil_of_length_eq_zero (by omega)⟩

theorem single_of_alone {head : Slot} {rest : List Slot}
    (h : chunk.Settled shared address (before ++ slot :: after))
    (whole : shared = false → rest = []) :
    shared = false → (before ++ head :: (rest ++ after)).length = 1 := by
  intro hshared
  obtain ⟨rfl, rfl⟩ := h.alone hshared
  simp [whole hshared]

end Settled

theorem cut_rest_of_whole (size : Nat) (slot : Slot) (whole : shared = false) :
    (cut shared size slot).2 = [] := by
  simp [cut, whole]

/-- The layout in front of a block, the block and the layout behind it. -/
theorem Settled.apart_parts (h : chunk.Settled shared address (before ++ slot :: after)) :
    before.IsChain Slot.Apart ∧ (slot :: after).IsChain Slot.Apart ∧ after.IsChain Slot.Apart := by
  have hparts := List.isChain_append.1 h.apart
  exact ⟨hparts.1, hparts.2.1, (List.isChain_cons.1 hparts.2.1).2⟩

/-! ## Taking a free block -/

section Take

variable {size : Nat}

/-- A block that is taken out of a free one leaves no two free ones next to each other. -/
theorem Settled.take_apart (h : chunk.Settled shared address (before ++ slot :: after))
    (free : slot.isFree = true) (taken : Nat) :
    (before ++ ⟨taken, false⟩ :: ((cut shared size slot).2 ++ after)).IsChain Slot.Apart := by
  obtain ⟨hbefore, hback, -⟩ := h.apart_parts
  exact apart_around_used rfl hbefore (apart_cut_rest free hback shared size slot)

/-- A chunk after a free block was taken: the largest free block is another one, or it is looked for
again from the taken block on. -/
theorem Settled.take (h : chunk.Settled shared address (before ++ slot :: after))
    (free : slot.isFree = true) {taken : Nat}
    (tiled : chunk'.Tiled address
      (before ++ ⟨taken, false⟩ :: ((cut shared size slot).2 ++ after)))
    (measured : chunk'.largestFree =
      if slot.size = chunk.largestFree then
        max (largest before) (largest (⟨taken, false⟩ :: ((cut shared size slot).2 ++ after)))
      else chunk.largestFree) :
    chunk'.Settled shared address
      (before ++ ⟨taken, false⟩ :: ((cut shared size slot).2 ++ after)) where
  tiled := tiled
  nonempty := by simp
  apart := h.take_apart free taken
  single := h.single_of_alone (cut_rest_of_whole size slot)
  measured := by
    rw [measured]
    split
    · rw [largest_append]
    · rename_i hother
      rw [h.measured] at hother ⊢
      exact (largest_take free hother shared size taken).symm

end Take

/-! ## Growing a block -/

/-- A chunk after a used block took in the free block behind it: the largest free block is another
one, or it is looked for again. -/
theorem Settled.grow {next : Slot} {size taken : Nat}
    (h : chunk.Settled shared address (before ++ slot :: next :: after))
    (used : slot.isFree = false) (free : next.isFree = true) (more : slot.size ≤ size)
    (tiled : chunk'.Tiled address (before ++ ⟨taken, false⟩ ::
      ((cut shared size ⟨slot.size + next.total, slot.isFree⟩).2 ++ after)))
    (measured : chunk'.largestFree =
      if next.size = chunk.largestFree then
        largest (before ++ ⟨taken, false⟩ ::
          ((cut shared size ⟨slot.size + next.total, slot.isFree⟩).2 ++ after))
      else chunk.largestFree) :
    chunk'.Settled shared address (before ++ ⟨taken, false⟩ ::
      ((cut shared size ⟨slot.size + next.total, slot.isFree⟩).2 ++ after)) where
  tiled := tiled
  nonempty := by simp
  apart := by
    obtain ⟨hbefore, -, hback⟩ := h.apart_parts
    exact apart_around_used rfl hbefore (apart_cut_rest free hback shared size _)
  single hshared := by
    have hlength := h.single hshared
    simp only [List.length_append, List.length_cons] at hlength
    omega
  measured := by
    rw [measured]
    split
    · rfl
    · rename_i hother
      rw [h.measured] at hother ⊢
      exact (largest_grow used free hother more shared taken).symm

/-- A used block takes in the free block behind it and is cut again. -/
theorem Settled.extend {next : Slot} {old size : Nat}
    (h : chunk.Settled true address (before ++ ⟨old, false⟩ :: next :: after))
    (free : next.isFree = true) (more : old ≤ size) (fits : size ≤ old + next.total)
    (valid : Slot.Valid ⟨size, false⟩) :
    ∃ (taken : Nat) (rest : List Slot) (absorbed grown final : Chunk) (header : BlockHeader)
        (remainder : Option BlockRef),
      cut true size ⟨old + next.total, false⟩ = (⟨taken, false⟩, rest) ∧
        chunk.absorbNext ⟨address, stop headerSize before⟩ = .ok absorbed ∧
        absorbed.split ⟨address, stop headerSize before⟩ size = .ok (remainder, grown) ∧
        grown.header ⟨address, stop headerSize before⟩ = .ok header ∧ header.size = taken ∧
        size ≤ taken ∧ grown.largestFree = chunk.largestFree ∧
        (if next.size = chunk.largestFree then grown.measure address else .ok grown) = .ok final ∧
        final.Settled true address (before ++ ⟨taken, false⟩ :: (rest ++ after)) ∧
        Keeps (some (stop headerSize before)) chunk final
          (before ++ ⟨old, false⟩ :: next :: after) (before ++ ⟨taken, false⟩ :: (rest ++ after)) ∧
        used (before ++ ⟨taken, false⟩ :: (rest ++ after)) + old =
          used (before ++ ⟨old, false⟩ :: next :: after) + taken ∧
        ∀ x, stop headerSize before + Block.headerSize ≤ x →
          x < stop headerSize before + Block.headerSize + taken →
            final.memory.cell x = chunk.memory.cell x := by
  obtain ⟨memory, habsorb, htiled, hcells⟩ := h.tiled.absorbNext_eq
  have hkeeps := h.tiled.absorbNext_keeps free (fun _ => rfl) hcells
  obtain ⟨memory', hsplit, htiled', hkeeps', hcells'⟩ := htiled.cut_eq fits valid fun _ => rfl
  have hused := used_cut_rest true size ⟨old + next.total, false⟩
  have hle : size ≤ (cut true size ⟨old + next.total, false⟩).1.size := le_size_cut true fits
  obtain ⟨taken, htaken⟩ : ∃ taken, (cut true size ⟨old + next.total, false⟩).1 = ⟨taken, false⟩ :=
    ⟨_, congrArg (Slot.mk _) (cut_isFree true size ⟨old + next.total, false⟩)⟩
  have hheader := htiled'.header_eq
  simp only [htaken] at htiled' hkeeps' hcells' hheader hle
  have hall := hkeeps.trans hkeeps'
  -- the largest free block is looked for only if it was the one taken in
  obtain ⟨final, hfinal, htiledFinal, hmeasured, hkeepsFinal, hmemory⟩ : ∃ final : Chunk,
      (if next.size = chunk.largestFree then Chunk.measure { chunk with memory := memory' } address
        else .ok { chunk with memory := memory' }) = .ok final ∧
      final.Tiled address (before ++ ⟨taken, false⟩ ::
        ((cut true size ⟨old + next.total, false⟩).2 ++ after)) ∧
      final.largestFree = (if next.size = chunk.largestFree then largest (before ++ ⟨taken, false⟩ ::
          ((cut true size ⟨old + next.total, false⟩).2 ++ after)) else chunk.largestFree) ∧
      Keeps (some (stop headerSize before)) chunk final (before ++ ⟨old, false⟩ :: next :: after)
        (before ++ ⟨taken, false⟩ :: ((cut true size ⟨old + next.total, false⟩).2 ++ after)) ∧
      final.memory = memory' := by
    split
    · exact ⟨_, htiled'.measure_eq (by simp), htiled'.withLargest _, rfl, hall.withLargest _, rfl⟩
    · exact ⟨_, rfl, htiled', rfl, hall, rfl⟩
  refine ⟨taken, _, _, _, final, _, _, Prod.ext htaken rfl, habsorb, hsplit, hheader, rfl, hle, rfl,
    hfinal, h.grow rfl free more htiledFinal hmeasured, hkeepsFinal, ?_, ?_⟩
  · simp only [used_append, used, free, hused, Bool.false_eq_true, if_false, if_true]
    omega
  · intro x hxle hxlt
    rw [hmemory]
    have hwidth := size_cut_le true size ⟨old + next.total, false⟩
    have hend := htiled.stop_slot_le
    rw [htaken] at hwidth
    simp only [Slot.total] at hcells hcells' hwidth hend
    rw [hcells' x hxle (by omega), hcells x (by omega) (Or.inr (Or.inl ⟨hxle, by omega⟩))]

/-! ## Merging a free block -/

/-- A chunk after a free block came up, was merged with its neighbours and raised the memory of the
largest one. -/
theorem Tiled.settle (h : chunk.Tiled address (before ++ slot :: after)) (shared : Bool)
    (free : slot.isFree = true) (hbefore : before.IsChain Slot.Apart)
    (hafter : after.IsChain Slot.Apart)
    (single : shared = false → before = [] ∧ after = [])
    (measured : chunk.largestFree = largest (before ++ after)) :
    ∃ (merged : Chunk) (header : BlockHeader),
      chunk.coalesce ⟨address, stop headerSize before⟩ =
          .ok (⟨address, stop headerSize (coalescedBefore before slot after)⟩, merged) ∧
        merged.header ⟨address, stop headerSize (coalescedBefore before slot after)⟩ = .ok header ∧
        Settled (merged.raiseLargest header.size) shared address (coalesced before slot after) ∧
        Keeps none chunk (merged.raiseLargest header.size) (before ++ slot :: after)
          (coalesced before slot after) ∧
        ∀ offset, chunk.Freed address (before ++ slot :: after) offset →
          (merged.raiseLargest header.size).Freed address (coalesced before slot after) offset := by
  obtain ⟨memory, hcoalesce, htiled, hkeeps, hfreed⟩ := h.coalesce_eq free
  refine ⟨_, _, hcoalesce, Tiled.header_eq htiled, ?_, hkeeps.withLargest _,
    fun offset hgone => (hfreed offset hgone).withLargest _⟩
  refine ⟨htiled.withLargest _, by simp [coalesced], apart_coalesced free hbefore hafter, ?_, ?_⟩
  · intro hshared
    obtain ⟨rfl, rfl⟩ := single hshared
    rfl
  · rw [largest_coalesced free, ← measured]
    rfl

/-! ## Shrinking a block -/

/-- A used block is cut and its remainder is merged with what is behind it. -/
theorem Settled.shrink {old size : Nat}
    (h : chunk.Settled true address (before ++ ⟨old, false⟩ :: after))
    (room : size + Block.headerSize + Block.minPayload ≤ old) (valid : Slot.Valid ⟨size, false⟩) :
    ∃ (cutChunk merged final : Chunk) (cutHeader header : BlockHeader) (remainder offset : Nat),
      chunk.split ⟨address, stop headerSize before⟩ size =
          .ok (some ⟨address, remainder⟩, cutChunk) ∧
        cutChunk.header ⟨address, stop headerSize before⟩ = .ok cutHeader ∧
        cutHeader.size = size ∧
        cutChunk.coalesce ⟨address, remainder⟩ = .ok (⟨address, offset⟩, merged) ∧
        merged.header ⟨address, offset⟩ = .ok header ∧ merged.raiseLargest header.size = final ∧
        final.Settled true address (coalesced (before ++ [⟨size, false⟩])
          ⟨old - size - Block.headerSize, true⟩ after) ∧
        Keeps (some (stop headerSize before)) chunk final (before ++ ⟨old, false⟩ :: after)
          (coalesced (before ++ [⟨size, false⟩]) ⟨old - size - Block.headerSize, true⟩ after) ∧
        used (coalesced (before ++ [⟨size, false⟩]) ⟨old - size - Block.headerSize, true⟩ after) +
          (old - size) = used (before ++ ⟨old, false⟩ :: after) ∧
        (stop headerSize before, ⟨size, false⟩) ∈ spots headerSize
          (coalesced (before ++ [⟨size, false⟩]) ⟨old - size - Block.headerSize, true⟩ after) ∧
        ∀ x, stop headerSize before + Block.headerSize ≤ x →
          x < stop headerSize before + Block.headerSize + size →
            final.memory.cell x = chunk.memory.cell x := by
  obtain ⟨hbefore, -, hafter⟩ := h.apart_parts
  obtain ⟨memory, hsplit, htiled, hkeeps, hcells⟩ :=
    h.tiled.cut_eq (show size ≤ old by omega) valid fun _ => rfl
  have hcut : cut true size ⟨old, false⟩ =
      (⟨size, false⟩, [⟨old - size - Block.headerSize, true⟩]) := if_pos ⟨rfl, room⟩
  have hflat : before ++ ⟨size, false⟩ :: ([⟨old - size - Block.headerSize, true⟩] ++ after) =
      (before ++ [⟨size, false⟩]) ++ ⟨old - size - Block.headerSize, true⟩ :: after :=
    List.append_cons ..
  have hoffset : stop headerSize (before ++ [⟨size, false⟩]) =
      stop headerSize before + Slot.total ⟨size, false⟩ := stop_append ..
  rw [hcut] at hsplit htiled hkeeps hcells
  have hheader := htiled.header_eq
  rw [hflat] at htiled hkeeps
  obtain ⟨merged, header, hcoalesce, hmerged, hsettled, hmerge, -⟩ := htiled.settle true rfl
    (apart_around_used rfl hbefore List.isChain_nil) hafter (by simp)
    (by simpa [largest_append, largest] using h.measured)
  -- the block that was cut is a used one for the merge
  have hspot : (stop headerSize before, (⟨size, false⟩ : Slot)) ∈ spots headerSize
      ((before ++ [⟨size, false⟩]) ++ ⟨old - size - Block.headerSize, true⟩ :: after) :=
    mem_spots_iff.2 ⟨before, _, hflat.symm, rfl⟩
  have hused := used_coalesced
    (show (⟨old - size - Block.headerSize, true⟩ : Slot).isFree = true from rfl)
    (before ++ [⟨size, false⟩]) after
  rw [hoffset] at hcoalesce
  refine ⟨_, merged, _, _, header, _, _, hsplit, hheader, rfl, hcoalesce, hmerged, rfl, hsettled,
    hkeeps.trans (hmerge.weaken _), ?_, hmerge.stays _ hspot rfl (by simp), ?_⟩
  · simp only [used_append, used, Bool.false_eq_true, if_false] at hused ⊢
    omega
  · intro x hle hlt
    have hkept := hmerge.cells _ hspot rfl (by simp) x hle
    simp only [Slot.total] at hkept hcells
    rw [hkept (by omega), hcells x hle (by omega)]

/-! ## Writing into a payload -/

theorem Settled.write (h : chunk.Settled shared address (before ++ slot :: after)) {place : Nat}
    {content : Stretch BlockHeader} (behind : stop headerSize before + Block.headerSize ≤ place)
    (fits : place + content.length ≤ stop headerSize before + slot.total) :
    Settled { chunk with memory := chunk.memory.write place content } shared address
      (before ++ slot :: after) :=
  ⟨h.tiled.write behind fits, h.nonempty, h.apart, h.single, h.measured⟩

/-! ## Resetting -/

/-- A chunk that is one free block. -/
theorem settled_freeAll (length : chunk.memory.length = chunk.size) (small : chunk.size < Size.limit)
    (room : headerSize + Block.headerSize + Block.minPayload ≤ chunk.size)
    (aligned : Block.payloadAlign ∣ chunk.size) (shared : Bool) (address : Nat) :
    ∃ fresh, chunk.freeAll address = .ok fresh ∧
      fresh.Settled shared address [freshSlot chunk.size] ∧ fresh.size = chunk.size ∧
      fresh.category = chunk.category := by
  obtain ⟨memory, hfree, htiled⟩ := freeAll_eq length small room aligned address
  refine ⟨_, hfree, ⟨htiled, by simp, List.isChain_singleton _, fun _ => rfl, ?_⟩, rfl, rfl⟩
  simp [largest, freshSlot]

/-- A chunk after it was turned into one free block. -/
def reset (chunk : Chunk) (address : Nat) : Chunk :=
  match chunk.freeAll address with
  | .ok fresh => fresh
  | .error _ => chunk

/-- Resetting a settled chunk of whole pages succeeds. -/
theorem Settled.reset (h : chunk.Settled shared address slots) (hwhole : Size.pageSize ∣ chunk.size) :
    chunk.freeAll address = .ok (chunk.reset address) ∧
      (chunk.reset address).Settled shared address [freshSlot chunk.size] ∧
      (chunk.reset address).size = chunk.size ∧ (chunk.reset address).category = chunk.category := by
  have hpositive : headerSize ≤ chunk.size := h.tiled.ends ▸ le_stop headerSize slots
  have hpage := Nat.le_of_dvd (Nat.lt_of_lt_of_le (by decide) hpositive) hwhole
  obtain ⟨fresh, hfree, hsettled, hsize, hcategory⟩ := settled_freeAll h.tiled.length h.tiled.small
    (Nat.le_trans (by decide) (Size.Paging.roomy.trans hpage))
    (Nat.dvd_trans (Size.dvd_pageSize (by decide) (by decide)) hwhole) shared address
  have hreset : chunk.reset address = fresh := by rw [Chunk.reset, hfree]
  rw [hreset]
  exact ⟨hfree, hsettled, hsize, hcategory⟩

end PagedAlloc.Chunk
