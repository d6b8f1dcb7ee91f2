import PagedAlloc.Proofs.StaleHeaders

/-!
# Changing the blocks of a chunk

Marking, splitting, absorbing and resetting change the layout of a tiled chunk at one place and
write headers there and in the block behind. Every step is stated by the layout that it leaves
(`Tiled.mark`, `Tiled.split_eq`, `Tiled.absorbNext_eq`, `Tiled.freeAll_eq`), and `Keeps` says that
all used blocks outside of that place stay where they are and keep every cell of their payloads.
-/

namespace PagedAlloc.Chunk

open Layout

variable {chunk chunk' : Chunk} {address : Nat} {slot next : Slot}
  {slots slots' before after : List Slot}

/-- From one state of a chunk to another, every used block but the one at `target` stays and keeps
its payload. -/
structure Keeps (target : Option Nat) (chunk chunk' : Chunk) (slots slots' : List Slot) : Prop where
  size : chunk'.size = chunk.size
  category : chunk'.category = chunk.category
  stays : ∀ spot ∈ spots headerSize slots, spot.2.isFree = false → target ≠ some spot.1 →
    spot ∈ spots headerSize slots'
  cells : ∀ spot ∈ spots headerSize slots, spot.2.isFree = false → target ≠ some spot.1 →
    ∀ x, spot.1 + Block.headerSize ≤ x → x < spot.1 + spot.2.total →
      chunk'.memory.cell x = chunk.memory.cell x

namespace Keeps

variable {target : Option Nat}

theorem refl (target : Option Nat) (chunk : Chunk) (slots : List Slot) :
    Keeps target chunk chunk slots slots :=
  ⟨rfl, rfl, fun _ h _ _ => h, fun _ _ _ _ _ _ _ => rfl⟩

/-- What two steps keep one after the other is kept by both together. -/
theorem trans {chunk'' : Chunk} {slots'' : List Slot} (h : Keeps target chunk chunk' slots slots')
    (h' : Keeps target chunk' chunk'' slots' slots'') :
    Keeps target chunk chunk'' slots slots'' where
  size := h'.size.trans h.size
  category := h'.category.trans h.category
  stays spot hmem hused hother := h'.stays spot (h.stays spot hmem hused hother) hused hother
  cells spot hmem hused hother x hle hlt :=
    (h'.cells spot (h.stays spot hmem hused hother) hused hother x hle hlt).trans
      (h.cells spot hmem hused hother x hle hlt)

/-- What keeps all blocks keeps all but one of them. -/
theorem weaken (h : Keeps none chunk chunk' slots slots') (target : Option Nat) :
    Keeps target chunk chunk' slots slots' :=
  ⟨h.size, h.category, fun spot hmem hused _ => h.stays spot hmem hused (by simp),
    fun spot hmem hused _ => h.cells spot hmem hused (by simp)⟩

end Keeps

/-! ## Rebuilding a layout around a changed middle -/

/-- A change of the middle of a layout that writes there and to the header behind it keeps all used
blocks outside. -/
theorem Tiled.keeps_middle (middle middle' : List Slot)
    (h : chunk.Tiled address (before ++ (middle ++ after)))
    {memory : Memory BlockHeader} {target : Option Nat}
    (ends : stop (stop headerSize before) middle' = stop (stop headerSize before) middle)
    (hole : ∀ spot ∈ spots (stop headerSize before) middle, spot.2.isFree = false →
      target = some spot.1)
    (outside : ∀ x, x < chunk.size → x < stop headerSize before ∨
      stop (stop headerSize before) middle + Block.headerSize ≤ x →
        memory.cell x = chunk.memory.cell x) :
    Keeps target chunk { chunk with memory := memory } (before ++ (middle ++ after))
      (before ++ (middle' ++ after)) := by
  have hstop := h.ends
  simp only [stop_append] at hstop
  -- a used block that is not the target lies in front of the middle or behind it
  have hcases : ∀ spot ∈ spots headerSize (before ++ (middle ++ after)), spot.2.isFree = false →
      target ≠ some spot.1 → spot ∈ spots headerSize before ∨
        spot ∈ spots (stop (stop headerSize before) middle) after := by
    intro spot hmem hused hother
    simp only [spots_append, List.mem_append] at hmem
    rcases hmem with hmem | hmem | hmem
    · exact Or.inl hmem
    · exact absurd (hole spot hmem hused) hother
    · exact Or.inr hmem
  refine ⟨rfl, rfl, ?_, ?_⟩
  · intro spot hmem hused hother
    simp only [spots_append, List.mem_append, ends]
    rcases hcases spot hmem hused hother with hbefore | hafter
    · exact Or.inl hbefore
    · exact Or.inr (Or.inr hafter)
  · intro spot hmem hused hother x hle hlt
    have hsize := spot_le_stop hmem
    rw [h.ends] at hsize
    apply outside x (by omega)
    rcases hcases spot hmem hused hother with hbefore | hafter
    · exact Or.inl (Nat.lt_of_lt_of_le hlt (spot_le_stop hbefore))
    · exact Or.inr (Nat.le_trans (Nat.add_le_add_right (le_of_mem_spots hafter) _) hle)

/-- A memory that holds the headers of a new middle and of what is behind it is tiled again. -/
theorem Tiled.rebuild (middle middle' : List Slot)
    (h : chunk.Tiled address (before ++ (middle ++ after)))
    {memory : Memory BlockHeader} (length : memory.length = chunk.memory.length)
    (ends : stop (stop headerSize before) middle' = stop (stop headerSize before) middle)
    (valid : ∀ slot ∈ middle', slot.Valid)
    (front : ∀ x, x < chunk.size → x < stop headerSize before →
      memory.cell x = chunk.memory.cell x)
    (stored : Stored memory address (lastOr none headerSize before) (stop headerSize before)
      (middle' ++ after)) :
    Tiled { chunk with memory := memory } address (before ++ (middle' ++ after)) where
  length := length.trans h.length
  small := h.small
  stored := by
    refine stored_append.2 ⟨(stored_append.1 h.stored).1.congr ?_, stored⟩
    intro spot hspot
    -- the headers in front end where the rebuilt part begins
    have hend := spot_le_stop hspot
    have hlength := h.length
    rw [Slot.total] at hend
    exact Memory.record?_congr (by decide) length fun x _ hlt hin => front x (by omega) (by omega)
  ends := by
    have hends := h.ends
    simp only [stop_append, ends] at hends ⊢
    exact hends
  valid := by
    have hvalid := h.valid
    simp only [List.forall_mem_append] at hvalid ⊢
    exact ⟨hvalid.1, valid, hvalid.2.2⟩

/-! ## Linking the block behind -/

/-- The memory after the first block of a layout is linked back to another one. -/
def relinked (memory : Memory BlockHeader) (address start prev : Nat) :
    List Slot → Memory BlockHeader
  | [] => memory
  | slot :: _ =>
    memory.store start Block.headerSize ⟨address, some prev, slot.size, slot.isFree⟩

section Relink

variable {memory : Memory BlockHeader} {start prev : Nat}

@[simp]
theorem length_relinked : (relinked memory address start prev after).length = memory.length := by
  cases after with
  | nil => rfl
  | cons => exact Memory.length_store ..

/-- A link to the block in front is written to the header behind, and nowhere else. -/
theorem cell_relinked {x : Nat} (inside : x < memory.length)
    (apart : x < start ∨ start + Block.headerSize ≤ x) :
    (relinked memory address start prev after).cell x = memory.cell x := by
  cases after with
  | nil => rfl
  | cons => rw [relinked, Memory.cell_store _ _ _ _ inside, if_neg (by omega)]

/-- The headers behind are stored as before, the first of them with its new link. -/
theorem stored_relinked {back : Option Nat} (h : Stored memory address back start after)
    (fits : stop start after ≤ memory.length) (prev : Nat) :
    Stored (relinked memory address start prev after) address (some prev) start after := by
  cases after with
  | nil => exact stored_nil
  | cons slot rest =>
    have hle := le_stop (start + slot.total) rest
    rw [stored_cons] at h ⊢
    rw [stop, Slot.total] at *
    refine ⟨Memory.record?_store _ _ (by decide) (by omega), h.2.store_before (by omega) _⟩

theorem linkBack_eq (chunk : Chunk) {back : Option Nat}
    (h : Stored chunk.memory address back start after) (prev : Nat) :
    chunk.linkBack (firstOf address start after) prev =
      .ok { chunk with memory := relinked chunk.memory address start prev after } := by
  cases after with
  | nil => rfl
  | cons slot rest =>
    rw [stored_cons] at h
    simp only [linkBack, firstOf, Chunk.header, h.1]
    rfl

end Relink

/-- A changed middle, with the block behind it linked back to the last block of the middle. -/
theorem Tiled.relink (middle middle' : List Slot)
    (h : chunk.Tiled address (before ++ (middle ++ after)))
    {memory : Memory BlockHeader} {prev : Nat} (length : memory.length = chunk.memory.length)
    (ends : stop (stop headerSize before) middle' = stop (stop headerSize before) middle)
    (valid : ∀ slot ∈ middle', slot.Valid)
    (stored : Stored memory address (lastOr none headerSize before) (stop headerSize before) middle')
    (last : lastOr (lastOr none headerSize before) (stop headerSize before) middle' = some prev)
    (outside : ∀ x, x < chunk.size → x < stop headerSize before ∨
      stop (stop headerSize before) middle ≤ x → memory.cell x = chunk.memory.cell x) :
    ∃ linked : Memory BlockHeader,
      Chunk.linkBack { chunk with memory := memory }
          (firstOf address (stop (stop headerSize before) middle) after) prev =
        .ok { chunk with memory := linked } ∧
      Tiled { chunk with memory := linked } address (before ++ (middle' ++ after)) ∧
      ∀ x, x < chunk.size → x < stop (stop headerSize before) middle ∨
        stop (stop headerSize before) middle + Block.headerSize ≤ x →
          linked.cell x = memory.cell x := by
  have hlength := h.length
  have hends := h.ends
  have hmiddle := le_stop (stop headerSize before) middle
  have hafter := (stored_append.1 (stored_append.1 h.stored).2).2
  simp only [stop_append] at hends
  set start := stop headerSize before
  set behind := stop start middle
  -- behind the middle the old headers are still there, the first with a link that is out of date
  have hbehind : Stored memory address (lastOr (lastOr none headerSize before) start middle) behind
      after := by
    refine hafter.congr fun spot hspot => Memory.record?_congr (by decide) length ?_
    intro x hle _ hx
    exact outside x (by omega) (Or.inr (Nat.le_trans (le_of_mem_spots hspot) hle))
  have hcells : ∀ x, x < chunk.size → x < behind ∨ behind + Block.headerSize ≤ x →
      (relinked memory address behind prev after).cell x = memory.cell x :=
    fun x hx hout => cell_relinked (by omega) hout
  refine ⟨relinked memory address behind prev after,
    linkBack_eq { chunk with memory := memory } hbehind prev, ?_, hcells⟩
  refine h.rebuild middle middle' (by rw [length_relinked, length]) ends valid
    (fun x hx hlt => (hcells x hx (Or.inl (by omega))).trans (outside x hx (Or.inl hlt))) ?_
  refine stored_append.2 ⟨stored.congr ?_, ?_⟩
  · intro spot hspot
    have hspotEnd := spot_le_stop hspot
    rw [ends, Slot.total] at hspotEnd
    exact Memory.record?_congr (by decide) length_relinked
      fun x _ hlt hx => cell_relinked hx (Or.inl (by omega))
  · rw [last, ends]
    exact stored_relinked hbehind (by omega) prev

/-! ## Marking -/

/-- A header with another flag. -/
theorem Tiled.mark (h : chunk.Tiled address (before ++ slot :: after)) (isFree : Bool) :
    Tiled (chunk.setHeader ⟨address, stop headerSize before⟩
      ⟨address, lastOr none headerSize before, slot.size, isFree⟩) address
      (before ++ ⟨slot.size, isFree⟩ :: after) := by
  have hfits := h.stop_slot_le
  have hlength := h.length
  have hstored := (stored_append.1 h.stored).2
  rw [Slot.total] at hfits
  rw [stored_cons] at hstored
  refine h.rebuild [slot] [⟨slot.size, isFree⟩] (Memory.length_store ..)
    rfl ?_ ?_ ?_
  · simp only [List.mem_singleton, forall_eq]
    exact h.valid slot (by simp)
  · intro x hx hlt
    rw [Memory.cell_store _ _ _ _ (by omega), if_neg (by simp only; omega)]
  · exact stored_cons.2 ⟨Memory.record?_store _ _ (by decide) (by simp only; omega),
      hstored.2.store_before (Nat.add_le_add_left (Nat.le_add_right ..) _) _⟩

/-- Marking a block changes its header and no payload. -/
theorem Tiled.mark_keeps (h : chunk.Tiled address (before ++ slot :: after)) (isFree : Bool)
    {target : Option Nat} (hole : slot.isFree = false → target = some (stop headerSize before)) :
    Keeps target chunk (chunk.setHeader ⟨address, stop headerSize before⟩
      ⟨address, lastOr none headerSize before, slot.size, isFree⟩) (before ++ slot :: after)
      (before ++ ⟨slot.size, isFree⟩ :: after) := by
  have hlength := h.length
  refine h.keeps_middle [slot] [⟨slot.size, isFree⟩] rfl ?_ ?_
  · simpa [spots] using hole
  · intro x hx hout
    rw [stop, stop, Slot.total] at hout
    rw [Memory.cell_store _ _ _ _ (by omega), if_neg (by simp only; omega)]

/-! ## Splitting -/

/-- The test whether a block is split does not overflow for sizes that fit. -/
theorem splits_eq (available : Nat) {size : Nat}
    (small : size + Block.headerSize + Block.minPayload < Size.limit) :
    Block.splits available size =
      .ok (decide (size + Block.headerSize + Block.minPayload ≤ available)) := by
  simp only [Block.splits, Size.add, bind, Except.bind]
  rw [if_pos (by omega)]
  simp only
  rw [if_pos small]
  rfl

theorem sub_eq {a b : Nat} (h : b ≤ a) : Size.sub a b = .ok (a - b) := if_pos h

theorem add_eq {a b : Nat} (h : a + b < Size.limit) : Size.add a b = .ok (a + b) := if_pos h

/-- A payload that takes at most what a block holds is never too large to be compared. -/
theorem Tiled.split_small (h : chunk.Tiled address (before ++ slot :: after)) {size : Nat}
    (fits : size ≤ slot.size) : size + Block.headerSize + Block.minPayload < Size.limit := by
  have hstart := le_stop headerSize before
  have hend := h.stop_slot_le
  have hsmall := h.small
  simp only [headerSize, Slot.total, Block.headerSize, Block.minPayload] at *
  omega

/-- Without room for another block a split does nothing. -/
theorem Tiled.split_eq_none (h : chunk.Tiled address (before ++ slot :: after)) {size : Nat}
    (fits : size ≤ slot.size) (narrow : slot.size < size + Block.headerSize + Block.minPayload) :
    chunk.split ⟨address, stop headerSize before⟩ size = .ok (none, chunk) := by
  simp only [split, h.header_eq, bind, Except.bind, splits_eq _ (h.split_small fits),
    decide_eq_false (Nat.not_le.2 narrow)]
  rfl

/-- A split leaves two blocks in place of one. It writes the headers of both and the link of the
block behind. -/
theorem Tiled.split_eq (h : chunk.Tiled address (before ++ slot :: after)) {size : Nat}
    (room : size + Block.headerSize + Block.minPayload ≤ slot.size)
    (valid : Slot.Valid ⟨size, slot.isFree⟩) :
    ∃ memory : Memory BlockHeader,
      chunk.split ⟨address, stop headerSize before⟩ size =
          .ok (some ⟨address, stop headerSize before + Block.headerSize + size⟩,
            { chunk with memory := memory }) ∧
        Tiled { chunk with memory := memory } address (before ++ (parts slot size ++ after)) ∧
        ∀ x, x < chunk.size →
          x < stop headerSize before ∨
            (stop headerSize before + Block.headerSize ≤ x ∧
              x < stop headerSize before + Block.headerSize + size) ∨
            stop headerSize before + slot.total + Block.headerSize ≤ x →
          memory.cell x = chunk.memory.cell x := by
  have hlength := h.length
  have hend := h.stop_slot_le
  have hsplits := splits_eq slot.size (h.split_small (show size ≤ slot.size by omega))
  have hafter := h.after_eq ⟨address, lastOr none headerSize before, slot.size, slot.isFree⟩ rfl
  have hparts : ∀ slot' ∈ parts slot size, slot'.Valid := by
    have hslot := h.valid slot (by simp)
    simp only [parts, List.mem_cons, List.not_mem_nil, or_false, forall_eq_or_imp, forall_eq]
    refine ⟨valid, ?_⟩
    simp only [Slot.Valid, Block.payloadAlign, Block.minPayload, Block.headerSize] at *
    omega
  have hstop : ∀ start, stop start (parts slot size) = start + slot.total :=
    fun _ => stop_parts (by omega)
  have hlast : lastOr (lastOr none headerSize before) (stop headerSize before) (parts slot size) =
      some (stop headerSize before + Block.headerSize + size) := by
    simp [parts, lastOr, Slot.total, Nat.add_assoc]
  rw [Slot.total] at hend
  -- the two headers lie at the ends of the old payload
  let cut := (chunk.memory.store (stop headerSize before + Block.headerSize + size)
      Block.headerSize ⟨address, some (stop headerSize before),
        slot.size - size - Block.headerSize, true⟩).store (stop headerSize before)
    Block.headerSize ⟨address, lastOr none headerSize before, size, slot.isFree⟩
  have hcut : ∀ x, x < chunk.size → x < stop headerSize before ∨
      (stop headerSize before + Block.headerSize ≤ x ∧
        x < stop headerSize before + Block.headerSize + size) ∨
      stop headerSize before + slot.total ≤ x → cut.cell x = chunk.memory.cell x := by
    intro x hx hout
    rw [Slot.total] at hout
    rw [Memory.cell_store _ _ _ _ (by rw [Memory.length_store]; omega), if_neg (by omega),
      Memory.cell_store _ _ _ _ (by omega), if_neg (by omega)]
  have hstored : Stored cut address (lastOr none headerSize before) (stop headerSize before)
      (parts slot size) := by
    simp only [parts, stored_cons, stored_nil, and_true, Slot.total, ← Nat.add_assoc]
    refine ⟨Memory.record?_store _ _ (by decide) (by rw [Memory.length_store]; omega), ?_⟩
    rw [Memory.record?_store_of_disjoint (by decide) (Or.inr (by omega))]
    exact Memory.record?_store _ _ (by decide) (by omega)
  obtain ⟨memory, hlink, htiled, hcells⟩ := h.relink [slot] (parts slot size) (by simp [cut])
    (hstop _) hparts hstored hlast fun x hx hout => hcut x hx (by rw [stop, stop] at hout; omega)
  refine ⟨memory, ?_, htiled, ?_⟩
  · simp only [split, h.header_eq, bind, Except.bind, hsplits, decide_eq_true room, if_true, hafter,
      sub_eq (show size ≤ slot.size by omega),
      sub_eq (show Block.headerSize ≤ slot.size - size by omega), setHeader,
      BlockRef.payloadOffset]
    simp only [stop, cut] at hlink
    rw [hlink]
    rfl
  · intro x hx hout
    rw [stop, stop, Slot.total] at hcells
    rw [Slot.total] at hout hcut
    exact (hcells x hx (by omega)).trans (hcut x hx (by omega))

/-- Splitting a block keeps all others. -/
theorem Tiled.split_keeps (h : chunk.Tiled address (before ++ slot :: after)) {size : Nat}
    {memory : Memory BlockHeader} {target : Option Nat}
    (room : size + Block.headerSize + Block.minPayload ≤ slot.size)
    (hole : slot.isFree = false → target = some (stop headerSize before))
    (cells : ∀ x, x < chunk.size →
      x < stop headerSize before ∨
        (stop headerSize before + Block.headerSize ≤ x ∧
          x < stop headerSize before + Block.headerSize + size) ∨
        stop headerSize before + slot.total + Block.headerSize ≤ x →
      memory.cell x = chunk.memory.cell x) :
    Keeps target chunk { chunk with memory := memory } (before ++ slot :: after)
      (before ++ (parts slot size ++ after)) := by
  refine h.keeps_middle [slot] (parts slot size) (stop_parts (by omega)) ?_ ?_
  · simpa [spots] using hole
  · intro x hx hout
    rw [stop, stop] at hout
    exact cells x hx (by omega)

/-- A split cuts the block, keeps what is left of its payload, and keeps all other blocks. -/
theorem Tiled.cut_eq (h : chunk.Tiled address (before ++ slot :: after)) {size : Nat}
    {target : Option Nat} (fits : size ≤ slot.size) (valid : Slot.Valid ⟨size, slot.isFree⟩)
    (hole : slot.isFree = false → target = some (stop headerSize before)) :
    ∃ memory : Memory BlockHeader,
      chunk.split ⟨address, stop headerSize before⟩ size =
          .ok (firstOf address (stop headerSize before + (cut true size slot).1.total)
            (cut true size slot).2, { chunk with memory := memory }) ∧
        Tiled { chunk with memory := memory } address
          (before ++ (cut true size slot).1 :: ((cut true size slot).2 ++ after)) ∧
        Keeps target chunk { chunk with memory := memory } (before ++ slot :: after)
          (before ++ (cut true size slot).1 :: ((cut true size slot).2 ++ after)) ∧
        ∀ x, stop headerSize before + Block.headerSize ≤ x →
          x < stop headerSize before + (cut true size slot).1.total →
            memory.cell x = chunk.memory.cell x := by
  have hend := h.stop_slot_le
  by_cases room : size + Block.headerSize + Block.minPayload ≤ slot.size
  · obtain ⟨memory, hsplit, htiled, hcells⟩ := h.split_eq room valid
    have hkeeps := h.split_keeps room hole hcells
    have hcut : cut true size slot =
        (⟨size, slot.isFree⟩, [⟨slot.size - size - Block.headerSize, true⟩]) := if_pos ⟨rfl, room⟩
    simp only [hcut, Slot.total, firstOf, ← Nat.add_assoc] at *
    refine ⟨memory, hsplit, htiled, hkeeps, ?_⟩
    intro x hle hlt
    exact hcells x (by omega) (Or.inr (Or.inl ⟨hle, hlt⟩))
  · -- too little would be left for a header and a payload, so the block is kept whole
    have hcut : cut true size slot = (slot, []) := if_neg fun h => room h.2
    simp only [hcut, firstOf, List.nil_append]
    exact ⟨chunk.memory, h.split_eq_none fits (by omega), h, Keeps.refl .., fun _ _ _ => rfl⟩

/-! ## Absorbing the block behind -/

/-- The block behind another is merged into it. Only the header of the block and the link of the
block after both are written. -/
theorem Tiled.absorbNext_eq (h : chunk.Tiled address (before ++ slot :: next :: after)) :
    ∃ memory : Memory BlockHeader,
      chunk.absorbNext ⟨address, stop headerSize before⟩ =
          .ok { chunk with memory := memory } ∧
        Tiled { chunk with memory := memory } address
          (before ++ ⟨slot.size + next.total, slot.isFree⟩ :: after) ∧
        ∀ x, x < chunk.size →
          x < stop headerSize before ∨
            (stop headerSize before + Block.headerSize ≤ x ∧
              x < stop headerSize before + slot.total + next.total) ∨
            stop headerSize before + slot.total + next.total + Block.headerSize ≤ x →
          memory.cell x = chunk.memory.cell x := by
  have hlength := h.length
  have hsmall := h.small
  have hnext : chunk.Tiled address ((before ++ [slot]) ++ next :: after) := by simpa using h
  have hend := hnext.stop_slot_le
  have hheader := h.header_next
  have hbehind := hnext.after_eq ⟨address, some (stop headerSize before), next.size, next.isFree⟩ rfl
  have hafter := h.after_eq ⟨address, lastOr none headerSize before, slot.size, slot.isFree⟩ rfl
  have htotal := hnext.total_eq ⟨address, some (stop headerSize before), next.size, next.isFree⟩ rfl
  have hslot := h.valid slot (by simp)
  have hnextValid := h.valid next (by simp)
  simp only [stop_append, stop] at hend hbehind
  have hmerged : Slot.Valid ⟨slot.size + next.total, slot.isFree⟩ := by
    simp only [Slot.Valid, Slot.total, Block.payloadAlign, Block.minPayload, Block.headerSize] at *
    omega
  -- the header of the absorbed block stays in memory as part of a payload
  let merged := chunk.memory.store (stop headerSize before) Block.headerSize
    ⟨address, lastOr none headerSize before, slot.size + next.total, slot.isFree⟩
  have hcut : ∀ x, x < chunk.size → x < stop headerSize before ∨
      stop headerSize before + Block.headerSize ≤ x → merged.cell x = chunk.memory.cell x := by
    intro x hx hout
    rw [Memory.cell_store _ _ _ _ (by omega), if_neg (by omega)]
  have hstored : Stored merged address (lastOr none headerSize before) (stop headerSize before)
      [⟨slot.size + next.total, slot.isFree⟩] := by
    rw [stored_cons, Slot.total] at *
    exact ⟨Memory.record?_store _ _ (by decide) (by omega), stored_nil⟩
  obtain ⟨memory, hlink, htiled, hcells⟩ := h.relink [slot, next]
    [⟨slot.size + next.total, slot.isFree⟩] (by simp [merged])
    (by simp only [stop, Slot.total]; omega) (by simpa using hmerged) hstored rfl
    fun x hx hout => hcut x hx (by simp only [stop, Slot.total] at hout; omega)
  refine ⟨memory, ?_, htiled, ?_⟩
  · simp only [absorbNext, h.header_eq, bind, Except.bind, hafter, firstOf, hheader, hbehind, htotal,
      setHeader, add_eq (show slot.size + next.total < Size.limit by
        rw [Slot.total] at hend; omega)]
    simp only [stop, merged] at hlink
    exact hlink
  · intro x hx hout
    simp only [stop] at hcells
    rw [Slot.total] at hout hcells
    exact (hcells x hx (by omega)).trans (hcut x hx (by omega))

/-- Absorbing a free block keeps all others. -/
theorem Tiled.absorbNext_keeps (h : chunk.Tiled address (before ++ slot :: next :: after))
    {memory : Memory BlockHeader} {target : Option Nat} (free : next.isFree = true)
    (hole : slot.isFree = false → target = some (stop headerSize before))
    (cells : ∀ x, x < chunk.size →
      x < stop headerSize before ∨
        (stop headerSize before + Block.headerSize ≤ x ∧
          x < stop headerSize before + slot.total + next.total) ∨
        stop headerSize before + slot.total + next.total + Block.headerSize ≤ x →
      memory.cell x = chunk.memory.cell x) :
    Keeps target chunk { chunk with memory := memory } (before ++ slot :: next :: after)
      (before ++ ⟨slot.size + next.total, slot.isFree⟩ :: after) := by
  refine h.keeps_middle [slot, next] [⟨slot.size + next.total, slot.isFree⟩] ?_ ?_ ?_
  · simp only [stop, Slot.total]
    omega
  · simpa [spots, free] using hole
  · intro x hx hout
    simp only [stop] at hout
    exact cells x hx (by omega)

/-! ## Merging a free block with its neighbours -/

/-- A free block takes the next one in if that is free as well. -/
theorem Tiled.absorbFreeNext_eq (h : chunk.Tiled address (before ++ slot :: after))
    (free : slot.isFree = true) :
    ∃ memory : Memory BlockHeader,
      chunk.absorbFreeNext ⟨address, stop headerSize before⟩ =
          .ok { chunk with memory := memory } ∧
        Tiled { chunk with memory := memory } address
          (before ++ (mergeAfter slot after).1 :: (mergeAfter slot after).2) ∧
        Keeps none chunk { chunk with memory := memory } (before ++ slot :: after)
          (before ++ (mergeAfter slot after).1 :: (mergeAfter slot after).2) ∧
        ∀ offset, chunk.Freed address (before ++ slot :: after) offset →
          Freed { chunk with memory := memory } address
            (before ++ (mergeAfter slot after).1 :: (mergeAfter slot after).2) offset := by
  rw [absorbFreeNext, h.next_eq]
  cases after with
  | nil => exact ⟨chunk.memory, rfl, h, Keeps.refl .., fun _ hfreed => hfreed⟩
  | cons next rest =>
    simp only [firstOf, isFreeAt, h.header_next, bind, Except.bind, mergeAfter]
    by_cases hfree : next.isFree = true
    · obtain ⟨memory, habsorb, htiled, hcells⟩ := h.absorbNext_eq
      simp only [hfree, if_true]
      exact ⟨memory, habsorb, htiled, h.absorbNext_keeps hfree (by simp [free]) hcells,
        fun _ hfreed => hfreed.absorb free h htiled hcells⟩
    · simp only [hfree]
      exact ⟨chunk.memory, rfl, h, Keeps.refl .., fun _ hfreed => hfreed⟩

/-- Merging a free block with its neighbours keeps all used blocks, and the headers of freed ones. -/
theorem Tiled.coalesce_eq (h : chunk.Tiled address (before ++ slot :: after))
    (free : slot.isFree = true) :
    ∃ memory : Memory BlockHeader,
      chunk.coalesce ⟨address, stop headerSize before⟩ =
          .ok (⟨address, stop headerSize (coalescedBefore before slot after)⟩,
            { chunk with memory := memory }) ∧
        Tiled { chunk with memory := memory } address (coalesced before slot after) ∧
        Keeps none chunk { chunk with memory := memory } (before ++ slot :: after)
          (coalesced before slot after) ∧
        ∀ offset, chunk.Freed address (before ++ slot :: after) offset →
          Freed { chunk with memory := memory } address (coalesced before slot after) offset := by
  obtain ⟨first, hfirst, htiled, hkeeps, hfreed⟩ := h.absorbFreeNext_eq free
  have hmergedFree : (mergeAfter slot after).1.isFree = true := mergeAfter_isFree.trans free
  unfold coalesced coalescedBefore coalescedSlot
  generalize mergeAfter slot after = merged at *
  obtain ⟨slot', after'⟩ := merged
  simp only at htiled hkeeps hfreed hmergedFree ⊢
  simp only [coalesce, hfirst, bind, Except.bind, htiled.header_eq]
  -- the block behind is taken in by now; the one in front, if free, takes in what came of that
  rcases List.eq_nil_or_concat before with rfl | ⟨init, last, rfl⟩
  · exact ⟨first, rfl, htiled, hkeeps, hfreed⟩
  · rw [List.concat_eq_append] at *
    have hlast : Tiled { chunk with memory := first } address (init ++ last :: slot' :: after') := by
      simpa using htiled
    have hback : lastOr none headerSize (init ++ [last]) = some (stop headerSize init) := by
      simp [lastOr_append, lastOr]
    simp only [hback, hlast.header_eq, mergeBefore_concat]
    by_cases hfree : last.isFree = true
    · obtain ⟨memory, habsorb, htiled', hcells⟩ := hlast.absorbNext_eq
      have hkeeps' : Keeps none _ _ _ _ :=
        hlast.absorbNext_keeps hmergedFree (by simp [hfree]) hcells
      have hfreed' : ∀ offset, Freed _ address (init ++ last :: slot' :: after') offset → _ :=
        fun _ hgone => hgone.absorb hfree hlast htiled' hcells
      simp only [hfree, if_true, habsorb] at htiled' hkeeps' hfreed' ⊢
      refine ⟨memory, rfl, htiled', hkeeps.trans ?_, fun offset hgone => hfreed' offset ?_⟩
      · simpa using hkeeps'
      · simpa using hfreed offset hgone
    · simp only [hfree]
      exact ⟨first, rfl, htiled, hkeeps, hfreed⟩

/-! ## Writing into a payload -/

section Write

variable {place : Nat} {content : Stretch BlockHeader}

/-- Writing into the payload of a block leaves every header alone. -/
theorem Tiled.write (h : chunk.Tiled address (before ++ slot :: after))
    (behind : stop headerSize before + Block.headerSize ≤ place)
    (fits : place + content.length ≤ stop headerSize before + slot.total) :
    Tiled { chunk with memory := chunk.memory.write place content } address
      (before ++ slot :: after) := by
  have hlength := h.length
  refine h.rebuild [slot] [slot] (Memory.length_write ..) rfl
    (by simpa using h.valid slot (by simp)) ?_ ?_
  · intro x hx hlt
    exact Memory.cell_write_of_disjoint (by omega) (Or.inl (by omega))
  · apply ((stored_append.1 h.stored).2).congr
    intro spot hspot
    have hspots : spot.1 = stop headerSize before ∨
        stop headerSize before + slot.total ≤ spot.1 := by
      rcases List.mem_cons.1 hspot with rfl | hrest
      · exact Or.inl rfl
      · exact Or.inr (le_of_mem_spots hrest)
    exact Memory.record?_congr (by decide) (Memory.length_write ..)
      fun x hle hlt hx => Memory.cell_write_of_disjoint hx (by omega)

/-- Writing into a payload keeps what is in all the others. -/
theorem Tiled.write_keeps (h : chunk.Tiled address (before ++ slot :: after))
    (behind : stop headerSize before + Block.headerSize ≤ place)
    (fits : place + content.length ≤ stop headerSize before + slot.total) :
    Keeps (some (stop headerSize before)) chunk
      { chunk with memory := chunk.memory.write place content } (before ++ slot :: after)
      (before ++ slot :: after) := by
  have hlength := h.length
  apply h.keeps_middle [slot] [slot] rfl (by simp [spots])
  intro x hx hout
  simp only [stop] at hout
  exact Memory.cell_write_of_disjoint (by omega) (by omega)

end Write

/-! ## Resetting -/

theorem Tiled.withLargest (h : chunk.Tiled address slots) (size : Nat) :
    Tiled { chunk with largestFree := size } address slots :=
  ⟨h.length, h.small, h.stored, h.ends, h.valid⟩

theorem Keeps.withLargest {target : Option Nat} (h : Keeps target chunk chunk' slots slots')
    (size : Nat) : Keeps target chunk { chunk' with largestFree := size } slots slots' :=
  ⟨h.size, h.category, h.stays, h.cells⟩

/-- The one block of a fresh chunk of a length. -/
def freshSlot (length : Nat) : Slot := ⟨length - headerSize - Block.headerSize, true⟩

theorem freshCapacity_eq {length : Nat} (room : headerSize + Block.headerSize ≤ length) :
    freshCapacity length = .ok (freshSlot length).size := by
  simp only [freshCapacity, sub_eq (show headerSize ≤ length by omega), bind, Except.bind]
  exact sub_eq (by omega)

/-- A fresh chunk is one free block, or too small for its headers. -/
theorem freshCapacity_cases (length : Nat) :
    freshCapacity length = .ok (freshSlot length).size ∨
      ∃ fault, freshCapacity length = .error fault := by
  rw [freshCapacity]
  by_cases harea : headerSize ≤ length
  · rw [sub_eq harea]
    by_cases hblock : Block.headerSize ≤ length - headerSize
    · exact Or.inl (sub_eq hblock)
    · exact Or.inr ⟨_, if_neg hblock⟩
  · exact Or.inr ⟨_, by rw [Size.sub, if_neg harea]; rfl⟩

/-- Turning a chunk into one free block, whatever its memory holds. -/
theorem freeAll_eq (length : chunk.memory.length = chunk.size) (small : chunk.size < Size.limit)
    (room : headerSize + Block.headerSize + Block.minPayload ≤ chunk.size)
    (aligned : Block.payloadAlign ∣ chunk.size) (address : Nat) :
    ∃ memory : Memory BlockHeader,
      chunk.freeAll address =
          .ok { chunk with memory := memory, largestFree := (freshSlot chunk.size).size } ∧
        Tiled { chunk with memory := memory, largestFree := (freshSlot chunk.size).size } address
          [freshSlot chunk.size] := by
  have hcapacity := freshCapacity_eq (show headerSize + Block.headerSize ≤ chunk.size by omega)
  refine ⟨chunk.memory.store headerSize Block.headerSize
    ⟨address, none, (freshSlot chunk.size).size, true⟩, ?_, ?_⟩
  · simp only [freeAll, hcapacity, bind, Except.bind, firstBlock, setHeader]
    rfl
  · refine ⟨(Memory.length_store ..).trans length, small, ?_, ?_, ?_⟩
    · exact stored_cons.2 ⟨Memory.record?_store _ _ (by decide) (by omega), stored_nil⟩
    · simp only [stop, freshSlot, Slot.total]
      omega
    · simp only [List.mem_singleton, forall_eq, freshSlot, Slot.Valid, headerSize,
        Block.payloadAlign, Block.minPayload, Block.headerSize] at *
      omega

end PagedAlloc.Chunk
