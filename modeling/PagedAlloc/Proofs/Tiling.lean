import PagedAlloc.Proofs.Layout
import PagedAlloc.Proofs.Records

/-!
# Tiled chunks

`Chunk.Tiled` says that the memory of a chunk holds the headers of a layout that fills the chunk to
its end. Reading such a chunk follows the layout (`Tiled.header_eq`, `Tiled.after_eq`,
`Tiled.blocks_eq`), and a chunk whose headers are the same is tiled in the same way
(`Stored.congr`).
-/

namespace PagedAlloc

namespace Layout

/-- The memory holds the headers of a layout. -/
def Stored (memory : Memory BlockHeader) (address : Nat) (prev : Option Nat) (start : Nat)
    (slots : List Slot) : Prop :=
  ∀ block ∈ visited address prev start slots,
    memory.record? block.1.offset Block.headerSize = some block.2

variable {memory memory' : Memory BlockHeader} {address start : Nat} {prev : Option Nat}
  {slot : Slot} {slots rest a b : List Slot}

@[simp]
theorem stored_nil : Stored memory address prev start [] := by simp [Stored, visited]

/-- A layout is stored if its first header is, with the link to the block before it, and the rest
behind it. -/
@[simp]
theorem stored_cons :
    Stored memory address prev start (slot :: rest) ↔
      memory.record? start Block.headerSize = some ⟨address, prev, slot.size, slot.isFree⟩ ∧
        Stored memory address (some start) (start + slot.total) rest := by
  simp [Stored, visited]

/-- A layout is stored if both of its parts are, and the second one begins where the first one
ends. -/
theorem stored_append :
    Stored memory address prev start (a ++ b) ↔
      Stored memory address prev start a ∧
        Stored memory address (lastOr prev start a) (stop start a) b := by
  simp only [Stored, visited_append, List.forall_mem_append]

/-- Headers that are the same tile in the same way. -/
theorem Stored.congr (h : Stored memory address prev start slots)
    (same : ∀ spot ∈ spots start slots,
      memory'.record? spot.1 Block.headerSize = memory.record? spot.1 Block.headerSize) :
    Stored memory' address prev start slots := fun block hblock => by
  rw [same _ (spot_of_mem_visited hblock).2.2]
  exact h block hblock

/-- A record stored in front of a layout does not touch it. -/
theorem Stored.store_before (h : Stored memory address prev start slots) {place : Nat}
    (before : place + Block.headerSize ≤ start) (header : BlockHeader) :
    Stored (memory.store place Block.headerSize header) address prev start slots :=
  h.congr fun _ hspot => Memory.record?_store_of_disjoint (by decide)
    (Or.inr (Nat.le_trans before (le_of_mem_spots hspot)))

end Layout

open Layout

namespace Chunk

/-- The memory of the chunk at an address is tiled by a layout up to its end. -/
structure Tiled (chunk : Chunk) (address : Nat) (slots : List Slot) : Prop where
  length : chunk.memory.length = chunk.size
  small : chunk.size < Size.limit
  stored : Stored chunk.memory address none headerSize slots
  ends : stop headerSize slots = chunk.size
  valid : ∀ slot ∈ slots, slot.Valid

/-- The block that a layout begins with, if there is one. -/
def firstOf (address start : Nat) : List Slot → Option BlockRef
  | [] => none
  | _ :: _ => some ⟨address, start⟩

namespace Tiled

variable {chunk : Chunk} {address : Nat} {slot next : Slot} {slots before after : List Slot}

theorem stop_slot_le (h : chunk.Tiled address (before ++ slot :: after)) :
    stop headerSize before + slot.total ≤ chunk.size := by
  rw [← h.ends, stop_append]
  exact le_stop ..

/-- The header of a slot is read where the slots in front of it end. -/
theorem record?_eq (h : chunk.Tiled address (before ++ slot :: after)) :
    chunk.memory.record? (stop headerSize before) Block.headerSize =
      some ⟨address, lastOr none headerSize before, slot.size, slot.isFree⟩ := by
  have hstored := (stored_append.1 h.stored).2
  rw [stored_cons] at hstored
  exact hstored.1

/-- The header of a block. -/
theorem header_eq (h : chunk.Tiled address (before ++ slot :: after)) :
    chunk.header ⟨address, stop headerSize before⟩ =
      .ok ⟨address, lastOr none headerSize before, slot.size, slot.isFree⟩ := by
  rw [header, h.record?_eq]

/-- The header of the block behind another. -/
theorem header_next (h : chunk.Tiled address (before ++ slot :: next :: after)) :
    chunk.header ⟨address, stop headerSize before + slot.total⟩ =
      .ok ⟨address, some (stop headerSize before), next.size, next.isFree⟩ := by
  have hnext : chunk.Tiled address ((before ++ [slot]) ++ next :: after) := by simpa using h
  have hheader := hnext.header_eq
  rwa [stop_append, lastOr_append] at hheader

/-- The bytes of a block are those of its slot. -/
theorem total_eq (h : chunk.Tiled address (before ++ slot :: after)) (header : BlockHeader)
    (size : header.size = slot.size) : header.total = .ok slot.total := by
  have hfits := h.stop_slot_le
  have hsmall := h.small
  rw [Slot.total] at hfits
  rw [BlockHeader.total, Size.add, size, if_pos (by omega)]
  rfl

/-- What a block would hold if it took in the one behind it. -/
theorem joined_eq (h : chunk.Tiled address (before ++ slot :: next :: after))
    (header : BlockHeader) (size : header.size = next.size) :
    (do Size.add slot.size (← header.total)) = .ok (slot.size + next.total) := by
  have hnext : chunk.Tiled address ((before ++ [slot]) ++ next :: after) := by simpa using h
  have hfits := hnext.stop_slot_le
  have hsmall := h.small
  rw [stop_append, stop, stop, Slot.total] at hfits
  rw [hnext.total_eq header size]
  exact if_pos (by omega)

/-- The block behind another is the next one of the layout. -/
theorem after_eq (h : chunk.Tiled address (before ++ slot :: after)) (header : BlockHeader)
    (size : header.size = slot.size) :
    chunk.after ⟨address, stop headerSize before⟩ header =
      .ok (firstOf address (stop headerSize before + slot.total) after) := by
  have hfits := h.stop_slot_le
  have hsmall := h.small
  have hends := h.ends
  rw [stop_append] at hends
  rw [Slot.total] at hfits
  rw [Chunk.after, h.total_eq header size]
  simp only [bind, Except.bind]
  rw [if_neg (by rw [Slot.total]; omega)]
  cases after with
  | nil =>
    simp only [stop] at hends
    rw [if_neg (by omega)]
    rfl
  | cons next rest =>
    -- a block has bytes, so one that follows begins in front of the end of the chunk
    have hlt : stop headerSize before + slot.total < chunk.size := by
      simp only [stop] at hends
      have hle := le_stop (stop headerSize before + slot.total + next.total) rest
      have := total_pos next
      omega
    rw [if_pos hlt]
    rfl

/-- The block behind a slot is the first one of the slots that follow. -/
theorem next_eq (h : chunk.Tiled address (before ++ slot :: after)) :
    chunk.next ⟨address, stop headerSize before⟩ =
      .ok (firstOf address (stop headerSize before + slot.total) after) := by
  rw [next, h.header_eq]
  exact h.after_eq _ rfl

/-- The walk from a block on follows the layout. -/
theorem walk_eq (h : chunk.Tiled address (before ++ slot :: after)) {bound : Nat}
    (enough : after.length < bound) :
    chunk.walk bound ⟨address, stop headerSize before⟩ =
      .ok (visited address (lastOr none headerSize before) (stop headerSize before)
        (slot :: after)) := by
  induction after generalizing before slot bound with
  | nil =>
    obtain ⟨bound, rfl⟩ := Nat.exists_eq_succ_of_ne_zero (Nat.ne_of_gt enough)
    rw [walk, h.header_eq]
    simp only [bind, Except.bind]
    rw [h.after_eq _ rfl]
    rfl
  | cons next rest ih =>
    obtain ⟨bound, rfl⟩ := Nat.exists_eq_succ_of_ne_zero (Nat.ne_of_gt (Nat.zero_lt_of_lt enough))
    have hnext : chunk.Tiled address ((before ++ [slot]) ++ next :: rest) := by simpa using h
    have hrest := ih hnext (Nat.lt_of_succ_lt_succ enough)
    rw [stop_append, lastOr_append] at hrest
    simp only [stop, lastOr] at hrest
    rw [walk, h.header_eq]
    simp only [bind, Except.bind]
    rw [h.after_eq _ rfl]
    simp only [firstOf]
    rw [hrest]
    rfl

/-- There are no more blocks than the bound of a walk allows. -/
theorem length_lt_bound (h : chunk.Tiled address slots) :
    slots.length < chunk.size / Block.headerSize + 1 := by
  have hlength := length_le_stop headerSize slots
  rw [h.ends, Block.headerSize] at hlength
  rw [Block.headerSize]
  omega

/-- The blocks from one on are those of the layout. -/
theorem blocksFrom_eq (h : chunk.Tiled address (before ++ slot :: after)) :
    chunk.blocksFrom ⟨address, stop headerSize before⟩ =
      .ok (visited address (lastOr none headerSize before) (stop headerSize before)
        (slot :: after)) := by
  apply h.walk_eq
  have hbound := h.length_lt_bound
  rw [List.length_append, List.length_cons] at hbound
  omega

/-- The blocks of a chunk are those of its layout. -/
theorem blocks_eq (h : chunk.Tiled address slots) (nonempty : slots ≠ []) :
    chunk.blocks address = .ok (visited address none headerSize slots) := by
  cases slots with
  | nil => contradiction
  | cons slot after =>
    have hfirst : chunk.Tiled address ([] ++ slot :: after) := h
    exact hfirst.blocksFrom_eq

/-- Measuring from a block on accounts for it and the blocks behind it. -/
theorem measureFrom_eq (h : chunk.Tiled address (before ++ slot :: after)) (least : Nat) :
    chunk.measureFrom ⟨address, stop headerSize before⟩ least =
      .ok { chunk with largestFree := max least (largest (slot :: after)) } := by
  rw [measureFrom, h.blocksFrom_eq, ← largestOf_visited]
  rfl

/-- Measuring the whole chunk gives the largest free block. -/
theorem measure_eq (h : chunk.Tiled address slots) (nonempty : slots ≠ []) :
    chunk.measure address = .ok { chunk with largestFree := largest slots } := by
  cases slots with
  | nil => contradiction
  | cons slot after =>
    have hfirst : chunk.Tiled address ([] ++ slot :: after) := h
    rw [measure, firstBlock]
    apply (hfirst.measureFrom_eq 0).trans
    rw [Nat.zero_max]

end Tiled

end Chunk

end PagedAlloc
