import PagedAlloc.Segregated.Chunk
import Mathlib.Data.List.Chain

/-!
# Layouts

What a walk over a chunk sees of each block is a slot: the size of its payload and whether it is
free. A list of slots determines where every block begins, which block is in front of it and what
its header holds (`Layout.visited`), how much of the layout is in use, and the largest free slot.

Main statements: `spots_append`, `visited_append` and `stop_append` cut a layout in two, and
`spots_apart` says that of two blocks one lies behind the other.
-/

namespace PagedAlloc

/-- What a walk sees of a block. -/
structure Slot where
  /-- Bytes of the payload. -/
  size : Nat
  /-- Whether nobody uses the payload. -/
  isFree : Bool
  deriving DecidableEq, Repr

namespace Slot

/-- Bytes of the block, header and payload. -/
def total (slot : Slot) : Nat := Block.headerSize + slot.size

/-- Payload sizes are multiples of the alignment and never too small. -/
def Valid (slot : Slot) : Prop := Block.payloadAlign ∣ slot.size ∧ Block.minPayload ≤ slot.size

instance (slot : Slot) : Decidable slot.Valid :=
  inferInstanceAs (Decidable (_ ∣ _ ∧ _ ≤ _))

/-- Two free blocks never lie next to each other. -/
def Apart (a b : Slot) : Prop := ¬ (a.isFree = true ∧ b.isFree = true)

end Slot

namespace Layout

/-- Offset behind slots that begin at an offset. -/
def stop (start : Nat) : List Slot → Nat
  | [] => start
  | slot :: rest => stop (start + slot.total) rest

/-- Offset of the last slot, or `prev` if there is none. -/
def lastOr (prev : Option Nat) (start : Nat) : List Slot → Option Nat
  | [] => prev
  | slot :: rest => lastOr (some start) (start + slot.total) rest

/-- The slots with the offsets of their headers. -/
def spots (start : Nat) : List Slot → List (Nat × Slot)
  | [] => []
  | slot :: rest => (start, slot) :: spots (start + slot.total) rest

/-- The blocks that a walk over the slots visits, with what their headers hold. -/
def visited (address : Nat) (prev : Option Nat) (start : Nat) :
    List Slot → List (BlockRef × BlockHeader)
  | [] => []
  | slot :: rest =>
    (⟨address, start⟩, ⟨address, prev, slot.size, slot.isFree⟩) ::
      visited address (some start) (start + slot.total) rest

/-- Payload size of the largest free slot; zero if no slot is free. -/
def largest : List Slot → Nat
  | [] => 0
  | slot :: rest => if slot.isFree then max slot.size (largest rest) else largest rest

/-- Payload bytes of the slots in use. -/
def used : List Slot → Nat
  | [] => 0
  | slot :: rest => (if slot.isFree then 0 else slot.size) + used rest

variable {address start : Nat} {prev : Option Nat} {slot : Slot} {slots a b : List Slot}

/-! ## Cutting a layout in two -/

/-- The end of two layouts is that of the second one behind the first one. -/
theorem stop_append (start : Nat) (a b : List Slot) :
    stop start (a ++ b) = stop (stop start a) b := by
  induction a generalizing start with
  | nil => rfl
  | cons slot rest ih => simp [stop, ih]

theorem lastOr_append (prev : Option Nat) (start : Nat) (a b : List Slot) :
    lastOr prev start (a ++ b) = lastOr (lastOr prev start a) (stop start a) b := by
  induction a generalizing prev start with
  | nil => rfl
  | cons slot rest ih => simp [stop, lastOr, ih]

/-- The places of two layouts are those of the first one and, behind its end, of the second one. -/
theorem spots_append (start : Nat) (a b : List Slot) :
    spots start (a ++ b) = spots start a ++ spots (stop start a) b := by
  induction a generalizing start with
  | nil => rfl
  | cons slot rest ih => simp [stop, spots, ih]

/-- A walk over two layouts goes on from the last block of the first one. -/
theorem visited_append (address : Nat) (prev : Option Nat) (start : Nat) (a b : List Slot) :
    visited address prev start (a ++ b) =
      visited address prev start a ++ visited address (lastOr prev start a) (stop start a) b := by
  induction a generalizing prev start with
  | nil => rfl
  | cons slot rest ih => simp [stop, lastOr, visited, ih]

/-- The largest free slot is that of one part or of the other. -/
theorem largest_append (a b : List Slot) : largest (a ++ b) = max (largest a) (largest b) := by
  induction a with
  | nil => simp [largest]
  | cons slot rest ih =>
    simp only [List.cons_append, largest, ih]
    split
    · rw [Nat.max_assoc]
    · rfl

theorem used_append (a b : List Slot) : used (a ++ b) = used a + used b := by
  induction a with
  | nil => simp [used]
  | cons slot rest ih => simp [used, ih, Nat.add_assoc]

/-! ## Where the blocks lie -/

/-- A layout ends no earlier than it begins. -/
theorem le_stop (start : Nat) (slots : List Slot) : start ≤ stop start slots := by
  induction slots generalizing start with
  | nil => exact Nat.le_refl _
  | cons slot rest ih => exact Nat.le_trans (Nat.le_add_right ..) (ih _)

/-- A spot splits the layout into what is in front of it and what is behind. -/
theorem mem_spots_iff {offset : Nat} :
    (offset, slot) ∈ spots start slots ↔
      ∃ before after, slots = before ++ slot :: after ∧ offset = stop start before := by
  constructor
  · intro h
    induction slots generalizing start with
    | nil => simp [spots] at h
    | cons head rest ih =>
      rw [spots, List.mem_cons, Prod.mk.injEq] at h
      rcases h with ⟨rfl, rfl⟩ | h
      · exact ⟨[], rest, rfl, rfl⟩
      · obtain ⟨before, after, rfl, rfl⟩ := ih h
        exact ⟨head :: before, after, rfl, rfl⟩
  · rintro ⟨before, after, rfl, rfl⟩
    simp [spots_append, spots]

theorem le_of_mem_spots {spot : Nat × Slot} (h : spot ∈ spots start slots) : start ≤ spot.1 := by
  obtain ⟨before, after, rfl, heq⟩ := mem_spots_iff.1 h
  exact heq ▸ le_stop ..

/-- Every block ends within its layout. -/
theorem spot_le_stop {spot : Nat × Slot} (h : spot ∈ spots start slots) :
    spot.1 + spot.2.total ≤ stop start slots := by
  obtain ⟨before, after, rfl, heq⟩ := mem_spots_iff.1 h
  rw [heq, stop_append]
  exact le_stop ..

/-- Blocks with valid sizes begin on boundaries. -/
theorem dvd_of_mem_spots {spot : Nat × Slot} (aligned : Block.payloadAlign ∣ start)
    (valid : ∀ slot ∈ slots, slot.Valid) (h : spot ∈ spots start slots) :
    Block.payloadAlign ∣ spot.1 := by
  induction slots generalizing start with
  | nil => simp [spots] at h
  | cons slot rest ih =>
    rcases List.mem_cons.1 h with rfl | hrest
    · exact aligned
    · have hheader : Block.payloadAlign ∣ Block.headerSize := by decide
      have hslot := (valid slot (List.mem_cons_self ..)).1
      exact ih (Nat.dvd_add aligned (Nat.dvd_add hheader hslot))
        (fun other hother => valid other (List.mem_cons_of_mem _ hother)) hrest

theorem total_pos (slot : Slot) : 0 < slot.total := Nat.add_pos_left (by decide) _

/-- Of two different blocks one lies behind the other. -/
theorem spots_apart {p q : Nat × Slot} (hp : p ∈ spots start slots) (hq : q ∈ spots start slots) :
    p = q ∨ p.1 + p.2.total ≤ q.1 ∨ q.1 + q.2.total ≤ p.1 := by
  induction slots generalizing start with
  | nil => simp [spots] at hp
  | cons slot rest ih =>
    rw [spots, List.mem_cons] at hp hq
    rcases hp with rfl | hp <;> rcases hq with rfl | hq
    · exact Or.inl rfl
    · exact Or.inr (Or.inl (le_of_mem_spots hq))
    · exact Or.inr (Or.inr (le_of_mem_spots hp))
    · exact ih hp hq

/-- There is one block at an offset. -/
theorem spots_unique {p q : Nat × Slot} (hp : p ∈ spots start slots) (hq : q ∈ spots start slots)
    (h : p.1 = q.1) : p = q := by
  have hpos := total_pos p.2
  have hpos' := total_pos q.2
  rcases spots_apart hp hq with heq | hle | hle
  · exact heq
  · omega
  · omega

/-- Each slot takes at least the bytes of a header. -/
theorem length_le_stop (start : Nat) (slots : List Slot) :
    start + Block.headerSize * slots.length ≤ stop start slots := by
  induction slots generalizing start with
  | nil => exact Nat.le_refl _
  | cons slot rest ih =>
    have hrest := ih (start + slot.total)
    rw [Slot.total] at hrest
    simp only [List.length_cons, Nat.mul_add, stop, Slot.total]
    omega

/-- The payloads in use are not longer than the layout. -/
theorem used_le (start : Nat) (slots : List Slot) : start + used slots ≤ stop start slots := by
  induction slots generalizing start with
  | nil => exact Nat.le_refl _
  | cons slot rest ih =>
    have hrest := ih (start + slot.total)
    simp only [used, stop, Slot.total] at hrest ⊢
    split <;> omega

/-! ## Visited blocks -/

/-- The headers that a walk finds give the layout back. -/
theorem map_visited (address : Nat) (prev : Option Nat) (start : Nat) (slots : List Slot) :
    ((visited address prev start slots).map fun (_, header) =>
      (⟨header.size, header.isFree⟩ : Slot)) = slots := by
  induction slots generalizing prev start with
  | nil => rfl
  | cons slot rest ih => simp [visited, ih]

/-- Each block that a walk finds is that of a slot at its place. -/
theorem spot_of_mem_visited {block : BlockRef × BlockHeader}
    (h : block ∈ visited address prev start slots) :
    block.1.chunk = address ∧ block.2.chunk = address ∧
      (block.1.offset, ⟨block.2.size, block.2.isFree⟩) ∈ spots start slots := by
  induction slots generalizing prev start with
  | nil => simp [visited] at h
  | cons slot rest ih =>
    rw [visited, List.mem_cons] at h
    rcases h with rfl | h
    · exact ⟨rfl, rfl, List.mem_cons_self ..⟩
    · obtain ⟨hchunk, hown, hspot⟩ := ih h
      exact ⟨hchunk, hown, List.mem_cons_of_mem _ hspot⟩

/-- Measuring the visited blocks gives the largest free slot. -/
theorem largestOf_visited (address : Nat) (prev : Option Nat) (start before : Nat)
    (slots : List Slot) :
    Chunk.largestOf before (visited address prev start slots) = max before (largest slots) := by
  unfold Chunk.largestOf
  induction slots generalizing prev start before with
  | nil => simp [visited, largest]
  | cons slot rest ih =>
    simp only [visited, List.foldl_cons, ih, largest]
    split
    · rw [Nat.max_assoc]
    · rfl

/-! ## Splitting and merging -/

/-- The two slots that a split leaves. -/
def parts (slot : Slot) (size : Nat) : List Slot :=
  [⟨size, slot.isFree⟩, ⟨slot.size - size - Block.headerSize, true⟩]

/-- A slot that is split ends where it ended. -/
theorem stop_parts {start size : Nat} (fits : size + Block.headerSize ≤ slot.size) :
    stop start (parts slot size) = start + slot.total := by
  simp only [parts, stop, Slot.total]
  omega

/-- A slot after it took in the slot behind it, if that one is free, and the slots that are left
behind it. -/
def mergeAfter (slot : Slot) : List Slot → Slot × List Slot
  | [] => (slot, [])
  | next :: after =>
    if next.isFree then (⟨slot.size + next.total, slot.isFree⟩, after) else (slot, next :: after)

/-- The slots in front of a slot, after the last of them, if it is free, took the slot in. -/
def mergeBefore (before : List Slot) (slot : Slot) : List Slot × Slot :=
  match before.getLast? with
  | none => (before, slot)
  | some last =>
    if last.isFree then (before.dropLast, ⟨last.size + slot.total, true⟩) else (before, slot)

@[simp]
theorem mergeBefore_nil (slot : Slot) : mergeBefore [] slot = ([], slot) := rfl

/-- The slot in front is taken in if it is free, and is left if not. -/
@[simp]
theorem mergeBefore_concat (before : List Slot) (last slot : Slot) :
    mergeBefore (before ++ [last]) slot =
      if last.isFree then (before, ⟨last.size + slot.total, true⟩) else (before ++ [last], slot) := by
  simp [mergeBefore]

/-- What is in front of a free block after it is merged with its neighbours. -/
def coalescedBefore (before : List Slot) (slot : Slot) (after : List Slot) : List Slot :=
  (mergeBefore before (mergeAfter slot after).1).1

/-- The block that a free block becomes when it is merged with its neighbours. -/
def coalescedSlot (before : List Slot) (slot : Slot) (after : List Slot) : Slot :=
  (mergeBefore before (mergeAfter slot after).1).2

/-- The layout after a free block is merged with its neighbours. -/
def coalesced (before : List Slot) (slot : Slot) (after : List Slot) : List Slot :=
  coalescedBefore before slot after ++ coalescedSlot before slot after :: (mergeAfter slot after).2

theorem mergeAfter_isFree : (mergeAfter slot after).1.isFree = slot.isFree := by
  cases after with
  | nil => rfl
  | cons next rest =>
    rw [mergeAfter]
    split <;> rfl

section Coalesced

variable {before after : List Slot}

theorem mergeBefore_isFree (free : slot.isFree = true) (before : List Slot) :
    (mergeBefore before slot).2.isFree = true := by
  rcases List.eq_nil_or_concat before with rfl | ⟨init, last, rfl⟩
  · exact free
  · rw [List.concat_eq_append, mergeBefore_concat]
    split <;> simp [free]

theorem coalescedSlot_isFree (free : slot.isFree = true) (before after : List Slot) :
    (coalescedSlot before slot after).isFree = true :=
  mergeBefore_isFree (mergeAfter_isFree.trans free) before

/-- Merging with the slot behind leaves what is in use behind it. -/
theorem used_mergeAfter (slot : Slot) (after : List Slot) :
    used (mergeAfter slot after).2 = used after := by
  cases after with
  | nil => rfl
  | cons next rest =>
    rw [mergeAfter]
    split
    · simp [used, *]
    · rfl

/-- Merging with the slot in front leaves what is in use in front of it. -/
theorem used_mergeBefore (before : List Slot) (slot : Slot) :
    used (mergeBefore before slot).1 = used before := by
  rcases List.eq_nil_or_concat before with rfl | ⟨init, last, rfl⟩
  · rfl
  · rw [List.concat_eq_append, mergeBefore_concat]
    split
    · simp [used_append, used, *]
    · rfl

/-- Merging a free slot with free neighbours takes nothing from the slots in use. -/
theorem used_coalesced (free : slot.isFree = true) (before after : List Slot) :
    used (coalesced before slot after) = used (before ++ after) := by
  rw [coalesced, used_append, used, coalescedSlot_isFree free, coalescedBefore, used_mergeBefore,
    used_mergeAfter, used_append]
  simp

/-- What a slot takes in behind it is no larger than what it becomes. -/
theorem largest_mergeAfter (slot : Slot) (after : List Slot) :
    max (largest (mergeAfter slot after).2) (mergeAfter slot after).1.size =
      max (largest after) (mergeAfter slot after).1.size := by
  cases after with
  | nil => rfl
  | cons next rest =>
    rw [mergeAfter]
    split
    · simp only [largest, if_true, Slot.total, *]
      omega
    · rfl

/-- The slot that comes of a merge is no smaller than the ones that went into it. -/
theorem largest_mergeBefore (before : List Slot) (slot : Slot) :
    max (largest (mergeBefore before slot).1) (mergeBefore before slot).2.size =
        max (largest before) (mergeBefore before slot).2.size ∧
      slot.size ≤ (mergeBefore before slot).2.size := by
  rcases List.eq_nil_or_concat before with rfl | ⟨init, last, rfl⟩
  · exact ⟨rfl, Nat.le_refl _⟩
  · rw [List.concat_eq_append, mergeBefore_concat]
    split
    · simp only [largest_append, largest, if_true, Slot.total, *]
      omega
    · exact ⟨rfl, Nat.le_refl _⟩

/-- The merged slot is at least as large as what it took in, so it decides together with the slots
that were there before. -/
theorem largest_coalesced (free : slot.isFree = true) (before after : List Slot) :
    largest (coalesced before slot after) =
      max (largest (before ++ after)) (coalescedSlot before slot after).size := by
  have hafter := largest_mergeAfter slot after
  have hbefore := largest_mergeBefore before (mergeAfter slot after).1
  rw [coalesced, largest_append, largest, if_pos (coalescedSlot_isFree free before after),
    largest_append, coalescedBefore, coalescedSlot]
  omega

/-- Once merged with the slot behind, a slot has no free neighbour there. -/
theorem apart_mergeAfter (slot : Slot) (hafter : after.IsChain Slot.Apart) :
    ((mergeAfter slot after).1 :: (mergeAfter slot after).2).IsChain Slot.Apart := by
  cases after with
  | nil => exact List.isChain_singleton _
  | cons next rest =>
    rw [mergeAfter]
    split
    · -- the slot behind the absorbed one cannot be free
      refine List.isChain_cons.2 ⟨?_, (List.isChain_cons.1 hafter).2⟩
      intro third hthird hboth
      exact (List.isChain_cons.1 hafter).1 third hthird ⟨by assumption, hboth.2⟩
    · refine List.isChain_cons.2 ⟨?_, hafter⟩
      intro third hthird hboth
      simp only [List.head?_cons, Option.mem_some_iff] at hthird
      exact absurd (hthird ▸ hboth.2) (by assumption)

/-- Once merged with the slot in front, a slot has no free neighbour there. -/
theorem apart_mergeBefore (slot : Slot) (hbefore : before.IsChain Slot.Apart) :
    ((mergeBefore before slot).1 ++ [(mergeBefore before slot).2]).IsChain Slot.Apart := by
  rcases List.eq_nil_or_concat before with rfl | ⟨init, last, rfl⟩
  · exact List.isChain_singleton _
  · rw [List.concat_eq_append] at *
    rw [mergeBefore_concat]
    have hinit := List.isChain_append.1 hbefore
    split
    · refine List.isChain_append.2 ⟨hinit.1, List.isChain_singleton _, ?_⟩
      intro first hfirst _ _ hboth
      exact hinit.2.2 first hfirst last (by simp) ⟨hboth.1, by assumption⟩
    · refine List.isChain_append.2 ⟨hbefore, List.isChain_singleton _, ?_⟩
      intro first hfirst _ _ hboth
      simp only [List.getLast?_append, List.getLast?_singleton, Option.some_or,
        Option.mem_some_iff] at hfirst
      exact absurd (hfirst ▸ hboth.1) (by assumption)

/-- After merging, no two free slots lie next to each other. -/
theorem apart_coalesced (free : slot.isFree = true) (hbefore : before.IsChain Slot.Apart)
    (hafter : after.IsChain Slot.Apart) : (coalesced before slot after).IsChain Slot.Apart := by
  have hfront := apart_mergeBefore (mergeAfter slot after).1 hbefore
  have hback := apart_mergeAfter slot hafter
  rw [coalesced, List.append_cons]
  refine List.isChain_append.2 ⟨hfront, (List.isChain_cons.1 hback).2, ?_⟩
  intro first _ third hthird
  rintro ⟨-, hthirdFree⟩
  exact (List.isChain_cons.1 hback).1 third hthird ⟨mergeAfter_isFree.trans free, hthirdFree⟩

-- both neighbours are taken in, and with them two headers
example :
    coalesced [⟨64, false⟩, ⟨16, true⟩] ⟨16, true⟩ [⟨32, true⟩] = [⟨64, false⟩, ⟨128, true⟩] :=
  rfl

end Coalesced

/-! ## Cutting a block -/

/-- What is left of a slot that is cut after `size` bytes, and the slots that come up behind it. A
slot stays whole where blocks are not cut, and without room for another block. -/
def cut (shared : Bool) (size : Nat) (slot : Slot) : Slot × List Slot :=
  if shared = true ∧ size + Block.headerSize + Block.minPayload ≤ slot.size then
    (⟨size, slot.isFree⟩, [⟨slot.size - size - Block.headerSize, true⟩])
  else (slot, [])

section Cut

variable {shared : Bool} {size : Nat} {before after : List Slot}

theorem cut_isFree (shared : Bool) (size : Nat) (slot : Slot) :
    (cut shared size slot).1.isFree = slot.isFree := by
  unfold cut
  split <;> rfl

/-- A slot that was cut still holds the size. -/
theorem le_size_cut (shared : Bool) (fits : size ≤ slot.size) :
    size ≤ (cut shared size slot).1.size := by
  unfold cut
  split
  · exact Nat.le_refl _
  · exact fits

theorem size_cut_le (shared : Bool) (size : Nat) (slot : Slot) :
    (cut shared size slot).1.size ≤ slot.size := by
  unfold cut
  split
  · simp only
    omega
  · exact Nat.le_refl _

/-- What is cut off is free. -/
theorem used_cut_rest (shared : Bool) (size : Nat) (slot : Slot) :
    used (cut shared size slot).2 = 0 := by
  unfold cut
  split <;> simp [used]

/-- The remainder of a cut is what neither the cut block nor its own header takes. -/
theorem largest_cut_rest (shared : Bool) (size : Nat) (slot : Slot) :
    largest (cut shared size slot).2 ≤ slot.size - size - Block.headerSize := by
  unfold cut
  split <;> simp [largest]

/-- A used slot may lie next to any other. -/
theorem apart_around_used (used : slot.isFree = false) (hbefore : before.IsChain Slot.Apart)
    (hafter : after.IsChain Slot.Apart) : (before ++ slot :: after).IsChain Slot.Apart := by
  refine List.isChain_append.2 ⟨hbefore, List.isChain_cons.2 ⟨?_, hafter⟩, ?_⟩
  · intro next _ hboth
    exact absurd (used.symm.trans hboth.1) (by decide)
  · intro last _ first hfirst hboth
    simp only [List.head?_cons, Option.mem_some_iff] at hfirst
    exact absurd (used.symm.trans (hfirst ▸ hboth.2)) (by decide)

/-- Behind a free slot there is no other, so the remainder of a cut may lie there. -/
theorem apart_cut_rest (free : slot.isFree = true) (h : (slot :: after).IsChain Slot.Apart)
    (shared : Bool) (size : Nat) (whole : Slot) :
    ((cut shared size whole).2 ++ after).IsChain Slot.Apart := by
  rw [List.isChain_cons] at h
  unfold cut
  split
  · exact List.isChain_cons.2 ⟨fun next hnext hboth => h.1 next hnext ⟨free, hboth.2⟩, h.2⟩
  · exact h.2

/-- A free slot that is taken into use and was not the largest one leaves the largest one behind:
its remainder is smaller than it was. -/
theorem largest_take (free : slot.isFree = true)
    (other : slot.size ≠ largest (before ++ slot :: after)) (shared : Bool) (size taken : Nat) :
    largest (before ++ ⟨taken, false⟩ :: ((cut shared size slot).2 ++ after)) =
      largest (before ++ slot :: after) := by
  have hrest := largest_cut_rest shared size slot
  simp only [largest_append, largest, free, if_true, Bool.false_eq_true, if_false] at other ⊢
  omega

/-- A slot that grows beyond its size over a free one that was not the largest leaves the largest
one behind: the remainder is smaller than the free slot was. -/
theorem largest_grow {next : Slot} (used : slot.isFree = false) (free : next.isFree = true)
    (other : next.size ≠ largest (before ++ slot :: next :: after)) (more : slot.size ≤ size)
    (shared : Bool) (taken : Nat) :
    largest (before ++ ⟨taken, false⟩ ::
        ((cut shared size ⟨slot.size + next.total, slot.isFree⟩).2 ++ after)) =
      largest (before ++ slot :: next :: after) := by
  have hrest := largest_cut_rest shared size ⟨slot.size + next.total, slot.isFree⟩
  simp only [largest_append, largest, used, free, if_true, Bool.false_eq_true, if_false,
    Slot.total] at other hrest ⊢
  omega

/-- No free slot is larger than the largest one. -/
theorem le_largest (hmem : slot ∈ slots) (free : slot.isFree = true) :
    slot.size ≤ largest slots := by
  induction slots with
  | nil => simp at hmem
  | cons head rest ih =>
    rw [largest]
    rcases List.mem_cons.1 hmem with rfl | hmem
    · rw [if_pos free]
      exact Nat.le_max_left ..
    · have hle := ih hmem
      split <;> omega

end Cut

/-! ## Searching -/

section FirstFit

variable {size before : Nat}

/-- A search that finds nothing passes over all free slots because they are too small. -/
theorem lt_of_firstFit_eq_none
    (h : Chunk.firstFit size before (visited address prev start slots) = none)
    (hmem : slot ∈ slots) (free : slot.isFree = true) : slot.size < size := by
  induction slots generalizing prev start before with
  | nil => simp at hmem
  | cons head rest ih =>
    simp only [visited, Chunk.firstFit] at h
    rcases List.mem_cons.1 hmem with rfl | hmem
    · simp only [free, if_true] at h
      split at h
      · simp at h
      · omega
    · split at h
      · split at h
        · simp at h
        · exact ih h hmem
      · exact ih h hmem

/-- A search finds the first free slot that is large enough, and the largest free slot in front. -/
theorem exists_of_firstFit_eq_some {ref : BlockRef} {found : Nat}
    (h : Chunk.firstFit size before (visited address prev start slots) = some (ref, found)) :
    ∃ front slot back, slots = front ++ slot :: back ∧ ref = ⟨address, stop start front⟩ ∧
      slot.isFree = true ∧ size ≤ slot.size ∧ found = max before (largest front) ∧
      ∀ slot ∈ front, slot.isFree = true → slot.size < size := by
  induction slots generalizing prev start before with
  | nil => simp [visited, Chunk.firstFit] at h
  | cons head rest ih =>
    simp only [visited, Chunk.firstFit] at h
    -- blocks in use are passed over; free ones that are too small count for the largest one
    by_cases hfree : head.isFree = true
    · simp only [hfree, if_true] at h
      split at h
      · rename_i hlarge
        simp only [Option.some.injEq, Prod.mk.injEq] at h
        exact ⟨[], head, rest, rfl, h.1.symm, hfree, hlarge, by simp [largest, h.2], by simp⟩
      · rename_i hsmall
        obtain ⟨front, slot, back, rfl, href, hslot, hle, hfound, hfront⟩ := ih h
        refine ⟨head :: front, slot, back, rfl, href, hslot, hle, ?_, ?_⟩
        · rw [hfound, largest, if_pos hfree, Nat.max_assoc]
        · simpa [hfree, Nat.lt_of_not_le hsmall] using hfront
    · simp only [hfree] at h
      obtain ⟨front, slot, back, rfl, href, hslot, hle, hfound, hfront⟩ := ih h
      refine ⟨head :: front, slot, back, rfl, href, hslot, hle, ?_, ?_⟩
      · rw [hfound, largest, if_neg hfree]
      · simpa [hfree] using hfront

end FirstFit

end Layout

end PagedAlloc
