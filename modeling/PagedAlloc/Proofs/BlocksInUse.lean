import Mathlib.Algebra.Order.BigOperators.Group.Finset
import Mathlib.Data.List.Nodup
import PagedAlloc.Proofs.CategoryState

/-!
# The blocks in use of a category

The counter of a category adds up the sizes of its blocks in use (`Sound.sum_inUse`), and no block
is empty. So whoever knows which blocks stay, which one is lost and which one is gained knows all of
them, as soon as the counter moves by just the sizes of these two: there is no room for another block
(`Sound.inUse_eq`).
-/

namespace PagedAlloc

variable {paging : Size.Paging}

namespace Layout

variable {start : Nat} {slots : List Slot}

/-- The slots in use at their offsets. -/
def usedSpots (start : Nat) (slots : List Slot) : List (Nat × Slot) :=
  (spots start slots).filter fun spot => !spot.2.isFree

theorem mem_usedSpots {spot : Nat × Slot} :
    spot ∈ usedSpots start slots ↔ spot ∈ spots start slots ∧ spot.2.isFree = false := by
  simp [usedSpots]

/-- No two blocks begin at the same place. -/
theorem nodup_spots (start : Nat) (slots : List Slot) :
    ((spots start slots).map Prod.fst).Nodup := by
  induction slots generalizing start with
  | nil => exact List.nodup_nil
  | cons slot rest ih =>
    rw [spots, List.map_cons, List.nodup_cons]
    refine ⟨?_, ih _⟩
    intro hmem
    obtain ⟨spot, hspot, heq⟩ := List.mem_map.1 hmem
    have hbehind := le_of_mem_spots hspot
    have hpositive := total_pos slot
    simp only at heq
    omega

theorem usedSpots_cons (start : Nat) (slot : Slot) (rest : List Slot) :
    usedSpots start (slot :: rest) =
      if slot.isFree then usedSpots (start + slot.total) rest
      else (start, slot) :: usedSpots (start + slot.total) rest := by
  simp only [usedSpots, spots, List.filter_cons]
  cases slot.isFree <;> rfl

/-- The sizes of the blocks in use of a layout add up to what it counts. -/
theorem sum_usedSpots (start : Nat) (slots : List Slot) :
    ((usedSpots start slots).map fun spot => spot.2.size).sum = used slots := by
  induction slots generalizing start with
  | nil => rfl
  | cons slot rest ih =>
    rw [usedSpots_cons, used]
    split
    · rw [ih, Nat.zero_add]
    · rw [List.map_cons, List.sum_cons, ih]

end Layout

namespace Category

open Layout

/-- The blocks in use of some chunks, each with its payload size. -/
def blocksInUse (entries : List (Nat × Chunk)) : List (BlockRef × Nat) :=
  entries.flatMap fun entry => (usedSpots Chunk.headerSize (entry.2.slots entry.1)).map
    fun spot => (⟨entry.1, spot.1⟩, spot.2.size)

/-- The blocks in use of a category, each with its payload size. -/
def inUse (category : Category) : Finset (BlockRef × Nat) :=
  (blocksInUse category.chunks.toList).toFinset

variable {machine machine' : Machine} {category category' : Category} {ref : BlockRef}
  {size old : Nat} {touched : Set BlockRef}

/-- The blocks of some chunks, with their headers, as the walks through the chunks find them. -/
def blocksOf : List (Nat × Chunk) → Except Fault (List (BlockRef × BlockHeader))
  | [] => .ok []
  | (address, chunk) :: rest => do
    let here ← chunk.blocks address
    let others ← blocksOf rest
    return here ++ others

/-- Walking settled chunks finds their layouts. -/
theorem blocksOf_eq {entries : List (Nat × Chunk)}
    (h : ∀ entry ∈ entries, ∃ shared, entry.2.Settled shared entry.1 (entry.2.slots entry.1)) :
    blocksOf entries = .ok (entries.flatMap fun entry =>
      visited entry.1 none Chunk.headerSize (entry.2.slots entry.1)) := by
  induction entries with
  | nil => rfl
  | cons entry rest ih =>
    obtain ⟨shared, hsettled⟩ := h entry (List.mem_cons_self ..)
    simp only [blocksOf, hsettled.blocks_eq,
      ih fun other hother => h other (List.mem_cons_of_mem _ hother), bind, Except.bind,
      List.flatMap_cons]
    rfl

/-- A block in use is that of some chunk, at a place where its layout has a used slot. -/
theorem mem_blocksInUse {entries : List (Nat × Chunk)} :
    (ref, size) ∈ blocksInUse entries ↔ ∃ chunk, (ref.chunk, chunk) ∈ entries ∧
      (ref.offset, ⟨size, false⟩) ∈ spots Chunk.headerSize (chunk.slots ref.chunk) := by
  simp only [blocksInUse, List.mem_flatMap, List.mem_map, mem_usedSpots]
  constructor
  · rintro ⟨⟨address, chunk⟩, hmem, ⟨offset, slot⟩, ⟨hspot, hused⟩, heq⟩
    obtain ⟨rfl, rfl⟩ := Prod.mk.inj heq
    refine ⟨chunk, hmem, ?_⟩
    simp only at hused
    rwa [← hused]
  · rintro ⟨chunk, hmem, hspot⟩
    exact ⟨(ref.chunk, chunk), hmem, _, ⟨hspot, rfl⟩, rfl⟩

/-- What is counted as in use is what a caller may use. -/
theorem mem_inUse : (ref, size) ∈ category.inUse ↔ category.Uses ref size := by
  rw [inUse, List.mem_toFinset, mem_blocksInUse]
  rfl

theorem sum_blocksInUse (entries : List (Nat × Chunk)) :
    ((blocksInUse entries).map Prod.snd).sum = totalUsed entries := by
  induction entries with
  | nil => rfl
  | cons entry rest ih =>
    rw [blocksInUse] at ih
    rw [blocksInUse, List.flatMap_cons, List.map_append, List.sum_append, ih, totalUsed_cons,
      ← sum_usedSpots Chunk.headerSize, List.map_map]
    rfl

/-- Chunks at different addresses have different blocks. -/
theorem nodup_blocksInUse {entries : List (Nat × Chunk)} (distinct : (entries.map Prod.fst).Nodup) :
    ((blocksInUse entries).map Prod.fst).Nodup := by
  rw [blocksInUse, List.map_flatMap, List.nodup_flatMap]
  constructor
  · rintro ⟨address, chunk⟩ -
    have hoffsets : ((usedSpots Chunk.headerSize (chunk.slots address)).map Prod.fst).Nodup :=
      (nodup_spots _ _).sublist (List.filter_sublist.map _)
    have hrefs := hoffsets.map (f := BlockRef.mk address) fun _ _ heq => (BlockRef.mk.inj heq).2
    rw [List.map_map] at hrefs ⊢
    exact hrefs
  · refine (List.pairwise_map.1 distinct).imp ?_
    rintro ⟨address, chunk⟩ ⟨place, other⟩ hne
    simp only [Function.onFun, List.disjoint_left, List.mem_map]
    rintro _ ⟨_, ⟨_, -, rfl⟩, rfl⟩ ⟨_, ⟨_, -, rfl⟩, heq⟩
    exact hne (BlockRef.mk.inj heq).1.symm

/-- A block in use has one size. -/
theorem Sound.uses_unique (h : Sound machine category) (huses : category.Uses ref size)
    (hold : category.Uses ref old) : size = old := by
  obtain ⟨chunk, hmem, hspot⟩ := huses
  obtain ⟨other, hother, hspot'⟩ := hold
  obtain rfl := h.sequence.mem_unique hmem hother
  exact congrArg Slot.size (Prod.mk.inj (spots_unique hspot hspot' rfl)).2

namespace Sound

/-- The counter of a category adds up the sizes of its blocks in use. -/
theorem sum_inUse (h : Sound machine category) :
    ∑ block ∈ category.inUse, block.2 = category.used := by
  rw [inUse, List.sum_toFinset _ (List.Nodup.of_map _ (nodup_blocksInUse h.sequence.distinct)),
    sum_blocksInUse, h.counted]

/-- No block in use is empty. -/
theorem pos_of_mem_inUse (h : Sound machine category) {block : BlockRef × Nat}
    (hmem : block ∈ category.inUse) : 0 < block.2 := by
  obtain ⟨chunk, hchunk, hspot⟩ := mem_inUse.1 hmem
  obtain ⟨before, after, hslots, -⟩ := mem_spots_iff.1 hspot
  exact Nat.lt_of_lt_of_le (by decide)
    ((h.settled hchunk).tiled.valid ⟨block.2, false⟩ (by simp [hslots])).2

/-- Blocks in use whose sizes make up the whole counter are all there are. -/
theorem inUse_eq_of_sum (h : Sound machine category) {blocks : Finset (BlockRef × Nat)}
    (hsub : blocks ⊆ category.inUse) (hsum : category.used ≤ ∑ block ∈ blocks, block.2) :
    category.inUse = blocks := by
  refine (Finset.Subset.antisymm hsub fun block hmem => ?_).symm
  by_contra hother
  -- another block would bring the sum above the counter
  have hmore := Finset.sum_lt_sum_of_subset hsub hmem hother (h.pos_of_mem_inUse hmem)
    fun _ _ _ => Nat.zero_le _
  rw [h.sum_inUse] at hmore
  omega

/-- What is in use after a change is known from what stays, what is lost and what is gained, if the
counter says so. -/
theorem inUse_eq (h : Sound machine category) (h' : Sound machine' category')
    (hevolves : Evolves touched (machine, category) (machine', category'))
    {lost gained : Finset (BlockRef × Nat)} (hlost : lost ⊆ category.inUse)
    (htouched : ∀ block ∈ category.inUse, block.1 ∈ touched → block ∈ lost)
    (hgained : gained ⊆ category'.inUse) (hfresh : Disjoint (category.inUse \ lost) gained)
    (hused : category'.used + ∑ block ∈ lost, block.2 =
      category.used + ∑ block ∈ gained, block.2) :
    category'.inUse = category.inUse \ lost ∪ gained := by
  apply h'.inUse_eq_of_sum
  · refine Finset.union_subset ?_ hgained
    intro block hblock
    obtain ⟨hold, hkept⟩ := Finset.mem_sdiff.1 hblock
    exact mem_inUse.2 (hevolves.stays block.1 block.2 (mem_inUse.1 hold)
      fun hin => hkept (htouched block hold hin))
  · have hrest := Finset.sum_sdiff (f := fun block : BlockRef × Nat => block.2) hlost
    rw [h.sum_inUse] at hrest
    rw [Finset.sum_union hfresh]
    omega

/-- Where no block is touched and the counter stays, the blocks in use stay. -/
theorem inUse_eq_self (h : Sound machine category) (h' : Sound machine' category')
    (hevolves : Evolves ∅ (machine, category) (machine', category'))
    (hused : category'.used = category.used) : category'.inUse = category.inUse := by
  simpa using h.inUse_eq h' hevolves (Finset.empty_subset _) (by simp) (Finset.empty_subset _)
    (by simp) (by simpa using hused)

/-- A block that was not in use is the only one that comes to be. -/
theorem inUse_eq_insert (h : Sound machine category) (h' : Sound machine' category')
    (hevolves : Evolves ∅ (machine, category) (machine', category'))
    (hnew : ∀ old, ¬ category.Uses ref old) (huses : category'.Uses ref size)
    (hused : category'.used = category.used + size) :
    category'.inUse = insert (ref, size) category.inUse := by
  rw [h.inUse_eq h' hevolves (Finset.empty_subset _) (by simp)
    (Finset.singleton_subset_iff.2 (mem_inUse.2 huses)) (by simpa [mem_inUse] using hnew size)
    (by simpa using hused), Finset.sdiff_empty, Finset.union_comm]
  rfl

/-- A block is the only one that is lost. -/
theorem inUse_eq_erase (h : Sound machine category) (h' : Sound machine' category')
    (hevolves : Evolves {ref} (machine, category) (machine', category'))
    (huses : category.Uses ref size) (hused : category'.used + size = category.used) :
    category'.inUse = category.inUse.erase (ref, size) := by
  rw [h.inUse_eq h' hevolves (Finset.singleton_subset_iff.2 (mem_inUse.2 huses)) ?_
    (Finset.empty_subset _) (by simp) (by simpa using hused), Finset.union_empty,
    Finset.sdiff_singleton_eq_erase]
  rintro ⟨other, count⟩ hmem rfl
  rw [h.uses_unique (mem_inUse.1 hmem) huses]
  exact Finset.mem_singleton_self _

/-- A block is the only one that gets another size. -/
theorem inUse_eq_resize (h : Sound machine category) (h' : Sound machine' category')
    (hevolves : Evolves {ref} (machine, category) (machine', category'))
    (hold : category.Uses ref old) (huses : category'.Uses ref size)
    (hused : category'.used + old = category.used + size) :
    category'.inUse = insert (ref, size) (category.inUse.erase (ref, old)) := by
  have hall : ∀ block ∈ category.inUse, block.1 = ref → block = (ref, old) := by
    rintro ⟨other, count⟩ hmem rfl
    rw [h.uses_unique (mem_inUse.1 hmem) hold]
  rw [h.inUse_eq h' hevolves (Finset.singleton_subset_iff.2 (mem_inUse.2 hold))
    (fun block hmem hin => Finset.mem_singleton.2 (hall block hmem hin))
    (Finset.singleton_subset_iff.2 (mem_inUse.2 huses)) ?_ (by simpa using hused),
    Finset.sdiff_singleton_eq_erase, Finset.union_comm]
  · rfl
  · rw [Finset.disjoint_singleton_right, Finset.mem_sdiff, Finset.mem_singleton, not_and,
      not_not]
    exact fun hmem => hall _ hmem rfl

end Sound

end Category

end PagedAlloc
