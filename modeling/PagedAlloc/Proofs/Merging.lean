import PagedAlloc.Proofs.Layout

/-!
# Merging free blocks

A block that is given back is merged with its free neighbours at once, and what absorbs what depends
on which of them are free already. The outcome does not: it is the layout in which every run of free
slots is one slot (`coalesced_eq`). Giving blocks back and merging after each of them is the same as
giving all of them back and merging once (`merged_released_merged`).
-/

namespace PagedAlloc.Layout

/-- A slot in front of others. It takes in the first of them if both are free. -/
def fuse (slot : Slot) (rest : List Slot) : List Slot :=
  if slot.isFree then (mergeAfter slot rest).1 :: (mergeAfter slot rest).2 else slot :: rest

/-- A layout in which every run of free slots became one slot. -/
def merged : List Slot → List Slot
  | [] => []
  | slot :: rest => fuse slot (merged rest)

/-- A layout after the slots at some offsets were given back, without a look at their neighbours. -/
def released (gone : Nat → Bool) (start : Nat) : List Slot → List Slot
  | [] => []
  | slot :: rest =>
    ⟨slot.size, slot.isFree || gone start⟩ :: released gone (start + slot.total) rest

variable {slot next : Slot} {slots rest before after : List Slot} {start : Nat}
  {gone : Nat → Bool}

/-! ## Fusing -/

/-- A slot in use absorbs nothing. -/
theorem fuse_of_used (used : slot.isFree = false) (rest : List Slot) :
    fuse slot rest = slot :: rest := by
  rw [fuse, if_neg (by simp [used])]

theorem fuse_nil (slot : Slot) : fuse slot [] = [slot] := by
  rw [fuse]
  split <;> rfl

theorem fuse_free (free : slot.isFree = true) (hnext : next.isFree = true) (rest : List Slot) :
    fuse slot (next :: rest) = ⟨slot.size + next.total, true⟩ :: rest := by
  simp [fuse, mergeAfter, free, hnext]

/-- Two slots of which one is in use stay apart. -/
theorem fuse_of_apart (apart : slot.Apart next) (rest : List Slot) :
    fuse slot (next :: rest) = slot :: next :: rest := by
  rw [fuse]
  split
  · rename_i free
    rw [mergeAfter, if_neg fun hnext => apart ⟨free, hnext⟩]
  · rfl

/-- Two free slots in front of others count as one slot. -/
theorem fuse_fuse (free : slot.isFree = true) (hnext : next.isFree = true) (rest : List Slot) :
    fuse slot (fuse next rest) = fuse ⟨slot.size + next.total, true⟩ rest := by
  cases rest with
  | nil => rw [fuse_nil, fuse_nil, fuse_free free hnext]
  | cons third rest =>
    by_cases hthird : third.isFree = true
    · rw [fuse_free hnext hthird, fuse_free free rfl, fuse_free rfl hthird]
      simp only [Slot.total, List.cons.injEq, Slot.mk.injEq, and_true]
      omega
    · have happart : ∀ other : Slot, other.Apart third := fun _ hboth => hthird hboth.2
      rw [fuse_of_apart (happart next), fuse_free free hnext, fuse_of_apart (happart _)]

/-! ## Merging a whole layout -/

/-- Where no two free slots lie next to each other there is nothing to merge. -/
theorem merged_eq_self (apart : slots.IsChain Slot.Apart) : merged slots = slots := by
  induction slots with
  | nil => rfl
  | cons slot rest ih =>
    rw [merged, ih (List.isChain_cons.1 apart).2]
    cases rest with
    | nil => rw [fuse_nil]
    | cons next rest => exact fuse_of_apart ((List.isChain_cons.1 apart).1 next rfl) rest

/-- A slot in front of others, merged with the first of them in one way or the other. -/
theorem merged_cons_of_free (free : slot.isFree = true) (apart : after.IsChain Slot.Apart) :
    merged (slot :: after) = (mergeAfter slot after).1 :: (mergeAfter slot after).2 := by
  rw [merged, merged_eq_self apart, fuse, if_pos free]

/-- Only the last slot of a prefix can absorb what follows it. -/
theorem mergeBefore_cons (first second slot : Slot) (rest : List Slot) :
    mergeBefore (first :: second :: rest) slot =
      (first :: (mergeBefore (second :: rest) slot).1, (mergeBefore (second :: rest) slot).2) := by
  simp only [mergeBefore, List.getLast?_cons_cons, List.dropLast_cons_cons]
  split
  · rfl
  · split <;> rfl

/-- A merge leaves the first slot of a layout, which at most becomes larger. -/
theorem exists_head_coalesced (first slot : Slot) (rest after : List Slot) :
    ∃ head others, coalesced (first :: rest) slot after = head :: others ∧
      head.isFree = first.isFree := by
  cases rest with
  | nil =>
    have hlone := mergeBefore_concat [] first (mergeAfter slot after).1
    rw [List.nil_append] at hlone
    simp only [coalesced, coalescedBefore, coalescedSlot, hlone]
    by_cases hfirst : first.isFree = true
    · exact ⟨_, _, by rw [if_pos hfirst]; rfl, hfirst.symm⟩
    · exact ⟨_, _, by rw [if_neg hfirst]; rfl, rfl⟩
  | cons second rest =>
    simp only [coalesced, coalescedBefore, coalescedSlot, mergeBefore_cons]
    exact ⟨first, _, rfl, rfl⟩

/-- Merging one free slot with its neighbours merges the whole layout, if there was nothing else to
merge. -/
theorem coalesced_eq (free : slot.isFree = true) (hbefore : before.IsChain Slot.Apart)
    (hafter : after.IsChain Slot.Apart) :
    coalesced before slot after = merged (before ++ slot :: after) := by
  induction before with
  | nil => exact (merged_cons_of_free free hafter).symm
  | cons first rest ih =>
    rw [List.cons_append, merged, ← ih (List.isChain_cons.1 hbefore).2]
    cases rest with
    | nil =>
      -- the slot in front is the neighbour
      have hmergedFree : (mergeAfter slot after).1.isFree = true := mergeAfter_isFree.trans free
      have hlone := mergeBefore_concat [] first (mergeAfter slot after).1
      rw [List.nil_append] at hlone
      simp only [coalesced, coalescedBefore, coalescedSlot, mergeBefore_nil, hlone,
        List.nil_append]
      by_cases hfirst : first.isFree = true
      · rw [if_pos hfirst, fuse_free hfirst hmergedFree]
        rfl
      · rw [if_neg hfirst, fuse_of_used (by simpa using hfirst)]
        rfl
    | cons second rest =>
      obtain ⟨head, others, heq, hhead⟩ := exists_head_coalesced second slot rest after
      have happart : first.Apart head := fun hboth =>
        (List.isChain_cons.1 hbefore).1 second rfl ⟨hboth.1, hhead ▸ hboth.2⟩
      rw [heq, fuse_of_apart happart, ← heq]
      simp only [coalesced, coalescedBefore, coalescedSlot, mergeBefore_cons, List.cons_append]

/-- Slots that are all free merge into one. -/
theorem merged_of_free (free : ∀ slot ∈ slots, slot.isFree = true) (nonempty : slots ≠ [])
    (start : Nat) :
    merged slots = [⟨stop start slots - start - Block.headerSize, true⟩] := by
  induction slots generalizing start with
  | nil => exact absurd rfl nonempty
  | cons slot rest ih =>
    have hfree := free slot (List.mem_cons_self ..)
    rw [merged, stop]
    by_cases hlast : rest = []
    · subst hlast
      rw [merged, fuse_nil, stop]
      simp only [Slot.total, List.cons.injEq, and_true]
      rw [← hfree]
      exact congrArg (Slot.mk · slot.isFree) (by omega)
    · have hend := length_le_stop (start + slot.total) rest
      have hcount := List.length_pos_iff.2 hlast
      have hroom : start + slot.total + Block.headerSize ≤ stop (start + slot.total) rest :=
        Nat.le_trans (Nat.add_le_add_left (Nat.le_mul_of_pos_right _ hcount) _) hend
      rw [ih (fun other hother => free other (List.mem_cons_of_mem _ hother)) hlast
        (start + slot.total), fuse_free hfree rfl]
      simp only [Slot.total, List.cons.injEq, Slot.mk.injEq, and_true] at hroom ⊢
      omega

/-! ## Giving slots back -/

/-- Slots are released by their addresses, so a list of them can be released in parts. -/
theorem released_append (gone : Nat → Bool) (start : Nat) (a b : List Slot) :
    released gone start (a ++ b) = released gone start a ++ released gone (stop start a) b := by
  induction a generalizing start with
  | nil => rfl
  | cons slot rest ih => simp [released, stop, ih]

/-- Slots are given back in several rounds as in one. -/
theorem released_released (gone more : Nat → Bool) (start : Nat) (slots : List Slot) :
    released more start (released gone start slots) =
      released (fun offset => gone offset || more offset) start slots := by
  induction slots generalizing start with
  | nil => rfl
  | cons slot rest ih =>
    simp only [released, Slot.total, Bool.or_assoc] at ih ⊢
    rw [ih]

/-- Where no slot is given back nothing changes. -/
theorem released_none (kept : ∀ spot ∈ spots start slots, gone spot.1 = false) :
    released gone start slots = slots := by
  induction slots generalizing start with
  | nil => rfl
  | cons slot rest ih =>
    rw [released, kept _ (List.mem_cons_self ..),
      ih fun spot hspot => kept spot (List.mem_cons_of_mem _ hspot), Bool.or_false]

/-- One slot is given back. -/
theorem released_one (start : Nat) (before after : List Slot) (slot : Slot) :
    released (fun offset => offset = stop start before) start (before ++ slot :: after) =
      before ++ ⟨slot.size, true⟩ :: after := by
  have hpositive := total_pos slot
  have hfront : released (fun offset => offset = stop start before) start before = before :=
    released_none fun spot hspot => by
      have hend := spot_le_stop hspot
      have hspotPositive := total_pos spot.2
      simp only [decide_eq_false_iff_not]
      omega
  have hback : released (fun offset => offset = stop start before) (stop start before + slot.total)
      after = after :=
    released_none fun spot hspot => by
      have hbehind := le_of_mem_spots hspot
      simp only [decide_eq_false_iff_not]
      omega
  rw [released_append, released, hfront, hback]
  simp

/-- Where every slot in use is given back all slots are free. -/
theorem released_isFree
    (all : ∀ spot ∈ spots start slots, spot.2.isFree = false → gone spot.1 = true) :
    ∀ slot ∈ released gone start slots, slot.isFree = true := by
  induction slots generalizing start with
  | nil => simp [released]
  | cons head rest ih =>
    have hrest := ih fun spot hspot => all spot (List.mem_cons_of_mem _ hspot)
    rw [released, List.forall_mem_cons]
    refine ⟨?_, hrest⟩
    cases hfree : head.isFree with
    | true => rfl
    | false => exact all (start, head) (List.mem_cons_self ..) hfree

/-- Releasing moves no boundary. -/
theorem stop_released (gone : Nat → Bool) (start : Nat) (slots : List Slot) :
    stop start (released gone start slots) = stop start slots := by
  induction slots generalizing start with
  | nil => rfl
  | cons slot rest ih => exact ih (start + slot.total)

/-- To merge early changes nothing: what is given back then is merged in the end all the same. -/
theorem merged_released_merged (gone : Nat → Bool) (start : Nat) (slots : List Slot) :
    merged (released gone start (merged slots)) = merged (released gone start slots) := by
  induction slots generalizing start with
  | nil => rfl
  | cons slot rest ih =>
    rw [released, merged, merged, ← ih]
    cases hrest : merged rest with
    | nil =>
      rw [fuse_nil]
      rfl
    | cons next tail =>
      by_cases hboth : slot.isFree = true ∧ next.isFree = true
      · -- the merged slot begins where the first one did, and the second one was free anyway
        obtain ⟨free, hnext⟩ := hboth
        have hplace : start + Slot.total ⟨slot.size + next.total, true⟩ =
            start + slot.total + next.total := by
          simp only [Slot.total]
          omega
        rw [fuse_free free hnext, released, released, merged, merged, hplace, fuse_fuse]
        · simp only [hnext, Bool.true_or]
          rfl
        · simp [free]
        · simp [hnext]
      · rw [fuse_of_apart hboth, released, merged]

end PagedAlloc.Layout
