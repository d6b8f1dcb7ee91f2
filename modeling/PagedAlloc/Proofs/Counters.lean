import PagedAlloc.Proofs.Accounts

/-!
# Counters of a segregated list

The counters of a category are adjusted by differences wherever a block or a chunk comes or goes. In
every session that no fault has stopped they are what a walk through the chunks would count, and the
blocks in use that the walk finds are those of the live addresses
(`SegregatedList.Session.Intact.counters_exact`).
-/

namespace PagedAlloc

variable {paging : Size.Paging}

open Layout

namespace Category

/-- The counters of a category are what walks through its chunks count, and the blocks in use that
they find are those of the payloads at some addresses. -/
structure Counts (category : Category) (addresses : List Nat) : Prop where
  chunks : category.usage.chunks = category.chunks.toList.length
  mapped : category.usage.mapped = (category.chunks.toList.map fun entry => entry.2.size).sum
  blocks : ∃ blocks, blocksOf category.chunks.toList = .ok blocks ∧
    category.usage.used = ((blocks.filter fun block => !block.2.isFree).map (·.2.size)).sum ∧
    ((blocks.filter fun block => !block.2.isFree).map (·.1.payload)).Perm addresses

variable {machine : Machine} {category : Category}

/-- A walk finds the slots in use. -/
theorem filter_visited (address : Nat) (prev : Option Nat) (start : Nat) (slots : List Slot) :
    ((visited address prev start slots).filter fun block => !block.2.isFree).map
        (fun block => (block.1, block.2.size)) =
      (usedSpots start slots).map fun spot => (⟨address, spot.1⟩, spot.2.size) := by
  induction slots generalizing prev start with
  | nil => rfl
  | cons slot rest ih =>
    rw [visited, List.filter_cons, usedSpots_cons]
    cases slot.isFree with
    | true => exact ih _ _
    | false => exact congrArg (_ :: ·) (ih _ _)

/-- Walks find the blocks in use. -/
theorem exists_blocks {entries : List (Nat × Chunk)}
    (h : ∀ entry ∈ entries, ∃ shared, entry.2.Settled shared entry.1 (entry.2.slots entry.1)) :
    ∃ blocks, blocksOf entries = .ok blocks ∧
      (blocks.filter fun block => !block.2.isFree).map (fun block => (block.1, block.2.size)) =
        blocksInUse entries := by
  refine ⟨_, blocksOf_eq h, ?_⟩
  rw [List.filter_flatMap, List.map_flatMap, blocksInUse]
  simp only [filter_visited]

end Category

namespace SegregatedList

variable {environment : Environment} {machine : Machine} {list : SegregatedList}
  {index : Fin categoryCount} {session : Session}

/-- The payloads of the blocks in use of a category are at different addresses. -/
theorem Sound.nodup_payloads (h : Sound machine list) (index : Fin categoryCount) :
    ((Category.blocksInUse (list.category index).chunks.toList).map (·.1.payload)).Nodup := by
  have hdistinct := Category.nodup_blocksInUse (h.sound index).sequence.distinct
  refine (List.Nodup.of_map _ hdistinct).map_on ?_
  rintro ⟨first, size⟩ hfirst ⟨second, count⟩ hsecond heq
  exact congrArg Prod.snd (h.inUse_unique (Category.mem_blocksInUse.1 hfirst)
    (Category.mem_blocksInUse.1 hsecond) heq)

/-- The blocks in use of a category are those of the live addresses that were asked for with a size
of the category. -/
theorem Session.Reachable.perm_live (h : session.Reachable) (index : Fin categoryCount) :
    ((Category.blocksInUse (session.list.category index).chunks.toList).map (·.1.payload)).Perm
      ((session.live.filter fun entry => categoryFor entry.2 = index).map Prod.fst) := by
  have hsound := h.sound
  have haccounts := h.accounts
  refine (List.perm_ext_iff_of_nodup (hsound.list.nodup_payloads index)
    (hsound.distinct.sublist (List.filter_sublist.map _))).2 fun address => ?_
  simp only [List.mem_map, List.mem_filter, decide_eq_true_eq]
  constructor
  · rintro ⟨⟨ref, size⟩, hblock, rfl⟩
    have huses : (index, ref, size) ∈ session.list.inUse := Category.mem_blocksInUse.1 hblock
    obtain ⟨entry, hentry, hplace⟩ := List.mem_map.1 (haccounts.owned _ huses)
    obtain ⟨other, usable, hother, hheld⟩ := haccounts.held entry hentry
    have hsame := hsound.list.inUse_unique hheld huses (hother.symm.trans hplace)
    exact ⟨entry, ⟨hentry, congrArg Prod.fst hsame⟩, hplace⟩
  · rintro ⟨entry, ⟨hentry, rfl⟩, rfl⟩
    obtain ⟨ref, usable, hplace, hheld⟩ := haccounts.held entry hentry
    exact ⟨(ref, usable), Category.mem_blocksInUse.2 hheld, hplace.symm⟩

/-- Where no address is live nothing is counted as used. -/
theorem Session.Reachable.used_eq_zero (h : session.Reachable) (hnone : session.live = [])
    (index : Fin categoryCount) : (session.list.category index).usage.used = 0 := by
  have hperm := h.perm_live index
  rw [hnone] at hperm
  have hblocks := List.map_eq_nil_iff.1 hperm.eq_nil
  have hsum := Category.sum_blocksInUse (session.list.category index).chunks.toList
  rw [hblocks] at hsum
  exact ((h.sound.list.sound index).counted.trans hsum.symm)

/-- The counters of each category are the number of its chunks, their sizes, and the sizes of the
blocks in use in them, which are those of the live addresses of the category. Once all live addresses
were freed, in whatever order, nothing is counted as used. -/
theorem Session.Intact.counters_exact (h : session.Intact) :
    (∀ index : Fin categoryCount, (session.list.category index).Counts
      ((session.live.filter fun entry => categoryFor entry.2 = index).map Prod.fst)) ∧
    ∀ environment : Environment, environment.FitsAddresses →
      ∀ addresses : List Nat, addresses.Perm (session.live.map Prod.fst) →
        (session.freeing environment addresses).live = [] ∧
          ∀ index : Fin categoryCount,
            ((session.freeing environment addresses).list.category index).usage.used = 0 := by
  have hreachable := Run.reachable h
  have hsound := hreachable.sound
  constructor
  · intro index
    have hcategory := hsound.list.sound index
    obtain ⟨blocks, hblocks, hused⟩ :=
      Category.exists_blocks fun entry hentry => ⟨_, hcategory.settled hentry⟩
    -- one walk tells the sizes of the blocks in use and their places
    have hsizes := congrArg (List.map Prod.snd) hused
    have hplaces := congrArg (List.map (·.1.payload)) hused
    rw [List.map_map] at hsizes hplaces
    refine ⟨hcategory.sequence.length, h.exact.mapped index, blocks, hblocks, ?_, ?_⟩
    · have hsum := Category.sum_blocksInUse (session.list.category index).chunks.toList
      rw [← hsizes, ← hcategory.counted] at hsum
      exact hsum.symm
    · have hperm := hreachable.perm_live index
      rw [← hplaces] at hperm
      exact hperm
  · intro environment fits addresses hperm
    obtain ⟨hafter, hlive⟩ := hreachable.freeing fits (hperm.nodup_iff.2 hsound.distinct)
      fun address hin => hperm.mem_iff.1 hin
    have hnone : (session.freeing environment addresses).live = [] := by
      rw [hlive, List.filter_eq_nil_iff]
      intro entry hentry hkept
      exact of_decide_eq_true hkept (hperm.mem_iff.2 (List.mem_map_of_mem hentry))
    exact ⟨hnone, hafter.used_eq_zero hnone⟩

end SegregatedList

end PagedAlloc

namespace PagedAlloc.SegregatedList

open Layout

attribute [local instance] Size.Paging.common

/-- Two payloads of one category, of which one outgrows the category. -/
theorem counters_exact_after_move :
    let session := ((Session.after ⟨.fresh, .empty, []⟩ .ordinary (.allocate 64 true)).after
      .ordinary (.allocate 50 false)).after .ordinary (.reallocate (some 65616) 100 false)
    session.live = [(131152, 100), (65712, 50)] ∧
      (session.list.category (categoryFor 64)).Counts [65712] ∧
      ∀ index : Fin categoryCount,
        ((session.freeing .ordinary [65712, 131152]).list.category index).usage.used = 0 := by
  intro session
  have first : Session.Intact _ := Session.Run.step (.start .fresh) .ordinary
    Environment.ordinary_fitsAddresses (.allocate 64 true) trivial (by decide +kernel)
  have second : Session.Intact _ := Session.Run.step first .ordinary
    Environment.ordinary_fitsAddresses (.allocate 50 false) trivial (by decide +kernel)
  have third : session.Intact := Session.Run.step second .ordinary
    Environment.ordinary_fitsAddresses (.reallocate (some 65616) 100 false)
    (fun _ heq => by cases heq; decide +kernel) (by decide +kernel)
  have live : session.live = [(131152, 100), (65712, 50)] := by decide +kernel
  have counts := third.counters_exact.1 (categoryFor 64)
  rw [live] at counts
  have freed := third.counters_exact.2 .ordinary Environment.ordinary_fitsAddresses [65712, 131152]
  rw [live] at freed
  exact ⟨live, counts, (freed (List.Perm.swap ..)).2⟩

end PagedAlloc.SegregatedList
