import PagedAlloc.Proofs.Accounts
import PagedAlloc.Proofs.Merging

/-!
# The order of freeing

Each block that is freed is merged with the free neighbours that it has at this moment, so which
block absorbs which depends on what was freed before. What comes out does not: after some payloads
were freed, in whatever order, the layout of each chunk is that in which all of them are given back
and every run of free slots is one (`Layout.freed`). The hints and the counters follow from the
layouts, so all orders lead to lists that look alike, and freeing every live payload to a list like
one that was cleared (`SegregatedList.Session.Reachable.freeing_confluent`).
-/

namespace PagedAlloc

variable {paging : Size.Paging}

namespace Layout

/-- The layout of the chunk at an address after the payloads at some addresses were freed. -/
def freed (addresses : List Nat) (address : Nat) (slots : List Slot) : List Slot :=
  merged (released (fun offset => address + offset + Block.headerSize ∈ addresses)
    Chunk.headerSize slots)

variable {addresses : List Nat} {address : Nat} {slots before after : List Slot}

/-- A chunk that has none of the payloads keeps its layout. -/
theorem freed_eq_self (apart : slots.IsChain Slot.Apart)
    (none : ∀ spot ∈ spots Chunk.headerSize slots,
      address + spot.1 + Block.headerSize ∉ addresses) : freed addresses address slots = slots := by
  rw [freed, released_none fun spot hspot => decide_eq_false (none spot hspot), merged_eq_self apart]

/-- Freeing one payload merges its slot with its neighbours. -/
theorem freed_singleton {size : Nat} (apart : (before ++ ⟨size, false⟩ :: after).IsChain Slot.Apart) :
    freed [address + stop Chunk.headerSize before + Block.headerSize] address
        (before ++ ⟨size, false⟩ :: after) =
      coalesced before ⟨size, true⟩ after := by
  obtain ⟨hbefore, hrest, -⟩ := List.isChain_append.1 apart
  have hgone : (fun offset => decide (address + offset + Block.headerSize ∈
      [address + stop Chunk.headerSize before + Block.headerSize])) =
        fun offset => decide (offset = stop Chunk.headerSize before) := by
    funext offset
    simp
  rw [freed, hgone, released_one, ← coalesced_eq rfl hbefore (List.isChain_cons.1 hrest).2]

/-- Payloads may be freed one after the other. -/
theorem freed_freed (first : Nat) (rest : List Nat) (address : Nat) (slots : List Slot) :
    freed rest address (freed [first] address slots) = freed (first :: rest) address slots := by
  rw [freed, freed, merged_released_merged, released_released, freed]
  simp only [List.mem_cons, List.not_mem_nil, or_false, Bool.decide_or]

/-- Only the set of the payloads matters. -/
theorem freed_congr {second : List Nat} (same : ∀ place, place ∈ addresses ↔ place ∈ second)
    (address : Nat) (slots : List Slot) :
    freed addresses address slots = freed second address slots := by
  simp only [freed, same]

/-- A chunk whose payloads were all freed is one free block. -/
theorem freed_all (nonempty : slots ≠ [])
    (all : ∀ spot ∈ spots Chunk.headerSize slots, spot.2.isFree = false →
      address + spot.1 + Block.headerSize ∈ addresses) :
    freed addresses address slots = [Chunk.freshSlot (stop Chunk.headerSize slots)] := by
  rw [freed, merged_of_free (released_isFree fun spot hspot hused =>
    decide_eq_true (all spot hspot hused)) ?_ Chunk.headerSize, stop_released]
  · rfl
  · cases slots with
    | nil => contradiction
    | cons => simp [released]

end Layout

open Layout

/-! ## Categories that look alike -/

/-- What can be told of a chunk without a look into its payloads. -/
structure Chunk.Survey where
  /-- Address of the chunk. -/
  address : Nat
  /-- Bytes of the mapping. -/
  size : Nat
  /-- Index of the category. -/
  category : Nat
  /-- Payload size of the largest free block, as the chunk remembers it. -/
  largestFree : Nat
  /-- The blocks that a walk visits, with their headers. -/
  blocks : Except Fault (List (BlockRef × BlockHeader))

namespace Category

/-- What can be told of the chunks of a category, in the order of the chain. -/
def survey (category : Category) : List Chunk.Survey :=
  category.chunks.toList.map fun entry =>
    ⟨entry.1, entry.2.size, entry.2.category, entry.2.largestFree, entry.2.blocks entry.1⟩

/-- Two categories have the same chunks with the same blocks and hints, linked in the same way in
both directions, and the same counters. -/
structure Alike (first second : Category) : Prop where
  index : first.index = second.index
  chunkSize : first.chunkSize = second.chunkSize
  survey : first.survey = second.survey
  backwards : first.chunks.toListReverse.map Prod.fst = second.chunks.toListReverse.map Prod.fst
  usage : first.usage = second.usage

/-- The chunks of a category in order, each with its address, its size and its layout. -/
def outline (category : Category) : List (Nat × Nat × List Slot) :=
  category.chunks.toList.map fun entry => (entry.1, entry.2.size, entry.2.slots entry.1)

variable {machine machine' : Machine} {category category' : Category} {ref : BlockRef} {size : Nat}

namespace Sound

/-- What a walk visits and what a chunk remembers are functions of the layout. -/
theorem survey_eq (h : Sound machine category) :
    category.survey = category.outline.map fun entry =>
      ⟨entry.1, entry.2.1, category.index, largest entry.2.2,
        .ok (visited entry.1 none Chunk.headerSize entry.2.2)⟩ := by
  rw [survey, outline, List.map_map]
  refine List.map_congr_left fun entry hentry => ?_
  have hsettled := h.settled hentry
  simp only [Function.comp_apply, (h.laid entry.1 entry.2 hentry).category, hsettled.measured,
    hsettled.blocks_eq]

/-- A walk from the back meets the chunks in reverse. -/
theorem backwards_eq (h : Sound machine category) :
    category.chunks.toListReverse.map Prod.fst = (category.outline.map Prod.fst).reverse := by
  rw [h.sequence.toListReverse_eq, List.map_reverse, outline, List.map_map]
  rfl

/-- What a category uses is told by its outline. -/
theorem usage_eq (h : Sound machine category) :
    category.usage = ⟨category.outline.length, category.mapped,
      (category.outline.map fun entry => Layout.used entry.2.2).sum⟩ := by
  rw [usage, h.counted, totalUsed, outline, List.map_map, List.length_map, h.sequence.length]
  rfl

/-- Hints and counters follow from the outline. -/
theorem alike (h : Sound machine category) (h' : Sound machine' category')
    (hindex : category.index = category'.index) (hchunkSize : category.chunkSize = category'.chunkSize)
    (hmapped : category.mapped = category'.mapped) (houtline : category.outline = category'.outline) :
    Alike category category' where
  index := hindex
  chunkSize := hchunkSize
  survey := by rw [h.survey_eq, h'.survey_eq, houtline, hindex]
  backwards := by rw [h.backwards_eq, h'.backwards_eq, houtline]
  usage := by rw [h.usage_eq, h'.usage_eq, houtline, hmapped]

/-- A block that is free or in use, with its header in front of it, lies inside of its chunk. -/
theorem spot_inside (h : Sound machine category) {entry : Nat × Chunk}
    (hmem : entry ∈ category.chunks.toList) {spot : Nat × Slot}
    (hspot : spot ∈ spots Chunk.headerSize (entry.2.slots entry.1)) :
    spot.1 + Block.headerSize < entry.2.size := by
  obtain ⟨before, after, hslots, -⟩ := mem_spots_iff.1 hspot
  have hvalid := (h.settled hmem).tiled.valid spot.2 (by simp [hslots])
  have hend := spot_le_stop hspot
  rw [(h.settled hmem).tiled.ends, Slot.total] at hend
  have hmin := hvalid.2
  simp only [Block.minPayload] at hmin
  omega

/-- A payload that does not begin in a chunk is none of those of the chunk. -/
theorem freed_of_outside (h : Sound machine category) {entry : Nat × Chunk}
    (hmem : entry ∈ category.chunks.toList) {place : Nat}
    (outside : place ≤ entry.1 ∨ entry.1 + entry.2.size ≤ place) :
    freed [place] entry.1 (entry.2.slots entry.1) = entry.2.slots entry.1 := by
  refine freed_eq_self (h.settled hmem).apart fun spot hspot hin => ?_
  have hinside := h.spot_inside hmem hspot
  have hplace := List.mem_singleton.1 hin
  have hpositive : 0 < Block.headerSize := by decide
  omega

/-- Freeing a payload changes the outline of its chunk only. -/
theorem free_outline (h : Sound machine category) (huses : category.Uses ref size)
    (environment : Environment) :
    ∃ after, Category.free ref environment (machine, category) = (.ok (), machine, after) ∧
      after.mapped = category.mapped ∧
      after.outline = category.outline.map fun entry =>
        (entry.1, entry.2.1, freed [ref.payload] entry.1 entry.2.2) := by
  obtain ⟨address, chunk, before, after, rfl, hmem, hslots⟩ := huses.split
  obtain ⟨final, hrun, hsettled, hkeeps, -⟩ := h.free_block hmem hslots environment
  have hplace : BlockRef.payload ⟨address, stop Chunk.headerSize before⟩ =
      address + stop Chunk.headerSize before + Block.headerSize := (Nat.add_assoc ..).symm
  have hspot : (stop Chunk.headerSize before, ⟨size, false⟩) ∈
      spots Chunk.headerSize (chunk.slots address) :=
    hslots ▸ mem_spots_iff.2 ⟨before, after, rfl, rfl⟩
  have hinside : stop Chunk.headerSize before + Block.headerSize < chunk.size :=
    h.spot_inside hmem hspot
  have hown : freed [BlockRef.payload ⟨address, stop Chunk.headerSize before⟩] address
      (chunk.slots address) = final.slots address := by
    rw [hplace, hslots, freed_singleton (hslots ▸ (h.settled hmem).apart), hsettled.slots_eq]
  obtain ⟨front, back, hold, hnew⟩ :=
    h.toList_changed hmem final (category.used - size)
  -- the payload lies in no other chunk, so freeing it leaves their layouts
  have hother : ∀ entry ∈ front ++ back,
      freed [BlockRef.payload ⟨address, stop Chunk.headerSize before⟩] entry.1
        (entry.2.slots entry.1) = entry.2.slots entry.1 := by
    intro entry hentry
    rw [Chain.mem_around_iff (hold ▸ h.sequence.distinct), ← hold] at hentry
    have hapart := (h.apart entry hentry.2 _ hmem).resolve_left hentry.1
    simp only [Chunk.Apart] at hapart
    exact h.freed_of_outside hentry.2 (by omega)
  refine ⟨_, hrun, rfl, ?_⟩
  rw [outline, outline, hold, hnew, List.map_map]
  simp only [List.map_append, List.map_cons, Function.comp_apply, hown, hkeeps.size]
  congr 1
  · exact List.map_congr_left fun entry hentry => by
      rw [Function.comp_apply, hother entry (List.mem_append_left _ hentry)]
  · refine congrArg _ (List.map_congr_left fun entry hentry => ?_)
    rw [Function.comp_apply, hother entry (List.mem_append_right _ hentry)]

/-- Clearing a category turns each chunk into one free block. -/
theorem outline_cleared (h : Sound machine category) (hcleared : Cleared category category') :
    category'.outline = category.outline.map fun entry =>
      (entry.1, entry.2.1, [Chunk.freshSlot entry.2.1]) := by
  rw [outline, hcleared.chunks, outline, List.map_map, List.map_map]
  refine List.map_congr_left fun entry hentry => ?_
  obtain ⟨-, hsettled, hsize, -⟩ :=
    (h.settled hentry).reset (h.laid entry.1 entry.2 hentry).whole
  simp only [Function.comp_apply, hsize, hsettled.slots_eq]

/-- Freeing every payload of a category turns each chunk into one free block. -/
theorem outline_freed (h : Sound machine category) {addresses : List Nat}
    (all : ∀ ref size, category.Uses ref size → ref.payload ∈ addresses) :
    (category.outline.map fun entry => (entry.1, entry.2.1, freed addresses entry.1 entry.2.2)) =
      category.outline.map fun entry => (entry.1, entry.2.1, [Chunk.freshSlot entry.2.1]) := by
  rw [outline, List.map_map, List.map_map]
  refine List.map_congr_left fun entry hentry => ?_
  have hsettled := h.settled hentry
  have hfreed : freed addresses entry.1 (entry.2.slots entry.1) =
      [Chunk.freshSlot (stop Chunk.headerSize (entry.2.slots entry.1))] := by
    refine freed_all hsettled.nonempty ?_
    rintro ⟨offset, slot⟩ hspot hused
    have huses : category.Uses ⟨entry.1, offset⟩ slot.size :=
      ⟨entry.2, hentry, by simp only at hused; rwa [← hused]⟩
    simpa only [BlockRef.payload, BlockRef.payloadOffset, Nat.add_assoc] using all _ _ huses
  rw [hsettled.tiled.ends] at hfreed
  simp only [Function.comp_apply, hfreed]

/-- Where the outline is one of fresh layouts each chunk is a single free block. -/
theorem blocks_of_fresh (h : Sound machine category) {outline : List (Nat × Nat × List Slot)}
    (hfresh : category.outline =
      outline.map fun entry => (entry.1, entry.2.1, [Chunk.freshSlot entry.2.1]))
    {entry : Nat × Chunk} (hentry : entry ∈ category.chunks.toList) :
    entry.2.blocks entry.1 = .ok [(Chunk.firstBlock entry.1,
        ⟨entry.1, none, entry.2.size - Chunk.headerSize - Block.headerSize, true⟩)] ∧
      entry.2.largestFree = entry.2.size - Chunk.headerSize - Block.headerSize := by
  have hin : (entry.1, entry.2.size, entry.2.slots entry.1) ∈ category.outline :=
    List.mem_map.2 ⟨entry, hentry, rfl⟩
  rw [hfresh] at hin
  obtain ⟨old, -, heq⟩ := List.mem_map.1 hin
  have hsize : old.2.1 = entry.2.size := congrArg (·.2.1) heq
  have hslots : [Chunk.freshSlot old.2.1] = entry.2.slots entry.1 := congrArg (·.2.2) heq
  rw [hsize] at hslots
  have hsettled := hslots ▸ h.settled hentry
  refine ⟨hsettled.blocks_eq, ?_⟩
  rw [hsettled.measured]
  simp [largest, Chunk.freshSlot]

end Sound

end Category

namespace SegregatedList

open Procedure

variable {environment : Environment} {machine machine' : Machine} {list : SegregatedList}
  {index : Fin categoryCount} {ref : BlockRef} {size : Nat} {session : Session}

/-- Two lists look alike, category by category. -/
def Alike (first second : SegregatedList) : Prop :=
  ∀ index : Fin categoryCount, Category.Alike (first.category index) (second.category index)

/-- From one list to another the payloads at some addresses were freed. -/
def Frees (addresses : List Nat) (before after : SegregatedList) : Prop :=
  ∀ index : Fin categoryCount,
    (after.category index).mapped = (before.category index).mapped ∧
      (after.category index).outline = (before.category index).outline.map
        fun entry => (entry.1, entry.2.1, freed addresses entry.1 entry.2.2)

namespace Sound

/-- Sound lists with the same outlines look alike. -/
theorem alike {first second : SegregatedList} (h : Sound machine first) (h' : Sound machine' second)
    (same : ∀ index : Fin categoryCount,
      (first.category index).mapped = (second.category index).mapped ∧
        (first.category index).outline = (second.category index).outline) : Alike first second :=
  fun index => (h.sound index).alike (h'.sound index) ((h.index index).trans (h'.index index).symm)
    ((h.chunkSize index).trans (h'.chunkSize index).symm) (same index).1 (same index).2

/-- Freeing nothing leaves the list as it is. -/
theorem frees_nil (h : Sound machine list) : Frees [] list list := by
  refine fun index => ⟨rfl, ?_⟩
  rw [Category.outline, List.map_map]
  refine List.map_congr_left fun entry hentry => ?_
  rw [Function.comp_apply, freed_eq_self ((h.sound index).settled hentry).apart (by simp)]

/-- Freeing a payload changes the outline of its chunk only. -/
theorem free_frees (h : Sound machine list) (huses : (list.category index).Uses ref size)
    (environment : Environment) :
    ∃ machine' after, SegregatedList.free ref.payload environment (machine, list) =
        (.ok (), machine', after) ∧ Sound machine' after ∧ Frees [ref.payload] list after := by
  obtain ⟨state, hrun, hmapped, houtline⟩ :=
    ((h.of_log (.freed index size ref.payload :: machine.log)).sound index).free_outline huses
      environment
  have hfree := h.free_apply huses environment
  rw [SegregatedList.onCategory, within, hrun] at hfree
  obtain ⟨machine', after, hrun', hsound, -⟩ := h.free huses environment
  have hafter : after = list.withCategory index state :=
    congrArg (fun run => run.2.2) (hrun'.symm.trans hfree)
  refine ⟨machine', after, hrun', hsound, ?_⟩
  rw [hafter]
  refine forall_withCategory (fun i category => category.mapped = (list.category i).mapped ∧
    category.outline = (list.category i).outline.map fun entry =>
      (entry.1, entry.2.1, freed [ref.payload] entry.1 entry.2.2)) ⟨hmapped, houtline⟩
    fun i hne => ⟨rfl, ?_⟩
  -- a chunk of another category lies apart from the chunk of the payload
  obtain ⟨chunk, hmem, hoffset, hend⟩ := h.uses_bounds huses
  rw [Category.outline, List.map_map]
  refine List.map_congr_left fun entry hentry => ?_
  have hapart := h.apart i index hne entry hentry _ hmem
  have houtside : ref.payload ≤ entry.1 ∨ entry.1 + entry.2.size ≤ ref.payload := by
    simp only [Chunk.Apart] at hapart
    rw [BlockRef.payload]
    omega
  rw [Function.comp_apply, (h.sound i).freed_of_outside hentry houtside]

end Sound

/-- Freeing one payload and then the others frees all of them. -/
theorem Frees.cons {first : Nat} {rest : List Nat} {before middle after : SegregatedList}
    (h : Frees [first] before middle) (h' : Frees rest middle after) :
    Frees (first :: rest) before after := by
  refine fun index => ⟨(h' index).1.trans (h index).1, ?_⟩
  rw [(h' index).2, (h index).2, List.map_map]
  exact List.map_congr_left fun entry _ => by simp only [Function.comp_apply, freed_freed]

/-- Which payloads were freed tells what the list looks like. -/
theorem Frees.alike {first second : List Nat} {before left right : SegregatedList}
    (h : Sound machine left) (h' : Sound machine' right) (hfrees : Frees first before left)
    (hfrees' : Frees second before right) (same : ∀ place, place ∈ first ↔ place ∈ second) :
    Alike left right := by
  refine h.alike h' fun index => ⟨(hfrees index).1.trans (hfrees' index).1.symm, ?_⟩
  rw [(hfrees index).2, (hfrees' index).2]
  simp only [freed_congr same]

/-- Freeing live addresses one after the other frees all of them. -/
theorem Session.Reachable.freeing_frees (h : session.Reachable) (fits : environment.FitsAddresses)
    {addresses : List Nat} (distinct : addresses.Nodup)
    (live : ∀ address ∈ addresses, address ∈ session.live.map Prod.fst) :
    Frees addresses session.list (session.freeing environment addresses).list := by
  induction addresses generalizing session with
  | nil => exact h.sound.list.frees_nil
  | cons address rest ih =>
    obtain ⟨hfirst, hrest⟩ := List.nodup_cons.1 distinct
    have haddress := live address (List.mem_cons_self ..)
    have hafter := h.step environment fits (.free address) haddress
    have hstill : ∀ other ∈ rest,
        other ∈ (session.after environment (.free address)).live.map Prod.fst := fun other hother =>
      h.still_live haddress (live other (List.mem_cons_of_mem _ hother))
        (ne_of_mem_of_not_mem hother hfirst) environment
    obtain ⟨ref, index, usable, rfl, huses⟩ := h.sound.exists_uses haddress
    obtain ⟨machine', list', hrun, -, hfrees⟩ := h.sound.list.free_frees huses environment
    have hlist : (session.after environment (.free ref.payload)).list = list' :=
      Session.turn_list.trans (congrArg (·.2.2) hrun)
    exact Frees.cons (hlist ▸ hfrees) (ih hafter hrest hstill)

/-- Once every live payload was freed each layout is that of a fresh chunk. -/
theorem Session.Reachable.outline_freed (h : session.Reachable) {addresses : List Nat}
    {after : SegregatedList} (hfrees : Frees addresses session.list after)
    (all : ∀ address ∈ session.live.map Prod.fst, address ∈ addresses)
    (index : Fin categoryCount) :
    (after.category index).outline = (session.list.category index).outline.map
      fun entry => (entry.1, entry.2.1, [Chunk.freshSlot entry.2.1]) := by
  rw [(hfrees index).2]
  -- a block in use belongs to a live address, so it is freed with the others
  apply (h.sound.list.sound index).outline_freed
  intro ref size huses
  exact all _ (h.accounts.owned (index, ref, size) huses)

/-- Freeing some live addresses in two orders leads to lists that look alike. Freeing all of them
turns each chunk into the one free block that it was when it was mapped, and leads to a list like the
one that clearing leads to. -/
theorem Session.Reachable.freeing_confluent (h : session.Reachable)
    (fits : environment.FitsAddresses) {first second : List Nat} (distinct : first.Nodup)
    (live : ∀ address ∈ first, address ∈ session.live.map Prod.fst) (same : first.Perm second) :
    let left := session.freeing environment first
    let right := session.freeing environment second
    (left.live = session.live.filter fun entry => entry.1 ∉ first) ∧ right.live = left.live ∧
      Alike left.list right.list ∧
      ((∀ address ∈ session.live.map Prod.fst, address ∈ first) →
        Alike left.list (session.after environment .clear).list ∧
        ∀ index : Fin categoryCount, ∀ entry ∈ (left.list.category index).chunks.toList,
          entry.2.blocks entry.1 = .ok [(Chunk.firstBlock entry.1,
              ⟨entry.1, none, entry.2.size - Chunk.headerSize - Block.headerSize, true⟩)] ∧
            entry.2.largestFree = entry.2.size - Chunk.headerSize - Block.headerSize) := by
  intro left right
  have distinct' := same.nodup_iff.1 distinct
  have live' : ∀ address ∈ second, address ∈ session.live.map Prod.fst :=
    fun address hin => live address (same.mem_iff.2 hin)
  obtain ⟨hleft, hliveLeft⟩ := h.freeing fits distinct live
  obtain ⟨hright, hliveRight⟩ := h.freeing fits distinct' live'
  have hfrees := h.freeing_frees fits distinct live
  have hfrees' := h.freeing_frees fits distinct' live'
  refine ⟨hliveLeft, ?_, hfrees.alike hleft.sound.list hright.sound.list hfrees'
    fun _ => same.mem_iff, fun hall => ⟨?_, fun index entry hentry => ?_⟩⟩
  · rw [hliveRight, hliveLeft]
    simp only [same.mem_iff]
  · obtain ⟨list', hrun, hsound, -, hcleared⟩ := h.sound.list.clear environment
    rw [Session.after, Call.run, Session.turn_list, hrun]
    apply hleft.sound.list.alike hsound
    intro index
    refine ⟨(hfrees index).1.trans (hcleared index).balances.mapped.symm, ?_⟩
    -- both outlines have one free slot for each chunk
    rw [h.outline_freed hfrees hall index,
      (h.sound.list.sound index).outline_cleared (hcleared index)]
  · exact (hleft.sound.list.sound index).blocks_of_fresh (h.outline_freed hfrees hall index) hentry

end SegregatedList

end PagedAlloc

namespace PagedAlloc.SegregatedList

open Layout
open Procedure

attribute [local instance] Size.Paging.common

/-- Three payloads next to each other, the outer two freed in both orders, and all of them. -/
theorem freeing_confluent_of_three :
    let session := ((Session.after ⟨.fresh, .empty, []⟩ .ordinary (.allocate 64 true)).after
      .ordinary (.allocate 50 false)).after .ordinary (.allocate 64 false)
    session.live = [(65808, 64), (65712, 50), (65616, 64)] ∧
      Alike (session.freeing .ordinary [65616, 65808]).list
        (session.freeing .ordinary [65808, 65616]).list ∧
      Alike (session.freeing .ordinary [65808, 65616, 65712]).list
        (session.after .ordinary .clear).list := by
  intro session
  have fits := Environment.ordinary_fitsAddresses
  have reachable : session.Reachable :=
    (((Session.Reachable.start .fresh).step .ordinary fits (.allocate 64 true) trivial).step
      .ordinary fits (.allocate 50 false) trivial).step .ordinary fits (.allocate 64 false) trivial
  have live : session.live = [(65808, 64), (65712, 50), (65616, 64)] := by decide +kernel
  have outer := reachable.freeing_confluent fits (show [65616, 65808].Nodup by decide)
    (by rw [live]; decide) (List.Perm.swap ..)
  have all := reachable.freeing_confluent fits (show [65808, 65616, 65712].Nodup by decide)
    (by rw [live]; decide) (List.Perm.refl _)
  exact ⟨live, outer.2.2.1, (all.2.2.2 (by rw [live]; decide)).1⟩

end PagedAlloc.SegregatedList
