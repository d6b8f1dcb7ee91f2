import PagedAlloc.Proofs.FreeOrder
import PagedAlloc.Proofs.LargestFree
import PagedAlloc.Proofs.Mirrors

/-!
# Categories without hints

A category passes over chunks by what they remember of their largest free block. A plain category
remembers nothing: it is the list of its chunks with their layouts, it looks at every block from the
first one on, and it merges free blocks by looking at whole layouts. Here each operation of a sound
category is mirrored by that of the plain one, which is the category without its hints
(`Category.plain`).
-/

namespace PagedAlloc

variable {paging : Size.Paging}

namespace Layout

/-- The slots in front of an offset, the slot there, and the slots behind it. -/
def around (offset : Nat) : (start : Nat) → List Slot → Option (List Slot × Slot × List Slot)
  | _, [] => none
  | start, slot :: rest =>
    if start = offset then some ([], slot, rest)
    else (around offset (start + slot.total) rest).map fun (before, found, after) =>
      (slot :: before, found, after)

/-- The slot behind a prefix is found at the end of the prefix. -/
theorem around_stop (start : Nat) (before : List Slot) (slot : Slot) (after : List Slot) :
    around (stop start before) start (before ++ slot :: after) = some (before, slot, after) := by
  induction before generalizing start with
  | nil => exact if_pos rfl
  | cons first rest ih =>
    have hpositive := total_pos first
    have hle := le_stop (start + first.total) rest
    rw [stop, List.cons_append, around, if_neg (by omega), ih]
    rfl

/-- Where a slot is cut does not depend on whether it is free. -/
theorem cut_mark (shared : Bool) (size : Nat) (slot : Slot) (isFree : Bool) :
    cut shared size ⟨slot.size, isFree⟩ =
      (⟨(cut shared size slot).1.size, isFree⟩, (cut shared size slot).2) := by
  unfold cut
  split <;> rfl

/-- In a layout that lacks large free slots no visited block serves. -/
theorem not_serves_of_lacks {size address : Nat} {slots : List Slot}
    (lacks : ∀ slot ∈ slots, slot.isFree = true → slot.size < size)
    {prev : Option Nat} {start : Nat} {block : BlockRef × BlockHeader}
    (hblock : block ∈ visited address prev start slots) :
    ¬ (block.2.isFree && size ≤ block.2.size : Bool) = true := by
  obtain ⟨-, -, hspot⟩ := spot_of_mem_visited hblock
  obtain ⟨before, after, hslots, -⟩ := mem_spots_iff.1 hspot
  have hsmall := lacks ⟨block.2.size, block.2.isFree⟩ (by simp [hslots])
  simp only [Bool.and_eq_true, decide_eq_true_eq, not_and, Nat.not_le]
  exact hsmall

end Layout

open Layout

/-! ## Plain categories -/

/-- A category without hints. -/
structure PlainCategory where
  /-- Index in the segregated list. -/
  index : Nat
  /-- Length of each chunk; none if each chunk is made for one payload. -/
  chunkSize : Option Nat
  /-- The chunks with their addresses, their lengths and their layouts. -/
  chunks : List (Nat × Nat × List Slot)
  /-- Mapped bytes. -/
  mapped : Nat
  deriving DecidableEq, Repr

namespace PlainCategory

open Procedure

/-- All blocks, in the order of the chunks and of the addresses in each of them. -/
def blocks (category : PlainCategory) : List (BlockRef × BlockHeader) :=
  category.chunks.flatMap fun (address, _, slots) => visited address none Chunk.headerSize slots

/-- What is in the chunks. -/
def layout (category : PlainCategory) : List ChunkLayout :=
  category.chunks.map fun (address, length, slots) =>
    ⟨length, category.index, largest slots,
      (visited address none Chunk.headerSize slots).map Prod.snd⟩

/-- The slot of a block, with the slots in front of it and behind it. -/
def locate (category : PlainCategory) (ref : BlockRef) : Option (List Slot × Slot × List Slot) :=
  (category.chunks.lookup ref.chunk).bind fun (_, slots) =>
    around ref.offset Chunk.headerSize slots

/-- The category after a chunk got another layout, in which free slots next to each other are
merged. -/
def lay (category : PlainCategory) (address : Nat) (slots : List Slot) : PlainCategory :=
  { category with chunks := category.chunks.map fun (place, length, old) =>
      (place, length, if place = address then merged slots else old) }

/-- The category after a slot of a chunk was cut after `size` bytes, if that leaves a block. -/
def layCut (category : PlainCategory) (address size : Nat) (before : List Slot) (slot : Slot)
    (after : List Slot) : PlainCategory :=
  let parts := cut category.chunkSize.isSome size slot
  category.lay address (before ++ parts.1 :: (parts.2 ++ after))

/-- Of two layouts that a chunk got one after the other the second one counts. -/
theorem lay_lay (category : PlainCategory) (address : Nat) (first second : List Slot) :
    (category.lay address first).lay address second = category.lay address second := by
  simp only [lay, List.map_map, mk.injEq, true_and, and_true]
  refine List.map_congr_left fun entry _ => ?_
  by_cases hplace : entry.1 = address
  · simp [hplace]
  · simp [hplace]

/-- A cut leaves the head of the slot, and the rest if there is one. -/
theorem layCut_eq {category : PlainCategory} {size : Nat} {slot head : Slot} {rest : List Slot}
    (hcut : cut category.chunkSize.isSome size slot = (head, rest)) (address : Nat)
    (before after : List Slot) :
    category.layCut address size before slot after =
      category.lay address (before ++ head :: (rest ++ after)) := by
  rw [layCut, hcut]

/-- Finds a block. -/
def find (ref : BlockRef) : Procedure (Machine × PlainCategory) (List Slot × Slot × List Slot) := do
  match (← own).locate ref with
  | some found => return found
  | none => crash (.missingRecord ref.address)

/-- The first free block with at least `size` bytes. -/
def firstFit? (category : PlainCategory) (size : Nat) : Option BlockRef :=
  (category.blocks.find? fun (_, header) => header.isFree && size ≤ header.size).map Prod.fst

/-- The length of a chunk that is mapped for a payload of `size` bytes. -/
def chunkLength [Size.Paging] (size : Nat) : Procedure (Machine × PlainCategory) Nat := do
  match (← own).chunkSize with
  | some length => return length
  | none => orFail .overflow (Chunk.lengthFor? size)

/-- Counts a chunk that was put behind the others. -/
def countChunk (address length : Nat) : Procedure (Machine × PlainCategory) Unit := do
  let mapped ← checked (Size.add (← own).mapped length)
  modifyOwn fun category => { category with mapped := mapped }
  let category ← own
  note (.chunkChained category.index category.chunks.length address length)

/-- Puts a mapping behind the other chunks, as one free block. -/
def chainChunk (address length : Nat) : Procedure (Machine × PlainCategory) Unit := do
  modifyOwn fun category =>
    { category with chunks := category.chunks ++ [(address, length, [Chunk.freshSlot length])] }
  countChunk address length

/-- Maps a chunk that holds at least `size` bytes of payload, and gives its address. -/
def mapChunk [Size.Paging] (size : Nat) : Procedure (Machine × PlainCategory) Nat := do
  let length ← chunkLength size
  ensure (size ≤ (← checked (Chunk.freshCapacity length))) (.freshChunkTooSmall length size)
  let address ← orFail (.outOfMemory length) (← ask (Pages.map length))
  chainChunk address length
  return address

/-- Takes a free block into use, without what `size` bytes of payload do not need. -/
def take (ref : BlockRef) (size : Nat) : Procedure (Machine × PlainCategory) Unit := do
  let (before, slot, after) ← find ref
  modifyOwn (·.layCut ref.chunk size before ⟨slot.size, false⟩ after)

/-- The first free block that is large enough, or else the one of a fresh chunk. -/
def findOrMap [Size.Paging] (size : Nat) : Procedure (Machine × PlainCategory) BlockRef := do
  match (← own).firstFit? size with
  | some ref => return ref
  | none => return Chunk.firstBlock (← mapChunk size)

/-- Takes the first free block that is large enough into use, or else one in a fresh chunk. -/
def allocate [Size.Paging] (size : Nat) : Procedure (Machine × PlainCategory) BlockRef := do
  let ref ← findOrMap size
  take ref size
  return ref

/-- Gives a block back. -/
def free (ref : BlockRef) : Procedure (Machine × PlainCategory) Unit := do
  let (before, slot, after) ← find ref
  modifyOwn (·.lay ref.chunk (before ++ ⟨slot.size, true⟩ :: after))

/-- Shrinks a block in use to `size` bytes, if the rest of it can be a block. -/
def shrink (ref : BlockRef) (size : Nat) : Procedure (Machine × PlainCategory) Unit := do
  let (before, slot, after) ← find ref
  modifyOwn (·.layCut ref.chunk size before slot after)

/-- Grows a block in use to at least `size` bytes over the free one behind it, if that is large
enough and blocks are cut. Tells whether it did so. -/
def grow (ref : BlockRef) (size : Nat) : Procedure (Machine × PlainCategory) Bool := do
  let (before, slot, after) ← find ref
  match after with
  | [] => return false
  | next :: after =>
    if (← own).chunkSize.isSome ∧ next.isFree ∧ size ≤ slot.size + next.total then
      modifyOwn (·.layCut ref.chunk size before ⟨slot.size + next.total, slot.isFree⟩ after)
      return true
    else
      return false

/-- Turns each chunk into one free block. -/
def clear : Procedure (Machine × PlainCategory) Unit :=
  modifyOwn fun category =>
    { category with
      chunks := category.chunks.map fun (address, length, _) =>
        (address, length, [Chunk.freshSlot length]) }

/-- Gives a chunk of some length back to the kernel, and tells the length. -/
def dropChunk [Size.Paging] (address length : Nat) : Procedure (Machine × PlainCategory) Nat := do
  modifyOwn fun category =>
    { category with chunks := category.chunks.eraseP fun entry => entry.1 = address }
  ask (Pages.unmap address length)
  let mapped ← checked (Size.sub (← own).mapped length)
  modifyOwn fun category => { category with mapped := mapped }
  note (.chunkReleased (← own).index length)
  return length

/-- Gives a chunk back to the kernel, and tells how many bytes that were. -/
def unmapChunk [Size.Paging] (address : Nat) : Procedure (Machine × PlainCategory) Nat := do
  match (← own).chunks.lookup address with
  | none => crash (.missingRecord address)
  | some (length, _) => dropChunk address length

/-- Gives some chunks back to the kernel, and tells how many bytes that were together. -/
def releaseEach [Size.Paging] : List Nat → Procedure (Machine × PlainCategory) Nat
  | [] => return 0
  | address :: rest => do
    let length ← unmapChunk address
    let others ← releaseEach rest
    checked (Size.add length others)

/-- Gives the chunks without a block in use back to the kernel. Tells how many bytes that were. -/
def trim [Size.Paging] : Procedure (Machine × PlainCategory) Nat := do
  releaseEach (((← own).chunks.filter fun (_, _, slots) => slots.all (·.isFree)).map Prod.fst)

end PlainCategory

/-! ## Categories without their hints -/

namespace Category

open Procedure

/-- A category without its hints. -/
def plain (category : Category) : PlainCategory :=
  ⟨category.index, category.chunkSize, category.outline, category.mapped⟩

variable {environment : Environment} {machine machine' : Machine} {category : Category}
  {address length size : Nat} {chunk : Chunk} {ref : BlockRef} {slot : Slot}
  {before after slots : List Slot}

/-- The blocks of a plain category are those that a walk through its chunks visits. -/
theorem blocks_plain (category : Category) :
    category.plain.blocks = category.chunks.toList.flatMap fun entry =>
      visited entry.1 none Chunk.headerSize (entry.2.slots entry.1) := by
  rw [PlainCategory.blocks, plain, outline, List.flatMap_map]

namespace Sound

/-- What a plain category finds at the address of a chunk. -/
theorem lookup_outline (h : Sound machine category)
    (hmem : (address, chunk) ∈ category.chunks.toList) :
    category.outline.lookup address = some (chunk.size, chunk.slots address) := by
  refine Chain.lookup_eq_some_of_mem ?_ (List.mem_map.2 ⟨(address, chunk), hmem, rfl⟩)
  rw [outline, List.map_map]
  exact h.sequence.distinct

/-- A plain category finds the slot of a block by the offset alone. -/
theorem locate_eq (h : Sound machine category) (hmem : (address, chunk) ∈ category.chunks.toList)
    (hslots : chunk.slots address = before ++ slot :: after) :
    category.plain.locate ⟨address, stop Chunk.headerSize before⟩ = some (before, slot, after) := by
  have hlookup : category.plain.chunks.lookup address = _ := h.lookup_outline hmem
  rw [PlainCategory.locate, hlookup, hslots]
  exact around_stop ..

/-- What a plain category finds is the slot of the block with its neighbours. -/
theorem find_apply (h : Sound machine category) (hmem : (address, chunk) ∈ category.chunks.toList)
    (hslots : chunk.slots address = before ++ slot :: after) (environment : Environment) :
    PlainCategory.find ⟨address, stop Chunk.headerSize before⟩ environment
        (machine', category.plain) = (.ok (before, slot, after), machine', category.plain) := by
  rw [PlainCategory.find, bind_apply_ok _ _ (own_apply ..)]
  simp only [h.locate_eq hmem hslots]
  rfl

/-- Replacing a chunk by a settled one changes a layout. -/
theorem plain_changed (h : Sound machine category)
    (hmem : (address, chunk) ∈ category.chunks.toList) {final : Chunk} {shared : Bool}
    (hsettled : final.Settled shared address (merged slots)) (hsize : final.size = chunk.size)
    (used : Nat) :
    (category.changed address final used).plain = category.plain.lay address slots := by
  have hchunks : (category.changed address final used).outline =
      category.outline.map fun (place, length, old) =>
        (place, length, if place = address then merged slots else old) := by
    simp only [outline, changed, h.sequence.toList_put, Chain.replaced, List.map_map]
    refine List.map_congr_left fun entry hentry => ?_
    obtain ⟨place, other⟩ := entry
    by_cases heq : place = address
    · subst heq
      obtain rfl := h.sequence.mem_unique hentry hmem
      simp [hsettled.slots_eq, hsize]
    · simp [heq]
  rw [plain, hchunks]
  rfl

/-- Laying out a chunk as it is laid out already changes nothing. -/
theorem lay_self (h : Sound machine category)
    (hmem : (address, chunk) ∈ category.chunks.toList) (hmerged : merged slots = chunk.slots address) :
    category.plain.lay address slots = category.plain := by
  have hsame := h.plain_changed hmem (hmerged.symm ▸ h.settled hmem) rfl category.used
  rw [h.changed_self hmem] at hsame
  exact hsame.symm

/-! ### Searching -/

/-- The search with hints finds what the search through all blocks finds. -/
theorem firstFit_plain (h : Sound machine category) (size : Nat) :
    ∃ before, firstFit size category.chunks.toList =
      .ok ((category.plain.firstFit? size).map fun ref => (ref, before)) := by
  rw [PlainCategory.firstFit?, blocks_plain]
  rcases firstFit_cases size fun entry hentry => ⟨_, h.settled hentry⟩ with ⟨hnone, hall⟩ |
    ⟨front, address, chunk, back, before, slot, after, hlist, hfront, hslots, hbefore, hfree, hfits,
      hfound⟩
  · refine ⟨0, hnone.trans ?_⟩
    rw [List.find?_eq_none.2]
    · rfl
    · intro block hblock
      obtain ⟨entry, hentry, hvisited⟩ := List.mem_flatMap.1 hblock
      exact not_serves_of_lacks (hall entry hentry) hvisited
  · refine ⟨largest before, hfound.trans ?_⟩
    rw [hlist, List.flatMap_append, List.flatMap_cons, hslots, visited_append, List.append_assoc,
      List.find?_append, List.find?_eq_none.2, Option.none_or, List.find?_append,
      List.find?_eq_none.2, Option.none_or, visited, List.cons_append, List.find?_cons_of_pos]
    · rfl
    · simp [hfree, hfits]
    · exact fun block => not_serves_of_lacks hbefore
    · intro block hblock
      obtain ⟨entry, hentry, hvisited⟩ := List.mem_flatMap.1 hblock
      exact not_serves_of_lacks (hfront entry hentry) hvisited

/-! ### Mapping chunks -/

/-- A fresh chunk is chained as one free slot, after all others. -/
theorem chainChunk_plain (h : Sound machine category) (hfits : environment.FitsAddresses)
    (hgranted : Pages.Granted environment machine machine' address length)
    (hwhole : Size.pageSize ∣ length) :
    Mirrored plain environment machine' category (Category.chainChunk address length)
      (PlainCategory.chainChunk address length) := by
  obtain ⟨fresh, rfl, hsettled, -, hrun⟩ := h.chainChunk_apply hfits hgranted hwhole
  obtain ⟨hlist, hsequence⟩ := h.toList_append hgranted
  have hplain : ∀ mapped, plain
      { category with chunks := category.chunks.append address fresh, mapped := mapped } =
        { category.plain with
          chunks := category.plain.chunks ++ [(address, fresh.size, [Chunk.freshSlot fresh.size])]
          mapped := mapped } := by
    intro mapped
    simp only [plain, outline, hlist, List.map_append, List.map_singleton, hsettled.slots_eq]
  have hlength : ∀ mapped, (category.chunks.append address fresh).length =
      (plain { category with
        chunks := category.chunks.append address fresh, mapped := mapped }).chunks.length := by
    intro mapped
    simp only [plain, outline, List.length_map, hsequence.length]
  refine Mirrored.of_eq
    (?_ : Mirrored _ _ _ _ _ (PlainCategory.countChunk address fresh.size)) hrun ?_
  · refine Mirrored.own_bind <| Mirrored.checked_bind fun mapped _ =>
      Mirrored.modifyOwn_bind rfl <| Mirrored.own_bind ?_
    simp only [hlength mapped]
    exact .ask _
  · rw [PlainCategory.chainChunk, bind_apply_ok _ _ (modifyOwn_apply ..), hplain]
    rfl

/-- Both ask for pages of the same length, so both get a chunk or neither does. -/
theorem mapChunk_plain (h : Sound machine category) (hfits : environment.FitsAddresses)
    (size : Nat) :
    Mirrored plain environment machine category (Category.mapChunk size)
      (PlainCategory.mapChunk size) := by
  have hlength : Mirrored plain environment machine category (Category.chunkLength size)
      (PlainCategory.chunkLength size) := by
    refine Mirrored.own_bind ?_
    simp only [plain]
    cases category.chunkSize with
    | none => exact .orFail ..
    | some length => exact .of_value ..
  refine hlength.bind fun length machine₁ category₁ hrun => ?_
  obtain ⟨_, hlength', hchosen⟩ := chunkLength_cases h.whole environment machine size
  obtain ⟨rfl, rfl, rfl⟩ : _ ∧ machine = machine₁ ∧ category = category₁ := by
    simpa using hlength'.symm.trans hrun
  obtain ⟨_, heq, -, hwhole, -⟩ := hchosen.resolve_left (by simp)
  obtain rfl := Except.ok.inj heq
  refine Mirrored.checked_bind fun capacity _ => Mirrored.ensure_bind fun _ =>
    Mirrored.ask_bind fun granted machine' hmap => Mirrored.orFail_bind fun address hsome => ?_
  obtain ⟨_, _, hmap', hcases⟩ := Pages.map_cases environment machine hwhole
  obtain ⟨rfl, rfl⟩ : some address = _ ∧ machine' = _ := by
    simpa [hsome] using hmap.symm.trans hmap'
  obtain ⟨_, heq, hgranted⟩ := hcases.resolve_left (by simp)
  obtain rfl := Option.some.inj heq
  exact (h.chainChunk_plain hfits hgranted hwhole).bind fun _ _ _ _ => .of_value ..

/-! ### Operations on blocks -/

/-- After a block was found the layout of its chunk is changed. -/
theorem lay_plain (h : Sound machine category) (hmem : (address, chunk) ∈ category.chunks.toList)
    (hslots : chunk.slots address = before ++ slot :: after) {final : Chunk} {shared : Bool}
    {used : Nat} {laid : List Slot} {left : PlainCategory}
    (hsettled : final.Settled shared address slots)
    (hsize : final.size = chunk.size) (hmerged : merged laid = slots) {α : Type}
    {procedure : Procedure (Machine × Category) α} {value : α}
    {next : List Slot × Slot × List Slot → Procedure (Machine × PlainCategory) α}
    (hrun : procedure environment (machine, category) =
      (.ok value, machine, category.changed address final used))
    (hnext : next (before, slot, after) environment (machine, category.plain) =
      (.ok value, machine, left)) (hleft : left = category.plain.lay address laid) :
    Mirrored plain environment machine category procedure
      (PlainCategory.find ⟨address, stop Chunk.headerSize before⟩ >>= next) := by
  refine ⟨_, _, _, hrun, ?_⟩
  rw [bind_apply_ok _ _ (h.find_apply hmem hslots environment), hnext, hleft,
    h.plain_changed hmem (hmerged.symm ▸ hsettled) hsize]

/-- Taking a free block is mirrored: the hint is told from what is in front of the block. -/
theorem take_plain (h : Sound machine category) (hmem : (address, chunk) ∈ category.chunks.toList)
    (hslots : chunk.slots address = before ++ slot :: after) (free : slot.isFree = true)
    (fits : size ≤ slot.size) (valid : Slot.Valid ⟨size, true⟩) (environment : Environment) :
    Mirrored plain environment machine category
      (Category.take ⟨address, stop Chunk.headerSize before⟩ size (largest before))
      (PlainCategory.take ⟨address, stop Chunk.headerSize before⟩ size) := by
  obtain ⟨final, hrun, hsettled, hkeeps⟩ := h.take_block hmem hslots free fits valid environment
  exact h.lay_plain hmem hslots hsettled hkeeps.size (merged_eq_self hsettled.apart) hrun rfl
    (PlainCategory.layCut_eq (cut_mark ..) ..)

/-- Freeing is mirrored: the neighbours that the headers lead to are the slots beside the block. -/
theorem free_plain (h : Sound machine category) (huses : category.Uses ref size)
    (environment : Environment) :
    Mirrored plain environment machine category (Category.free ref) (PlainCategory.free ref) := by
  obtain ⟨address, chunk, before, after, rfl, hmem, hslots⟩ := huses.split
  obtain ⟨final, hrun, hsettled, hkeeps, -⟩ := h.free_block hmem hslots environment
  obtain ⟨hbefore, -, hafter⟩ := (h.settled_split hmem hslots).apart_parts
  exact h.lay_plain hmem hslots hsettled hkeeps.size (coalesced_eq rfl hbefore hafter).symm hrun
    rfl rfl

/-- Shrinking in place is mirrored. -/
theorem shrink_plain (h : Sound machine category) {old : Nat} (huses : category.Uses ref old)
    (fits : size ≤ old) (valid : Slot.Valid ⟨size, false⟩) (environment : Environment) :
    Mirrored plain environment machine category (Category.shrink ref size)
      (PlainCategory.shrink ref size) := by
  obtain ⟨address, chunk, before, after, rfl, hmem, hslots⟩ := huses.split
  have hsettled := h.settled_split hmem hslots
  obtain ⟨hbefore, -, hafter⟩ := hsettled.apart_parts
  by_cases hroom : category.chunkSize.isSome = true ∧
    size + Block.headerSize + Block.minPayload ≤ old
  · obtain ⟨final, hrun, hsettled', hkeeps, -⟩ :=
      h.shrink_cut hmem hslots hroom.1 hroom.2 valid environment
    have hcut : cut category.plain.chunkSize.isSome size ⟨old, false⟩ =
        (⟨size, false⟩, [⟨old - size - Block.headerSize, true⟩]) := if_pos hroom
    refine h.lay_plain hmem hslots hsettled' hkeeps.size
      (coalesced_eq rfl (apart_around_used rfl hbefore List.isChain_nil) hafter).symm hrun rfl ?_
    rw [List.append_assoc]
    exact PlainCategory.layCut_eq hcut ..
  · have hrun : Category.shrink ⟨address, stop Chunk.headerSize before⟩ size environment
        (machine, category) = (.ok (), machine, category.changed address chunk category.used) := by
      rw [h.changed_self hmem]
      exact h.shrink_refused hmem hslots fits
        (fun hshared => Nat.lt_of_not_le fun hle => hroom ⟨hshared, hle⟩) environment
    have hcut : cut category.plain.chunkSize.isSome size ⟨old, false⟩ = (⟨old, false⟩, []) :=
      if_neg hroom
    exact h.lay_plain hmem hslots hsettled rfl (merged_eq_self hsettled.apart) hrun rfl
      (PlainCategory.layCut_eq hcut ..)

/-- Growing in place is mirrored: both look at the slot behind the block and nowhere else. -/
theorem grow_plain (h : Sound machine category) {old : Nat} (huses : category.Uses ref old)
    (more : old < size) (valid : Slot.Valid ⟨size, false⟩) (environment : Environment) :
    Mirrored plain environment machine category (Category.grow ref size)
      (PlainCategory.grow ref size) := by
  obtain ⟨address, chunk, before, after, rfl, hmem, hslots⟩ := huses.split
  -- the block grows only if the slot behind it is free and large enough
  by_cases hroom : category.chunkSize.isSome = true ∧
    ∃ next rest, after = next :: rest ∧ next.isFree = true ∧ size ≤ old + next.total
  · obtain ⟨hshared, next, rest, rfl, hfree, hfits⟩ := hroom
    obtain ⟨final, taken, behind, hcut, -, hrun, hsettled, hkeeps, -⟩ :=
      h.grow_over hmem hslots hshared hfree more hfits valid environment
    have hgrows : category.plain.chunkSize.isSome ∧ next.isFree ∧ size ≤ old + next.total :=
      ⟨hshared, hfree, hfits⟩
    have hparts : cut category.plain.chunkSize.isSome size ⟨old + next.total, false⟩ = _ :=
      (congrArg (cut · _ _) hshared).trans hcut
    refine h.lay_plain hmem hslots hsettled hkeeps.size (merged_eq_self hsettled.apart) hrun ?_
      (PlainCategory.layCut_eq hparts ..)
    simp only
    rw [bind_apply_ok _ _ (own_apply ..), if_pos hgrows]
    rfl
  · refine ⟨_, _, _, h.grow_refused hmem hslots (fun hshared next rest hafter hfree =>
      Nat.lt_of_not_le fun hle => hroom ⟨hshared, next, rest, hafter, hfree, hle⟩) environment, ?_⟩
    rw [PlainCategory.grow, bind_apply_ok _ _ (h.find_apply hmem hslots environment)]
    cases after with
    | nil => rfl
    | cons next rest =>
      have hstays : ¬ (category.plain.chunkSize.isSome ∧ next.isFree ∧ size ≤ old + next.total) :=
        fun hall => hroom ⟨hall.1, next, rest, rfl, hall.2⟩
      simp only
      rw [bind_apply_ok _ _ (own_apply ..), if_neg hstays]
      rfl

/-- Both find the same block, or map the same chunk. -/
theorem findOrMap_plain (h : Sound machine category) (hfits : environment.FitsAddresses)
    {result : Except Stop (BlockRef × Nat)} {after : Category}
    (hrun : Category.findOrMap size environment (machine, category) = (result, machine', after)) :
    PlainCategory.findOrMap size environment (machine, category.plain) =
      (result.map Prod.fst, machine', after.plain) := by
  obtain ⟨before, hfit⟩ := h.firstFit_plain size
  rw [Category.findOrMap, bind_apply_ok _ _ (own_apply ..)] at hrun
  rw [PlainCategory.findOrMap, bind_apply_ok _ _ (own_apply ..)]
  simp only [hfit] at hrun ⊢
  rw [bind_apply_ok _ _ (checked_ok ..)] at hrun
  -- the first fit is the same with and without hints, so both map a chunk or neither does
  cases hfound : category.plain.firstFit? size with
  | some ref =>
    simp only [hfound, Option.map_some] at hrun ⊢
    cases hrun
    rfl
  | none =>
    obtain ⟨mapped, machine₁, after₁, hmap, hmirror⟩ := h.mapChunk_plain hfits size
    simp only [hfound, Option.map_none] at hrun ⊢
    cases mapped with
    | error reason =>
      rw [bind_apply_error _ _ hmap] at hrun
      rw [bind_apply_error _ _ hmirror]
      cases hrun
      rfl
    | ok address =>
      rw [bind_apply_ok _ _ hmap] at hrun
      rw [bind_apply_ok _ _ hmirror]
      cases hrun
      rfl

/-- Allocating is mirrored: the chunks that are passed over because of their hints have no block
that serves. -/
theorem allocate_plain (h : Sound machine category) (hfits : environment.FitsAddresses)
    (valid : Slot.Valid ⟨size, true⟩) :
    Mirrored plain environment machine category (Category.allocate size)
      (PlainCategory.allocate size) := by
  obtain ⟨result, machine', middle, hfind, hsound, -, hfound, -, -⟩ := h.findOrMap hfits size
  have hmirror := h.findOrMap_plain hfits hfind
  cases result with
  | error reason => exact ⟨_, _, _, bind_apply_error _ _ hfind, bind_apply_error _ _ hmirror⟩
  | ok found =>
    obtain ⟨address, chunk, before, slot, back, hmem, hslots, hfree, hlarge, rfl⟩ :=
      hfound found rfl
    exact ((hsound.take_plain hmem hslots hfree hlarge valid environment).bind
      fun _ _ _ _ => .of_value ..).of_eq (bind_apply_ok _ _ hfind) (bind_apply_ok _ _ hmirror)

/-- Plain categories know nothing of contents, so a write has no counterpart. -/
theorem write_plain (h : Sound machine category) {offset : Nat} {content : Stretch BlockHeader}
    (huses : category.Uses ref size) (fits : offset + content.length ≤ size)
    (environment : Environment) :
    Mirrored plain environment machine category (Action.run (.write ref offset content))
      (pure ()) := by
  obtain ⟨address, chunk, before, after, rfl, hmem, hslots⟩ := huses.split
  obtain ⟨hrun, hwritten, hkeeps⟩ := h.write_block hmem hslots fits environment
  have hmerged := merged_eq_self hwritten.apart
  have hafter := h.plain_changed hmem (hmerged.symm ▸ hwritten) hkeeps.size category.used
  rw [h.lay_self hmem (hmerged.trans hslots.symm)] at hafter
  exact ⟨_, _, _, hrun, congrArg (Except.ok (), machine, ·) hafter.symm⟩

/-! ### Operations on chunks -/

/-- Clearing is mirrored: every chunk is one free slot again. -/
theorem clear_plain (h : Sound machine category) (environment : Environment) :
    Mirrored plain environment machine category Category.clear PlainCategory.clear := by
  obtain ⟨after, hrun, -, hevolves, hcleared⟩ := h.clear environment
  have hindex : after.index = category.index := hevolves.index
  have hchunkSize : after.chunkSize = category.chunkSize := hevolves.chunkSize
  refine ⟨_, _, _, hrun, ?_⟩
  rw [PlainCategory.clear, modifyOwn_apply]
  simp only [plain, h.outline_cleared hcleared, hindex, hchunkSize, hcleared.balances.mapped]

/-- Unmapping a chunk is mirrored. -/
theorem unmapChunk_plain (h : Sound machine category)
    (hmem : (address, chunk) ∈ category.chunks.toList) (environment : Environment) :
    Mirrored plain environment machine category (Category.unmapChunk address)
      (PlainCategory.unmapChunk address) := by
  obtain ⟨front, back, hlist, hrest, -⟩ := h.sequence.toList_remove_middle hmem
  have hremoved : plain { category with chunks := category.chunks.remove address } =
      { category.plain with
        chunks := category.plain.chunks.eraseP fun entry => entry.1 = address } := by
    have hfront : ∀ entry ∈ front.map fun entry => (entry.1, entry.2.size, entry.2.slots entry.1),
        ¬ (decide (entry.1 = address) = true) := by
      intro entry hentry
      obtain ⟨old, hold, rfl⟩ := List.mem_map.1 hentry
      have haround := (Chain.mem_around_iff (hlist ▸ h.sequence.distinct)).1
        (List.mem_append_left back hold)
      simpa using haround.1
    simp only [plain, outline, hlist, hrest, List.map_append, List.map_cons]
    rw [List.eraseP_append_right _ hfront, List.eraseP_cons_of_pos (by simp)]
  have hlookup : category.plain.chunks.lookup address = _ := h.lookup_outline hmem
  refine Mirrored.of_eq (?_ : Mirrored _ _ _ _ _ (PlainCategory.dropChunk address chunk.size))
    (bind_apply_ok _ _ (chunkAt_apply (h.get?_eq hmem))) ?_
  · exact Mirrored.modifyOwn_bind hremoved <| Mirrored.ask_bind fun _ _ _ => Mirrored.own_bind <|
      Mirrored.checked_bind fun _ _ => Mirrored.modifyOwn_bind rfl <| Mirrored.own_bind <|
      Mirrored.ask_bind fun _ _ _ => .of_value ..
  · rw [PlainCategory.unmapChunk, bind_apply_ok _ _ (own_apply ..)]
    simp only [hlookup]

/-- By induction over the chunks that are given back, which are idle until their turn comes. -/
theorem releaseEach_plain (h : Sound machine category) {addresses : List Nat}
    (hdistinct : addresses.Nodup)
    (hidle : ∀ address ∈ addresses, ∃ chunk, (address, chunk) ∈ category.chunks.toList ∧
      Idle (address, chunk)) (environment : Environment) :
    Mirrored plain environment machine category (Category.releaseEach addresses)
      (PlainCategory.releaseEach addresses) := by
  induction addresses generalizing machine category with
  | nil => exact .of_value ..
  | cons address rest ih =>
    obtain ⟨chunk, hmem, hunused⟩ := hidle address (List.mem_cons_self ..)
    rw [List.nodup_cons] at hdistinct
    refine (h.unmapChunk_plain hmem environment).bind fun length machine' middle hrun => ?_
    obtain ⟨result, _, _, hrun', hsound, -, hkept, -⟩ := h.unmapChunk hmem hunused environment
    cases hrun.symm.trans hrun'
    refine (ih hsound hdistinct.2 fun place hplace => ?_).bind fun others _ _ _ => .checked _
    obtain ⟨other, hother, hfree⟩ := hidle place (List.mem_cons_of_mem _ hplace)
    exact ⟨other, hkept _ hother fun heq => hdistinct.1 (heq ▸ hplace), hfree⟩

/-- Trimming is mirrored: a chunk is idle if its layout is one free slot. -/
theorem trim_plain (h : Sound machine category) (environment : Environment) :
    Mirrored plain environment machine category Category.trim PlainCategory.trim := by
  obtain ⟨hdistinct, hidle⟩ := h.unused_idle
  refine (h.releaseEach_plain hdistinct hidle environment).of_eq ?_ ?_
  · rw [Category.trim, bind_apply_ok _ _ (own_apply ..),
      unused_eq fun entry hentry => ⟨_, h.settled hentry⟩, bind_apply_ok _ _ (checked_ok ..)]
  · rw [PlainCategory.trim, bind_apply_ok _ _ (own_apply ..)]
    simp only [plain, outline, List.filter_map, List.map_map]
    rfl

end Sound

end Category

end PagedAlloc
