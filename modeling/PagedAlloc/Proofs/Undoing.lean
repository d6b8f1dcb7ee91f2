import PagedAlloc.Proofs.Accounts
import PagedAlloc.Proofs.Outcomes
import PagedAlloc.Proofs.SegregatedLayouts

/-!
# Freeing undoes allocating

To allocate is to find a free block, to map a chunk if there is none, and to cut the block. To free
is to merge a block with its free neighbours. The cut part lies behind the block that was taken, and
in front of it and behind both there was no other free block; so when the block is freed at once, the
merge leads back to the layout in which it was found (`Category.Sound.free_take`). What is left of an
allocation is the chunk that it mapped, if it had to map one
(`SegregatedList.Session.Reachable.free_undoes_allocate`).
-/

namespace PagedAlloc

variable {paging : Size.Paging}

open Procedure Layout

namespace Layout

variable {slot : Slot} {slots slots' : List Slot}

/-- What is merged behind a prefix may be merged before. -/
theorem merged_append_congr (before : List Slot) (h : merged slots = merged slots') :
    merged (before ++ slots) = merged (before ++ slots') := by
  induction before with
  | nil => exact h
  | cons first rest ih => rw [List.cons_append, List.cons_append, merged, merged, ih]

/-- The parts of a free slot that was cut merge into the slot again. -/
theorem merged_cut (free : slot.isFree = true) (shared : Bool) (size : Nat) (after : List Slot) :
    merged (⟨(cut shared size slot).1.size, true⟩ :: ((cut shared size slot).2 ++ after)) =
      merged (slot :: after) := by
  unfold cut
  split
  · rename_i hroom
    have hwhole : (⟨size + Slot.total ⟨slot.size - size - Block.headerSize, true⟩, true⟩ : Slot) =
        slot := by
      have hsize : size + (slot.size - size - Block.headerSize + Block.headerSize) = slot.size := by
        omega
      rw [Slot.total, Nat.add_comm Block.headerSize, hsize, ← free]
    simp only [List.cons_append, List.nil_append, merged]
    rw [fuse_fuse rfl rfl, hwhole]
  · rw [← free, List.nil_append]

end Layout

namespace PlainCategory

variable {environment : Environment} {machine machine' : Machine} {category after : PlainCategory}
  {size address : Nat} {ref : BlockRef}

/-- The category with one more chunk, which is one free block, behind the others. -/
def extended (category : PlainCategory) (address length : Nat) : PlainCategory :=
  { category with
    chunks := category.chunks ++ [(address, length, [Chunk.freshSlot length])]
    mapped := category.mapped + length }

/-- To find out the length of a chunk changes nothing. -/
theorem chunkLength_ok {length : Nat} {state : Machine × PlainCategory}
    (hrun : chunkLength size environment (machine, category) = (.ok length, state)) :
    state = (machine, category) := by
  unfold chunkLength at hrun
  rw [bind_apply_ok _ _ (own_apply ..)] at hrun
  cases hlength : category.chunkSize with
  | some fixed =>
    simp only [hlength] at hrun
    exact (congrArg Prod.snd hrun).symm
  | none =>
    simp only [hlength] at hrun
    cases hneeded : Chunk.lengthFor? size with
    | none =>
      rw [hneeded] at hrun
      cases hrun
    | some needed =>
      rw [hneeded] at hrun
      exact (congrArg Prod.snd hrun).symm

/-- Where a chunk was mapped the category has one more chunk and is otherwise as it was. -/
theorem mapChunk_ok
    (hrun : mapChunk size environment (machine, category) = (.ok address, machine', after)) :
    ∃ start length, after = category.extended start length := by
  unfold mapChunk at hrun
  obtain ⟨length, _, hlength, hrun⟩ := bind_ok hrun
  rw [chunkLength_ok hlength] at hrun
  obtain ⟨capacity, -, hrun⟩ := checked_bind_ok hrun
  obtain ⟨-, hrun⟩ := ensure_bind_ok hrun
  obtain ⟨granted, machine₁, -, hrun⟩ := ask_bind_ok hrun
  obtain ⟨start, -, hrun⟩ := orFail_bind_ok hrun
  obtain ⟨_, ⟨machine₂, chained⟩, hchain, hrun⟩ := bind_ok hrun
  obtain rfl : chained = after := congrArg (fun run => run.2.2) hrun
  unfold chainChunk countChunk at hchain
  rw [bind_apply_ok _ _ (modifyOwn_apply ..), bind_apply_ok _ _ (own_apply ..)] at hchain
  obtain ⟨mapped, hmapped, hchain⟩ := checked_bind_ok hchain
  refine ⟨start, length, ?_⟩
  rw [extended, ← Size.eq_of_add_eq_ok hmapped]
  exact (congrArg (fun run => run.2.2) hchain).symm

/-- A search that finds no block maps a chunk. -/
theorem findOrMap_ok
    (hrun : findOrMap size environment (machine, category) = (.ok ref, machine', after)) :
    (category.firstFit? size).isSome = true ∧ after = category ∨
      category.firstFit? size = none ∧ ∃ start length, after = category.extended start length := by
  unfold findOrMap at hrun
  rw [bind_apply_ok _ _ (own_apply ..)] at hrun
  cases hfound : category.firstFit? size with
  | some found =>
    simp only [hfound] at hrun
    exact Or.inl ⟨rfl, (congrArg (fun run => run.2.2) hrun).symm⟩
  | none =>
    simp only [hfound] at hrun
    obtain ⟨address, ⟨machine₁, middle⟩, hmap, hrun⟩ := bind_ok hrun
    obtain rfl : middle = after := congrArg (fun run => run.2.2) hrun
    exact Or.inr ⟨rfl, mapChunk_ok hmap⟩

end PlainCategory

/-! ## Categories -/

/-- What can be told of a chunk that is one free block. -/
def Chunk.Survey.fresh (address size category : Nat) : Chunk.Survey :=
  ⟨address, size, category, size - Chunk.headerSize - Block.headerSize,
    .ok [(Chunk.firstBlock address,
      ⟨address, none, size - Chunk.headerSize - Block.headerSize, true⟩)]⟩

namespace Category

/-- A walk over some chunk of the category comes upon a free block with at least `size` bytes. -/
def Offers (category : Category) (size : Nat) : Prop :=
  ∃ entry ∈ category.chunks.toList, ∃ blocks, entry.2.blocks entry.1 = .ok blocks ∧
    ∃ block ∈ blocks, block.2.isFree = true ∧ size ≤ block.2.size

/-- A category got one more chunk, which is one free block, at the end of its chain. The chunk counts
as mapped; all else is as it was. -/
structure ExtendedBy (address length : Nat) (before after : Category) : Prop where
  index : after.index = before.index
  chunkSize : after.chunkSize = before.chunkSize
  survey : after.survey = before.survey ++ [Chunk.Survey.fresh address length before.index]
  backwards : after.chunks.toListReverse.map Prod.fst =
    address :: before.chunks.toListReverse.map Prod.fst
  usage : after.usage = { before.usage with
    chunks := before.usage.chunks + 1
    mapped := before.usage.mapped + length }

/-- What a category looks like after a payload of `size` bytes was allocated in it and freed again. It
is as before, but for the chunk that had to be mapped. -/
structure Restored (size : Nat) (before after : Category) : Prop where
  alike : before.Offers size → Alike after before
  extended : ¬ before.Offers size → ∃ address length, ExtendedBy address length before after

variable {environment : Environment} {machine machine' : Machine} {category after : Category}
  {address size : Nat} {chunk : Chunk} {ref : BlockRef} {slot : Slot} {before behind : List Slot}

/-- A block in use is one of the view. -/
theorem uses_of_plain (same : after.plain = category.plain) (huses : category.Uses ref size) :
    after.Uses ref size := by
  have houtline : after.outline = category.outline := congrArg PlainCategory.chunks same
  obtain ⟨chunk, hmem, hspot⟩ := huses
  have hentry : (ref.chunk, chunk.size, chunk.slots ref.chunk) ∈ after.outline :=
    houtline ▸ List.mem_map.2 ⟨(ref.chunk, chunk), hmem, rfl⟩
  obtain ⟨⟨place, other⟩, hother, heq⟩ := List.mem_map.1 hentry
  obtain ⟨rfl, -, hslots⟩ : place = ref.chunk ∧ other.size = chunk.size ∧
      other.slots place = chunk.slots ref.chunk := by simpa using heq
  exact ⟨other, hother, hslots ▸ hspot⟩

namespace Sound

/-- The search finds a block just if some chunk has one. -/
theorem offers_iff (h : Sound machine category) :
    category.Offers size ↔ (category.plain.firstFit? size).isSome = true := by
  rw [PlainCategory.firstFit?, Option.isSome_map, List.find?_isSome, blocks_plain]
  constructor
  · rintro ⟨entry, hentry, blocks, hblocks, block, hblock, hserves⟩
    obtain rfl := Except.ok.inj ((h.settled hentry).blocks_eq.symm.trans hblocks)
    exact ⟨block, List.mem_flatMap.2 ⟨entry, hentry, hblock⟩, by simpa using hserves⟩
  · rintro ⟨block, hblock, hserves⟩
    obtain ⟨entry, hentry, hvisited⟩ := List.mem_flatMap.1 hblock
    exact ⟨entry, hentry, _, (h.settled hentry).blocks_eq, block, hvisited, by simpa using hserves⟩

/-- Categories with the same view look alike. -/
theorem alike_of_plain (h : Sound machine category) (h' : Sound machine' after)
    (same : after.plain = category.plain) : Alike after category :=
  h'.alike h (congrArg PlainCategory.index same) (congrArg PlainCategory.chunkSize same)
    (congrArg PlainCategory.mapped same) (congrArg PlainCategory.chunks same)

theorem extendedBy_of_plain (h : Sound machine category) (h' : Sound machine' after) {length : Nat}
    (same : after.plain = category.plain.extended address length) :
    ExtendedBy address length category after := by
  have hindex : after.index = category.index := congrArg PlainCategory.index same
  have hmapped : after.mapped = category.mapped + length := congrArg PlainCategory.mapped same
  have houtline : after.outline =
      category.outline ++ [(address, length, [Chunk.freshSlot length])] :=
    congrArg PlainCategory.chunks same
  refine ⟨hindex, congrArg PlainCategory.chunkSize same, ?_, ?_, ?_⟩
  · rw [h.survey_eq, h'.survey_eq, houtline, hindex, List.map_append]
    simp [Chunk.Survey.fresh, largest, Chunk.freshSlot, visited, Chunk.firstBlock]
  · rw [h.backwards_eq, h'.backwards_eq, houtline]
    simp
  · rw [h.usage_eq, h'.usage_eq, houtline, hmapped]
    simp [Layout.used, Chunk.freshSlot]

/-- A block that is freed right after it was taken becomes the block that it was. -/
theorem free_take (h : Sound machine category) (hmem : (address, chunk) ∈ category.chunks.toList)
    (hslots : chunk.slots address = before ++ slot :: behind) (free : slot.isFree = true)
    (fits : size ≤ slot.size) (valid : Slot.Valid ⟨size, true⟩) (environment : Environment) :
    ∃ state, Category.take ⟨address, stop Chunk.headerSize before⟩ size (largest before) environment
        (machine, category) = (.ok (), machine, state) ∧ Sound machine state ∧
      ∀ (environment' : Environment) (machine' : Machine),
        PlainCategory.free ⟨address, stop Chunk.headerSize before⟩ environment'
          (machine', state.plain) = (.ok (), machine', category.plain) := by
  obtain ⟨final, hrun, hsettled, hkeeps⟩ := h.take_block hmem hslots free fits valid environment
  obtain ⟨state, hrun', hsound, -⟩ := h.take hmem hslots free fits valid environment
  have hstate : state = category.changed address final _ :=
    congrArg (fun run => run.2.2) (hrun'.symm.trans hrun)
  refine ⟨state, hrun', hsound, fun environment' machine' => ?_⟩
  have hmem' : (address, final) ∈ state.chunks.toList := by
    rw [hstate]
    exact (h.mem_changed_iff hmem).2 (Or.inl rfl)
  have hplain := h.plain_changed hmem ((merged_eq_self hsettled.apart).symm ▸ hsettled) hkeeps.size
    (category.used + (cut category.chunkSize.isSome size slot).1.size)
  rw [← hstate] at hplain
  -- the parts of the block lie next to each other again
  have hmerged : merged (before ++ ⟨(cut category.chunkSize.isSome size slot).1.size, true⟩ ::
      ((cut category.chunkSize.isSome size slot).2 ++ behind)) = chunk.slots address := by
    rw [merged_append_congr before (merged_cut free ..), ← hslots,
      merged_eq_self (h.settled hmem).apart]
  have hrelaid : category.plain = state.plain.lay address
      (before ++ ⟨(cut category.chunkSize.isSome size slot).1.size, true⟩ ::
        ((cut category.chunkSize.isSome size slot).2 ++ behind)) := by
    rw [hplain, PlainCategory.lay_lay, h.lay_self hmem hmerged]
  rw [hrelaid]
  exact bind_apply_ok _ _ (hsound.find_apply hmem' hsettled.slots_eq environment')

/-- When a block is freed right after it was allocated what is left is the chunk that had to be
mapped. -/
theorem free_allocate (h : Sound machine category) (fits : environment.FitsAddresses)
    (valid : Slot.Valid ⟨size, true⟩)
    (hrun : Category.allocate size environment (machine, category) = (.ok ref, machine', after)) :
    ∃ left : PlainCategory,
      (∀ (environment' : Environment) (machine'' : Machine), PlainCategory.free ref environment'
        (machine'', after.plain) = (.ok (), machine'', left)) ∧
      (category.Offers size ∧ left = category.plain ∨
        ¬ category.Offers size ∧ ∃ start length, left = category.plain.extended start length) := by
  obtain ⟨result, machine₁, middle, hfind, hsound, -, hfound, -⟩ := h.findOrMap fits size
  rw [Category.allocate] at hrun
  cases result with
  | error reason =>
    rw [bind_apply_error _ _ hfind] at hrun
    cases hrun
  | ok found =>
    obtain ⟨address, chunk, before, slot, behind, hmem, hslots, hfree, hlarge, rfl⟩ :=
      hfound found rfl
    -- the free leads back to where the block was found, and that is behind the mapping of a chunk
    obtain ⟨state, htake, -, hundo⟩ := hsound.free_take hmem hslots hfree hlarge valid environment
    rw [bind_apply_ok _ _ hfind] at hrun
    simp only at hrun
    rw [bind_apply_ok _ _ htake] at hrun
    cases hrun
    refine ⟨middle.plain, hundo, ?_⟩
    rw [h.offers_iff]
    rcases PlainCategory.findOrMap_ok (h.findOrMap_plain fits hfind) with
      ⟨hsome, hsame⟩ | ⟨hnone, hextended⟩
    · exact Or.inl ⟨hsome, hsame⟩
    · exact Or.inr ⟨by simp [hnone], hextended⟩

end Sound

end Category

/-! ## Lists -/

namespace SegregatedList

variable {environment : Environment} {machine machine' : Machine} {list after : SegregatedList}
  {request size address : Nat} {zero : Bool} {session : Session}

/-- Freeing a payload does to the view of its category what it does to a plain category. -/
theorem Sound.free_within (h : Sound machine list) {index : Fin categoryCount} {ref : BlockRef}
    {usable : Nat} (huses : (list.category index).Uses ref usable) {left : PlainCategory}
    (hundo : ∀ (environment' : Environment) (machine' : Machine),
      PlainCategory.free ref environment' (machine', (list.category index).plain) =
        (.ok (), machine', left)) (environment : Environment) :
    ∃ (machine' : Machine) (freed : Category),
      SegregatedList.free ref.payload environment (machine, list) =
        (.ok (), machine', list.withCategory index freed) ∧
      Category.Sound machine' freed ∧ freed.plain = left := by
  have hnoted := h.of_log (.freed index usable ref.payload :: machine.log)
  obtain ⟨result, machine', freed, hrun, hmirror⟩ :=
    (hnoted.sound index).free_plain huses environment
  obtain ⟨state, hrun', hsound, -⟩ := (hnoted.sound index).free huses environment
  cases hrun.symm.trans hrun'
  rw [hundo] at hmirror
  obtain rfl : left = freed.plain := congrArg (fun run => run.2.2) hmirror
  exact ⟨_, freed, (h.free_apply huses environment).trans (onCategory_apply hrun), hsound, rfl⟩

/-- When a payload is freed right after it was allocated, only the category that the size belongs to
may look different. -/
theorem Sound.free_allocate (h : Sound machine list) (fits : environment.FitsAddresses)
    (hsize : Block.payloadSize? request = some size)
    (hrun : SegregatedList.allocate request zero environment (machine, list) =
      (.ok address, machine', after)) (environment' : Environment) :
    ∃ machine'' freed, SegregatedList.free address environment' (machine', after) =
        (.ok (), machine'', list.withCategory (categoryFor request) freed) ∧
      Category.Restored size (list.category (categoryFor request)) freed := by
  have hvalid := (valid_of_payloadSize?_eq_some hsize).2 true
  obtain ⟨result, machine₁, machine₂, state, final, hcategory, hallocate, hfinal⟩ :=
    h.allocate_within fits hsize zero
  obtain ⟨_, _, _, hallocate', hsound, -⟩ := h.allocate fits request zero
  rw [hrun] at hallocate hallocate'
  cases hallocate'
  cases result with
  | error reason => cases hallocate
  | ok ref =>
    obtain ⟨rfl, rfl, rfl⟩ : address = ref.payload ∧ machine' = machine₂ ∧
        after = list.withCategory (categoryFor request) final := by
      simpa [Except.map] using hallocate
    have hcategorySound := h.sound (categoryFor request)
    obtain ⟨left, hundo, hleft⟩ := hcategorySound.free_allocate fits hvalid hcategory
    obtain ⟨_, _, _, hcategory', -, -, hnew, -⟩ := hcategorySound.allocate fits hvalid
    rw [hcategory] at hcategory'
    cases hcategory'
    obtain ⟨-, taken, -, huses, -⟩ := hnew ref rfl
    have huses' : ((list.withCategory (categoryFor request) final).category
        (categoryFor request)).Uses ref taken := by
      rw [category_withCategory_self]
      exact Category.uses_of_plain hfinal huses
    -- the block is given back in the category, where it leads to what was before
    obtain ⟨machine'', freed, hfree, hsame, hfreed⟩ := hsound.free_within huses'
      (by rwa [category_withCategory_self, hfinal]) environment'
    rw [withCategory_withCategory] at hfree
    refine ⟨_, freed, hfree, ?_, ?_⟩
    · intro hoffers
      obtain ⟨-, hplain⟩ := hleft.resolve_right fun hmapped => hmapped.1 hoffers
      exact hcategorySound.alike_of_plain hsame (hfreed.trans hplain)
    · intro hnone
      obtain ⟨-, start, length, hplain⟩ := hleft.resolve_left fun hfound => hnone hfound.1
      exact ⟨start, length, hcategorySound.extendedBy_of_plain hsame (hfreed.trans hplain)⟩

/-- The address of the newest payload belongs to no other one. -/
theorem Session.Reachable.filter_newest (h : session.Reachable) {newest : Nat × Nat}
    {others : List (Nat × Nat)} (hlive : session.live = newest :: others) :
    (session.live.filter fun entry => entry.1 ≠ newest.1) = others := by
  have hdistinct := h.sound.distinct
  rw [hlive, List.map_cons, List.nodup_cons] at hdistinct
  rw [hlive, List.filter_cons_of_neg (by simp)]
  apply List.filter_eq_self.2
  intro entry hentry
  apply decide_eq_true
  intro hsame
  exact hdistinct.1 (List.mem_map.2 ⟨entry, hentry, hsame⟩)

/-- When a payload is freed right after it was allocated every category looks as before, but for a
chunk that had to be mapped because none offered a block: it is at the end of its chain and one free
block. -/
theorem Session.Reachable.free_undoes_allocate (h : session.Reachable)
    (fits : environment.FitsAddresses)
    (hrun : (allocate request zero environment (session.machine, session.list)).1 = .ok address)
    (environment' : Environment) :
    let served := session.after environment (.allocate request zero)
    let undone := served.after environment' (.free address)
    (free address environment' (served.machine, served.list)).1 = .ok () ∧
      undone.live = session.live ∧ Confined {categoryFor request} session.list undone.list ∧
      ∃ size, Block.payloadSize? request = some size ∧
        Category.Restored size (session.list.category (categoryFor request))
          (undone.list.category (categoryFor request)) := by
  intro served undone
  rcases hallocate : allocate request zero environment (session.machine, session.list) with
    ⟨result, machine', list'⟩
  obtain rfl : result = .ok address := (congrArg Prod.fst hallocate).symm.trans hrun
  obtain ⟨size, hsize⟩ : ∃ size, Block.payloadSize? request = some size := by
    cases hsize : Block.payloadSize? request with
    | none =>
      rw [allocate, hsize] at hrun
      cases hrun
    | some size => exact ⟨size, rfl⟩
  obtain ⟨machine'', freed, hfree, hrestored⟩ :=
    h.sound.list.free_allocate fits hsize hallocate environment'
  have hserved : served = ⟨machine', list', (address, request) :: session.live⟩ := by
    show session.after environment (.allocate request zero) = _
    rw [Session.after, Call.run, Session.turn_ok hallocate]
    rfl
  have hanswer : free address environment' (served.machine, served.list) =
      (.ok (), machine'', session.list.withCategory (categoryFor request) freed) := by
    rw [hserved]
    exact hfree
  have hundone : undone = ⟨machine'', session.list.withCategory (categoryFor request) freed,
      served.live.filter fun entry => entry.1 ≠ address⟩ := Session.turn_ok hanswer
  have hreachable : served.Reachable := h.step environment fits (.allocate request zero) trivial
  refine ⟨congrArg Prod.fst hanswer, ?_, ?_, size, hsize, ?_⟩
  · rw [hundone]
    exact hreachable.filter_newest (congrArg Session.live hserved)
  · rw [hundone]
    exact Confined.withCategory (Set.mem_singleton _) session.list freed
  · rw [hundone, category_withCategory_self]
    exact hrestored

end SegregatedList

end PagedAlloc

namespace PagedAlloc.SegregatedList

open Procedure Layout

attribute [local instance] Size.Paging.common

/-- A payload that was cut from a free block, and one for which a chunk was mapped. -/
theorem Session.free_undoes_allocate_of_two :
    let session := Session.after ⟨.fresh, .empty, []⟩ .ordinary (.allocate 64 true)
    let found := (session.after .ordinary (.allocate 50 false)).after .ordinary (.free 65712)
    let mapped := (session.after .ordinary (.allocate 100 true)).after .ordinary (.free 131152)
    Category.Alike (found.list.category (categoryFor 50))
        (session.list.category (categoryFor 50)) ∧
      ∃ address length, Category.ExtendedBy address length
        (session.list.category (categoryFor 100)) (mapped.list.category (categoryFor 100)) := by
  intro session found mapped
  have fits := Environment.ordinary_fitsAddresses
  have reachable : session.Reachable :=
    (Session.Reachable.start .fresh).step .ordinary fits (.allocate 64 true) trivial
  have hoffers : (session.list.category (categoryFor 50)).Offers 64 :=
    (reachable.sound.list.sound _).offers_iff.2 (by decide +kernel)
  have hnone : ¬ (session.list.category (categoryFor 100)).Offers 112 := fun hoffers =>
    absurd ((reachable.sound.list.sound _).offers_iff.1 hoffers) (by decide +kernel)
  have hfound : (allocate 50 false .ordinary (session.machine, session.list)).1 = .ok 65712 := by
    decide +kernel
  have hmapped : (allocate 100 true .ordinary (session.machine, session.list)).1 = .ok 131152 := by
    decide +kernel
  clear_value session
  obtain ⟨-, -, -, size, hsize, hrestored⟩ := reachable.free_undoes_allocate fits hfound .ordinary
  obtain ⟨-, -, -, size', hsize', hrestored'⟩ :=
    reachable.free_undoes_allocate fits hmapped .ordinary
  obtain rfl : 64 = size := Option.some.inj hsize
  obtain rfl : 112 = size' := Option.some.inj hsize'
  exact ⟨hrestored.alike hoffers, hrestored'.extended hnone⟩

end PagedAlloc.SegregatedList
