import PagedAlloc.Proofs.CategoryRelease
import PagedAlloc.Proofs.Mappings

/-!
# Mappings of a category

Whatever is done with a category accounts for its mappings, which are its chunks with their lengths.
Chunks come and go in two places only, `Category.mapChunk` and `Category.unmapChunk`; all else changes
what is in a chunk, and never its length. Nothing is asked of blocks here, so this holds of operations
that fail or are stopped halfway as well.
-/

namespace PagedAlloc

variable {paging : Size.Paging}

/-! ## Lengths of chunks -/

namespace Chunk

/-- A chunk is as long as another one. -/
def SameSize (chunk changed : Chunk) : Prop := changed.size = chunk.size

variable (chunk : Chunk) (ref : BlockRef)

/-- A chunk that becomes one free block is as long as it was. -/
theorem sameSize_freeAll (address : Nat) : Gives (chunk.freeAll address) chunk.SameSize :=
  Gives.of_next fun _ => .pure rfl

theorem sameSize_measureFrom (before : Nat) :
    Gives (chunk.measureFrom ref before) chunk.SameSize :=
  Gives.of_next fun _ => .pure rfl

theorem sameSize_linkBack (target : Option BlockRef) (prev : Nat) :
    Gives (chunk.linkBack target prev) chunk.SameSize := by
  cases target with
  | none => exact .pure rfl
  | some target => exact Gives.of_next fun _ => .pure rfl

/-- Splitting a block does not resize its chunk. -/
theorem sameSize_split (size : Nat) :
    Gives (chunk.split ref size) fun result => chunk.SameSize result.2 := by
  refine Gives.of_next fun header => Gives.of_next fun splits => ?_
  split
  · refine Gives.of_next fun following => Gives.of_next fun room => Gives.of_next fun rest =>
      (sameSize_linkBack _ following _).bind fun cut hcut => .pure hcut
  · exact .pure rfl

theorem sameSize_absorbNext : Gives (chunk.absorbNext ref) chunk.SameSize := by
  refine Gives.of_next fun header => Gives.of_next fun next => ?_
  cases next with
  | none => exact .pure rfl
  | some next =>
    exact Gives.of_next fun absorbed => Gives.of_next fun following => Gives.of_next fun total =>
      Gives.of_next fun size => sameSize_linkBack _ following _

/-- Merging blocks does not resize their chunk. -/
theorem sameSize_coalesce : Gives (chunk.coalesce ref) fun result => chunk.SameSize result.2 := by
  have hnext : Gives (chunk.absorbFreeNext ref) chunk.SameSize := by
    refine Gives.of_next fun next => Gives.of_next fun free => ?_
    split
    · exact sameSize_absorbNext chunk ref
    · exact .pure rfl
  refine hnext.bind fun merged hmerged => Gives.of_next fun header => ?_
  cases header.prev with
  | none => exact .pure hmerged
  | some offset =>
    refine Gives.of_next fun front => ?_
    split
    · exact (sameSize_absorbNext merged _).bind fun last hlast => .pure (hlast.trans hmerged)
    · exact .pure hmerged

end Chunk

/-! ## Operations of a category -/

namespace Category

open Procedure Owner

/-- The chunks of a category are mappings of whole pages, and chunks to come are whole pages too. -/
structure Mapped [Size.Paging] (machine : Machine) (category : Category) : Prop where
  chunks : category.chunks.Mapped Chunk.size machine
  whole : ∀ length ∈ category.chunkSize, Size.pageSize ∣ length

/-- A category owns its chunks. -/
def owner [Size.Paging] : Owner Category where
  mappings category := category.chunks.mappings Chunk.size
  Good := Mapped
  of_log _ h := ⟨h.chunks.of_held h.chunks.held, h.whole⟩

theorem keeps_chunkAt (address : Nat) : Follows owner.Keeps (chunkAt address) := by
  refine keeps_bind keeps_own fun category => ?_
  split
  · exact keeps_pure _
  · exact keeps_stop _

theorem keeps_header (ref : BlockRef) : Follows owner.Keeps (header ref) :=
  keeps_bind (keeps_chunkAt ref.chunk) fun _ => keeps_checked _

/-- What changes the blocks of a chunk, and not its length, accounts for the mappings. -/
theorem keeps_onChunk {α : Type} (address : Nat) {step : Chunk → Except Fault (α × Chunk)}
    (same : ∀ chunk, Gives (step chunk) fun result => chunk.SameSize result.2) :
    Follows owner.Keeps (onChunk address step) := by
  refine ⟨fun environment state good => ?_⟩
  obtain ⟨machine, category⟩ := state
  rw [onChunk]
  cases hfound : category.chunks.get? address with
  | none =>
    rw [bind_apply_error _ _ (chunkAt_missing hfound)]
    exact Keeps.refl _ good
  | some chunk =>
    rw [bind_apply_ok _ _ (chunkAt_apply hfound)]
    cases hstep : step chunk with
    | error fault => exact Keeps.refl _ good
    | ok result =>
      obtain ⟨hchunks, hmappings⟩ := good.chunks.put hfound ((same chunk).holds hstep)
      exact ⟨⟨hchunks, good.whole⟩, (Accounted.refl machine _).of_eq hmappings⟩

theorem keeps_updateChunk (address : Nat) {step : Chunk → Except Fault Chunk}
    (same : ∀ chunk, Gives (step chunk) chunk.SameSize) :
    Follows owner.Keeps (updateChunk address step) :=
  keeps_onChunk address fun _ => (same _).bind fun _ hsame => .pure hsame

theorem keeps_addUsed (size : Nat) : Follows owner.Keeps (addUsed size) :=
  keeps_bind keeps_own fun _ => keeps_bind (keeps_checked _) fun _ =>
    keeps_modifyOwn fun _ _ good => ⟨⟨good.chunks, good.whole⟩, rfl⟩

theorem keeps_subUsed (size : Nat) : Follows owner.Keeps (subUsed size) :=
  keeps_bind keeps_own fun _ => keeps_bind (keeps_checked _) fun _ =>
    keeps_modifyOwn fun _ _ good => ⟨⟨good.chunks, good.whole⟩, rfl⟩

/-! ### Mapping and unmapping chunks -/

/-- A mapping that was just obtained is put behind the other chunks. -/
theorem keeps_chainChunk {environment : Environment} {machine machine' : Machine}
    {category : Category} {address length : Nat} (good : Mapped machine category)
    (granted : Pages.Granted environment machine machine' address length)
    (whole : Size.pageSize ∣ length) :
    owner.Keeps (machine, category)
      (chainChunk address length environment (machine', category)).2 := by
  let chunk : Chunk := ⟨length, category.index, 0, Memory.zeroed length⟩
  let chained : Category := { category with chunks := category.chunks.append address chunk }
  obtain ⟨hchunks, hmappings⟩ := good.chunks.append chunk granted whole
  have hobtained : owner.Keeps (machine, category) (machine', chained) := fun _ =>
    ⟨⟨hchunks, good.whole⟩, (granted.accounted whole _).of_eq hmappings⟩
  rw [chainChunk, bind_apply_ok _ _ (own_apply ..), bind_apply_ok _ _ (modifyOwn_apply ..)]
  refine hobtained.trans (Follows.holds ?_ environment (machine', chained))
  refine keeps_bind (keeps_updateChunk address fun chunk => chunk.sameSize_freeAll address) fun _ =>
    keeps_bind keeps_own fun _ => keeps_bind (keeps_checked _) fun _ => keeps_bind ?_ fun _ =>
      keeps_bind keeps_own fun _ => keeps_note ⟨rfl, rfl⟩
  exact keeps_modifyOwn fun _ _ good => ⟨⟨good.chunks, good.whole⟩, rfl⟩

/-- A chunk is chained just if it was mapped. -/
theorem keeps_mapChunk (size : Nat) : Follows owner.Keeps (mapChunk size) := by
  refine ⟨fun environment state good => ?_⟩
  obtain ⟨machine, category⟩ := state
  obtain ⟨chosen, hlength, hchosen⟩ := chunkLength_cases good.whole environment machine size
  rw [mapChunk]
  rcases hchosen with ⟨rfl, -⟩ | ⟨length, rfl, -, hwhole, -⟩
  · rw [bind_apply_error _ _ hlength]
    exact Keeps.refl _ good
  rw [bind_apply_ok _ _ hlength]
  rcases Chunk.freshCapacity_cases length with hcapacity | ⟨fault, hcapacity⟩
  swap
  · rw [hcapacity, bind_apply_error _ _ (checked_error ..)]
    exact Keeps.refl _ good
  rw [hcapacity, bind_apply_ok _ _ (checked_ok ..)]
  by_cases hlarge : size ≤ (Chunk.freshSlot length).size
  swap
  · rw [bind_apply_error _ _ (ensure_apply_not _ hlarge _ _)]
    exact Keeps.refl _ good
  -- nothing is mapped on the paths above, which fail or stop before
  obtain ⟨granted, machine', hmap, hcases⟩ := Pages.map_cases environment machine hwhole
  rw [bind_apply_ok _ _ (ensure_apply _ hlarge _ _), bind_apply_ok _ _ (ask_apply _ hmap _)]
  rcases hcases with ⟨rfl, hrefused⟩ | ⟨address, rfl, hgranted⟩
  · rw [bind_apply_error _ _ (orFail_none ..)]
    exact ⟨⟨good.chunks.of_held (hrefused.ledger ▸ good.chunks.held), good.whole⟩,
      hrefused.accounted _⟩
  · rw [bind_apply_ok _ _ (orFail_some ..), bind_apply]
    have hkeeps := keeps_chainChunk good hgranted hwhole good
    rcases hrun : chainChunk address length environment (machine', category) with
      ⟨reason | value, after⟩ <;> rwa [hrun] at hkeeps

/-- A chunk leaves the chain just before it is unmapped, and stays out of it if the kernel refuses.
-/
theorem keeps_unmapChunk (address : Nat) : Follows owner.Keeps (unmapChunk address) := by
  refine ⟨fun environment state good => ?_⟩
  obtain ⟨machine, category⟩ := state
  rw [unmapChunk]
  cases hfound : category.chunks.get? address with
  | none =>
    rw [bind_apply_error _ _ (chunkAt_missing hfound)]
    exact Keeps.refl _ good
  | some chunk =>
    have hmem := good.chunks.sequence.get?_eq_some_iff.1 hfound
    obtain ⟨result, machine', hunmap, -⟩ :=
      Pages.unmap_cases environment machine address chunk.size
    -- the category without the chunk, which is what an unmapping that is refused leaves too
    let rest : Category := { category with chunks := category.chunks.remove address }
    have hreturned : owner.Keeps (machine, category) (machine', rest) := fun _ =>
      have hgiven := good.chunks.unmap hmem hunmap
      ⟨⟨hgiven.1, good.whole⟩, hgiven.2⟩
    rw [bind_apply_ok _ _ (chunkAt_apply hfound), bind_apply_ok _ _ (modifyOwn_apply ..)]
    cases result with
    | error reason =>
      rw [bind_apply_error _ _ (ask_apply _ hunmap _)]
      exact hreturned good
    | ok =>
      rw [bind_apply_ok _ _ (ask_apply _ hunmap _)]
      refine hreturned.trans (Follows.holds ?_ environment (machine', rest)) good
      refine keeps_bind keeps_own fun _ => keeps_bind (keeps_checked _) fun _ =>
        keeps_bind ?_ fun _ => keeps_bind keeps_own fun _ =>
          keeps_bind (keeps_note ⟨rfl, rfl⟩) fun _ => keeps_pure _
      exact keeps_modifyOwn fun _ _ good => ⟨⟨good.chunks, good.whole⟩, rfl⟩

/-- Giving several chunks back accounts for each of them. -/
theorem keeps_releaseEach (addresses : List Nat) :
    Follows owner.Keeps (releaseEach addresses) := by
  induction addresses with
  | nil => exact keeps_pure _
  | cons address rest ih =>
    exact keeps_bind (keeps_unmapChunk address) fun _ => keeps_bind ih fun _ => keeps_checked _

theorem keeps_trim : Follows owner.Keeps trim :=
  keeps_bind keeps_own fun _ => keeps_bind (keeps_checked _) fun addresses =>
    keeps_releaseEach addresses

theorem keeps_release : Follows owner.Keeps release :=
  keeps_bind keeps_own fun _ => keeps_bind (keeps_discard (keeps_releaseEach _)) fun _ =>
    keeps_modifyOwn fun _ _ good => ⟨⟨good.chunks, good.whole⟩, rfl⟩

/-! ### Blocks -/

theorem keeps_take (ref : BlockRef) (size before : Nat) :
    Follows owner.Keeps (take ref size before) := by
  have hoccupy : ∀ whole, Follows owner.Keeps (occupy ref whole before) := fun whole =>
    keeps_bind (keeps_header ref) fun _ =>
      keeps_bind (keeps_updateChunk _ fun _ => .pure rfl) fun _ =>
      keeps_bind (keeps_addUsed _) fun _ => keeps_bind (keeps_chunkAt _) fun _ => by
        split
        · exact keeps_updateChunk _ fun chunk => chunk.sameSize_measureFrom ref before
        · exact keeps_pure _
  refine keeps_bind (keeps_header ref) fun found => keeps_bind keeps_own fun category => ?_
  split
  · exact keeps_bind (keeps_discard (keeps_onChunk _ fun chunk => chunk.sameSize_split ref size))
      fun _ => hoccupy _
  · exact hoccupy _

/-- An allocation accounts for the chunk that it may map. -/
theorem keeps_allocate (size : Nat) : Follows owner.Keeps (allocate size) := by
  refine keeps_bind ?_ fun found => keeps_bind (keeps_take ..) fun _ => keeps_pure _
  refine keeps_bind keeps_own fun category => keeps_bind (keeps_checked _) fun found => ?_
  cases found with
  | some found => exact keeps_pure _
  | none => exact keeps_bind (keeps_mapChunk size) fun _ => keeps_pure _

theorem keeps_coalesceAt (ref : BlockRef) : Follows owner.Keeps (coalesceAt ref) :=
  keeps_bind (keeps_onChunk _ fun chunk => chunk.sameSize_coalesce ref) fun _ =>
    keeps_updateChunk _ fun _ => Gives.of_next fun _ => .pure rfl

/-- Freeing a block leaves the mappings alone. -/
theorem keeps_free (ref : BlockRef) : Follows owner.Keeps (free ref) :=
  keeps_bind (keeps_header ref) fun _ => keeps_bind (keeps_ensure _) fun _ =>
    keeps_bind (keeps_subUsed _) fun _ =>
      keeps_bind (keeps_updateChunk _ fun _ => .pure rfl) fun _ => keeps_coalesceAt ref

/-- Shrinking a block leaves the mappings alone. -/
theorem keeps_shrink (ref : BlockRef) (size : Nat) : Follows owner.Keeps (shrink ref size) := by
  refine keeps_bind (keeps_header ref) fun found => keeps_bind (keeps_ensure _) fun _ =>
    keeps_bind keeps_own fun category => ?_
  split
  · refine keeps_bind (keeps_onChunk _ fun chunk => chunk.sameSize_split ref size) fun remainder => ?_
    cases remainder with
    | none => exact keeps_pure _
    | some remainder =>
      exact keeps_bind (keeps_header ref) fun _ => keeps_bind (keeps_checked _) fun _ =>
        keeps_bind (keeps_subUsed _) fun _ => keeps_coalesceAt remainder
  · exact keeps_pure _

/-- Growing a block leaves the mappings alone. -/
theorem keeps_grow (ref : BlockRef) (size : Nat) : Follows owner.Keeps (grow ref size) := by
  refine keeps_bind keeps_own fun category => ?_
  split
  · exact keeps_pure _
  refine keeps_bind (keeps_chunkAt _) fun chunk => keeps_bind (keeps_checked _) fun next => ?_
  cases next with
  | none => exact keeps_pure _
  | some next =>
    refine keeps_bind (keeps_header next) fun behind => keeps_bind (keeps_header ref) fun found => ?_
    split
    · exact keeps_pure _
    refine keeps_bind (keeps_checked _) fun room => ?_
    split
    · exact keeps_pure _
    refine keeps_bind (keeps_updateChunk _ fun chunk => chunk.sameSize_absorbNext ref) fun _ =>
      keeps_bind (keeps_discard (keeps_onChunk _ fun chunk => chunk.sameSize_split ref size))
        fun _ => keeps_bind (keeps_header ref) fun _ => keeps_bind (keeps_checked _) fun _ =>
      keeps_bind (keeps_addUsed _) fun _ => keeps_bind (keeps_chunkAt _) fun _ => ?_
    split
    · exact keeps_bind (keeps_updateChunk _ fun chunk => chunk.sameSize_measureFrom _ 0)
        fun _ => keeps_pure _
    · exact keeps_pure _

/-- Forgetting all blocks leaves the mappings alone. -/
theorem keeps_clear : Follows owner.Keeps clear := by
  have heach : ∀ addresses, Follows owner.Keeps (freeEach addresses) := by
    intro addresses
    induction addresses with
    | nil => exact keeps_pure _
    | cons address rest ih =>
      exact keeps_bind (keeps_updateChunk _ fun chunk => chunk.sameSize_freeAll address) fun _ => ih
  exact keeps_bind keeps_own fun _ => keeps_bind (heach _) fun _ =>
    keeps_modifyOwn fun _ _ good => ⟨⟨good.chunks, good.whole⟩, rfl⟩

/-! ### What goes back -/

/-- The chunks of a sound category are mapped. -/
theorem Sound.mapped {machine : Machine} {category : Category} (h : Sound machine category) :
    Mapped machine category := by
  refine ⟨⟨h.sequence, fun p hp => ?_, fun p hp => ?_, fun p hp q hq => ?_⟩, h.whole⟩
  all_goals obtain ⟨⟨address, chunk⟩, hentry, rfl⟩ := List.mem_map.1 (Multiset.mem_coe.1 hp)
  · exact ⟨h.size_pos hentry, (h.laid address chunk hentry).whole⟩
  · exact (h.laid address chunk hentry).held
  · obtain ⟨⟨place, other⟩, hother, rfl⟩ := List.mem_map.1 (Multiset.mem_coe.1 hq)
    rcases h.apart _ hentry _ hother with hsame | hapart
    · obtain rfl : address = place := hsame
      obtain rfl := h.sequence.mem_unique hentry hother
      exact Or.inl rfl
    · exact Or.inr hapart

/-- All that unmapping a chunk logs is that this chunk is given back. -/
theorem logs_unmapChunk {address : Nat} {addresses : List Nat} (hmem : address ∈ addresses) :
    Follows (Logs (Event.GivesBack addresses)) (unmapChunk address) := by
  have hunchanged : ∀ {α : Type} (result : Except Stop α),
      Follows (Logs (Event.GivesBack addresses))
        (fun _ state => (result, state) : Procedure (Machine × Category) α) :=
    fun _ => logs_unchanged fun _ _ => rfl
  refine logs_bind (logs_bind (logs_unchanged fun _ _ => rfl) fun category => ?_) fun chunk =>
    logs_bind (logs_unchanged fun _ _ => rfl) fun _ => logs_bind (logs_unmap ?_) fun _ =>
    logs_bind (logs_unchanged fun _ _ => rfl) fun _ => logs_bind (logs_checked _) fun _ =>
    logs_bind (logs_unchanged fun _ _ => rfl) fun _ => logs_bind (logs_unchanged fun _ _ => rfl)
    fun _ => logs_bind (logs_note (Event.Silent.givesBack ⟨rfl, rfl⟩ addresses)) fun _ =>
    logs_unchanged fun _ _ => rfl
  · split
    · exact hunchanged (.ok _)
    · exact hunchanged (.error _)
  · refine ⟨rfl, fun mapping heq => ?_⟩
    cases heq
    exact hmem

/-- Giving chunks back gives back nothing else. -/
theorem logs_releaseEach {addresses all : List Nat} (sub : addresses ⊆ all) :
    Follows (Logs (Event.GivesBack all)) (releaseEach addresses) := by
  induction addresses with
  | nil => exact logs_unchanged fun _ _ => rfl
  | cons address rest ih =>
    obtain ⟨hmem, hrest⟩ := List.cons_subset.1 sub
    exact logs_bind (logs_unmapChunk hmem) fun _ => logs_bind (ih hrest) fun _ => logs_checked _

/-- Trimming gives back chunks without a block in use only. -/
theorem Sound.trim_returned {machine : Machine} {category : Category} (h : Sound machine category)
    (environment : Environment) {mapping : Mapping}
    (hmem : mapping ∈ returned ((Category.trim environment (machine, category)).2.1.since machine)) :
    ∃ chunk, (mapping.address, chunk) ∈ category.chunks.toList ∧ chunk.size = mapping.length ∧
      Idle (mapping.address, chunk) := by
  obtain ⟨-, hidle⟩ := h.unused_idle
  obtain ⟨-, haccounted⟩ := keeps_trim.holds environment (machine, category) h.mapped
  rw [Category.trim, bind_apply_ok _ _ (own_apply ..),
    unused_eq fun entry hentry => ⟨_, h.settled hentry⟩, bind_apply_ok _ _ (checked_ok ..)]
    at hmem haccounted
  obtain ⟨events, hlog, hkind⟩ :=
    (logs_releaseEach (List.Subset.refl _)).holds environment (machine, category)
  have hbalance := obtained_add haccounted.opens
  rw [Machine.since_eq hlog] at hmem hbalance
  rw [obtained_eq_zero fun event hevent => (hkind event hevent).1, add_zero] at hbalance
  -- what is given back was a chunk, and its address is that of a chunk without a block in use
  have hchunk : mapping ∈ owner.mappings category := hbalance ▸ Multiset.mem_add.2 (Or.inr hmem)
  obtain ⟨⟨address, chunk⟩, hentry, rfl⟩ := List.mem_map.1 (Multiset.mem_coe.1 hchunk)
  obtain ⟨event, hevent, hreturned⟩ := List.mem_filterMap.1 (Multiset.mem_coe.1 hmem)
  obtain ⟨other, hother, hunused⟩ := hidle address ((hkind event hevent).2 _ hreturned)
  obtain rfl := h.sequence.mem_unique hother hentry
  exact ⟨other, hentry, rfl, hunused⟩

/-! ### What is left -/

/-- Chunks of some kind are kept, in their order and with all that is in them. The others are gone, and
`bytes` fewer bytes count as mapped. -/
structure Retains (kept : Nat × Chunk → Bool) (bytes : Nat) (before after : Category) : Prop where
  index : after.index = before.index
  chunkSize : after.chunkSize = before.chunkSize
  chunks : after.chunks.toList = before.chunks.toList.filter kept
  mapped : after.mapped + bytes = before.mapped
  used : after.used = before.used

namespace Retains

variable {category middle after : Category} {bytes more : Nat} {kept still : Nat × Chunk → Bool}

theorem refl (all : ∀ entry ∈ category.chunks.toList, kept entry = true) :
    Retains kept 0 category category :=
  ⟨rfl, rfl, (List.filter_eq_self.2 all).symm, rfl, rfl⟩

/-- What two selections keep is what both select. -/
theorem trans (h : Retains kept bytes category middle) (h' : Retains still more middle after) :
    Retains (fun entry => still entry && kept entry) (bytes + more) category after where
  index := h'.index.trans h.index
  chunkSize := h'.chunkSize.trans h.chunkSize
  chunks := by rw [h'.chunks, h.chunks, List.filter_filter]
  mapped := by
    rw [← h.mapped, ← h'.mapped]
    omega
  used := h'.used.trans h.used

theorem congr (h : Retains kept bytes category after)
    (same : ∀ entry ∈ category.chunks.toList, kept entry = still entry) :
    Retains still bytes category after :=
  { h with chunks := h.chunks.trans (List.filter_congr same) }

end Retains

namespace Mapped

variable {environment : Environment} {machine machine' : Machine} {category after : Category}
  {address bytes : Nat}

/-- Once it was given back, a chunk is out of the chain. -/
theorem unmapChunk_ok (h : Mapped machine category)
    (hrun : unmapChunk address environment (machine, category) = (.ok bytes, machine', after)) :
    Mapped machine' after ∧ Retains (fun entry => entry.1 ≠ address) bytes category after := by
  have hkeeps := (keeps_unmapChunk address).holds environment (machine, category) h
  rw [hrun] at hkeeps
  refine ⟨hkeeps.1, ?_⟩
  rw [unmapChunk] at hrun
  cases hfound : category.chunks.get? address with
  | none =>
    rw [bind_apply_error _ _ (chunkAt_missing hfound)] at hrun
    cases hrun
  | some chunk =>
    rw [bind_apply_ok _ _ (chunkAt_apply hfound), bind_apply_ok _ _ (modifyOwn_apply ..)] at hrun
    obtain ⟨-, middle, -, hrun⟩ := ask_bind_ok hrun
    rw [bind_apply_ok _ _ (own_apply ..)] at hrun
    obtain ⟨mapped, hmapped, hrun⟩ := checked_bind_ok hrun
    cases hrun
    have hmem := h.chunks.sequence.get?_eq_some_iff.1 hfound
    exact ⟨rfl, rfl, h.chunks.sequence.toList_remove hmem, Size.add_of_sub_eq_ok hmapped, rfl⟩

/-- Once some chunks were given back just these are gone. -/
theorem releaseEach_ok (h : Mapped machine category) {addresses : List Nat}
    (hrun : releaseEach addresses environment (machine, category) = (.ok bytes, machine', after)) :
    Retains (fun entry => entry.1 ∉ addresses) bytes category after := by
  induction addresses generalizing machine category bytes with
  | nil =>
    cases hrun
    exact .refl (by simp)
  | cons address rest ih =>
    rw [releaseEach] at hrun
    obtain ⟨length, ⟨machine₁, between⟩, hunmap, hrun⟩ := bind_ok hrun
    obtain ⟨others, ⟨machine₂, last⟩, hothers, hrun⟩ := bind_ok hrun
    obtain ⟨hsum, hlast⟩ := of_checked_ok hrun
    obtain ⟨rfl, rfl⟩ : machine' = machine₂ ∧ after = last := Prod.mk.inj hlast
    obtain ⟨hmapped, hone⟩ := h.unmapChunk_ok hunmap
    rw [Size.eq_of_add_eq_ok hsum]
    apply (hone.trans (ih hmapped hothers)).congr
    intro entry _
    simp only [List.mem_cons, not_or, Bool.decide_and, Bool.and_comm, ne_eq]

/-- If giving back all chunks succeeds, then none is left. -/
theorem release_ok (h : Mapped machine category)
    (hrun : release environment (machine, category) = (.ok (), machine', after)) :
    after.chunks.toList = [] := by
  rw [release, bind_apply_ok _ _ (own_apply ..)] at hrun
  obtain ⟨_, ⟨middle, between⟩, hdiscard, hrun⟩ := bind_ok hrun
  obtain ⟨bytes, _, heach, hdone⟩ := bind_ok hdiscard
  cases hdone
  cases hrun
  show between.chunks.toList = []
  rw [(h.releaseEach_ok heach).chunks]
  apply List.filter_eq_nil_iff.2
  intro entry hentry hkept
  exact of_decide_eq_true hkept (List.mem_map.2 ⟨entry, hentry, rfl⟩)

end Mapped

end Category

end PagedAlloc
