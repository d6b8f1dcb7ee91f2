import PagedAlloc.Proofs.PayloadIntegrity
import PagedAlloc.Proofs.SegregatedLayouts
import PagedAlloc.Proofs.SegregatedMappings

/-!
# Trimming

To trim is to look at the first block of each chunk, and to take the chunks that seem to have no block
in use out of their chain and unmap them, one after the other. The first block tells enough because
free blocks are merged; and since a chunk that leaves a chain leaves the others in their order, what
is left in the end is the chain without the chunks that were unused
(`SegregatedList.Session.Reachable.trim_exact`).
-/

namespace PagedAlloc

variable {paging : Size.Paging}

open Procedure Layout

namespace Category

/-- Whether a walk over a chunk comes upon a block in use. -/
def isBusy (entry : Nat × Chunk) : Bool := (entry.2.slots entry.1).any fun slot => !slot.isFree

variable {environment : Environment} {machine machine' : Machine} {category after : Category}
  {bytes : Nat}

/-! ## One category -/

namespace Sound

/-- Once a category was trimmed just the chunks without a block in use are gone. -/
theorem trim_retains (h : Sound machine category)
    (hrun : Category.trim environment (machine, category) = (.ok bytes, machine', after)) :
    Retains isBusy bytes category after := by
  rw [Category.trim, bind_apply_ok _ _ (own_apply ..),
    unused_eq fun entry hentry => ⟨_, h.settled hentry⟩, bind_apply_ok _ _ (checked_ok ..)] at hrun
  apply (h.mapped.releaseEach_ok hrun).congr
  intro entry hentry
  -- no other chunk is at the address
  have hunused : entry.1 ∈ (category.chunks.toList.filter fun entry =>
      (entry.2.slots entry.1).all (·.isFree)).map Prod.fst ↔
        (entry.2.slots entry.1).all (·.isFree) = true := by
    constructor
    · intro hin
      obtain ⟨⟨place, other⟩, hother, rfl⟩ := List.mem_map.1 hin
      obtain ⟨hmem, hfree⟩ := List.mem_filter.1 hother
      rwa [← h.sequence.mem_unique hmem hentry]
    · intro hfree
      exact List.mem_map.2 ⟨entry, List.mem_filter.2 ⟨hentry, hfree⟩, rfl⟩
  rw [isBusy, ← List.not_all_eq_any_not, Bool.eq_iff_iff, decide_eq_true_iff, hunused,
    Bool.not_eq_true, Bool.not_eq_true']

/-- Where every chunk has a block in use there is nothing to trim. -/
theorem trim_unchanged (h : Sound machine category)
    (busy : ∀ entry ∈ category.chunks.toList, isBusy entry = true) (environment : Environment) :
    Category.trim environment (machine, category) = (.ok 0, machine, category) := by
  have hnone : category.chunks.toList.filter
      (fun entry => (entry.2.slots entry.1).all (·.isFree)) = [] := by
    apply List.filter_eq_nil_iff.2
    intro entry hentry
    have hbusy := busy entry hentry
    rw [isBusy, ← List.not_all_eq_any_not] at hbusy
    simpa using hbusy
  rw [Category.trim, bind_apply_ok _ _ (own_apply ..),
    unused_eq fun entry hentry => ⟨_, h.settled hentry⟩, bind_apply_ok _ _ (checked_ok ..), hnone]
  rfl

end Sound

/-- What trimming makes of a category. The chunks with a block in use are left, in their order in both
directions and with all that is in them; a walk over each of them comes upon such a block. -/
structure Trimmed (before after : Category) : Prop where
  index : after.index = before.index
  chunkSize : after.chunkSize = before.chunkSize
  chunks : after.chunks.toList = before.chunks.toList.filter isBusy
  backwards : after.chunks.toListReverse = before.chunks.toListReverse.filter isBusy
  length : after.usage.chunks = after.chunks.toList.length
  used : after.usage.used = before.usage.used
  busy : ∀ entry ∈ after.chunks.toList, ∃ blocks, entry.2.blocks entry.1 = .ok blocks ∧
    ∃ block ∈ blocks, block.2.isFree = false

/-- A busy chunk has a block in use. -/
theorem exists_of_isBusy {entry : Nat × Chunk} (h : isBusy entry = true) :
    ∃ blocks, entry.2.blocks entry.1 = .ok blocks ∧ ∃ block ∈ blocks, block.2.isFree = false := by
  rw [isBusy, Chunk.slots] at h
  cases hblocks : entry.2.blocks entry.1 with
  | error fault => simp [hblocks] at h
  | ok blocks => exact ⟨blocks, rfl, by simpa [hblocks] using h⟩

theorem Retains.trimmed (h : Retains isBusy bytes category after) (hbefore : Sound machine category)
    (hafter : Sound machine' after) : Trimmed category after where
  index := h.index
  chunkSize := h.chunkSize
  chunks := h.chunks
  backwards := by
    rw [hafter.sequence.toListReverse_eq, hbefore.sequence.toListReverse_eq, h.chunks,
      List.filter_reverse]
  length := hafter.sequence.length
  used := h.used
  busy entry hentry := by
    rw [h.chunks] at hentry
    exact exists_of_isBusy (List.mem_filter.1 hentry).2

/-- Trimming obtains no mapping. -/
theorem logs_trim : Follows (Logs fun event => event.obtained? = none) Category.trim := by
  refine logs_bind (logs_unchanged fun _ _ => rfl) fun category =>
    logs_bind (logs_checked _) fun addresses => ⟨fun environment state => ?_⟩
  obtain ⟨events, hlog, hkind⟩ :=
    (logs_releaseEach (List.Subset.refl addresses)).holds environment state
  exact ⟨events, hlog, fun event hevent => (hkind event hevent).1⟩

end Category

namespace SegregatedList

open Category (isBusy Retains)

variable {environment : Environment} {machine machine' : Machine} {list after : SegregatedList}
  {bytes : Nat} {session : Session}

/-! ## All categories -/

/-- The chunks without a block in use as mappings. -/
def unusedMappings (list : SegregatedList) : Multiset Mapping :=
  ∑ index, (((list.category index).chunks.toList.filter fun entry => !isBusy entry).map fun entry =>
    (⟨entry.1, entry.2.size⟩ : Mapping) : Multiset Mapping)

/-- A chunk is either kept or unused. -/
theorem mappings_eq_add (h : ∀ index : Fin categoryCount, ∃ here,
      Retains isBusy here (list.category index) (after.category index)) :
    list.mappings = after.mappings + list.unusedMappings := by
  rw [mappings, mappings, unusedMappings, ← Finset.sum_add_distrib]
  refine Finset.sum_congr rfl fun index _ => ?_
  obtain ⟨here, hretains⟩ := h index
  rw [Chain.mappings, Chain.mappings, hretains.chunks, Multiset.coe_add, ← List.map_append]
  exact Multiset.coe_eq_coe.2 ((List.filter_append_perm isBusy _).symm.map _)

/-- Trimming obtains no mapping. -/
theorem logs_sumOver_trim (indices : List (Fin categoryCount)) :
    Follows (Logs fun event => event.obtained? = none) (sumOver Category.trim indices) := by
  induction indices with
  | nil => exact logs_unchanged fun _ _ => rfl
  | cons index rest ih =>
    refine logs_bind ⟨fun environment state => ?_⟩ fun _ => logs_bind ih fun _ => logs_checked _
    exact Category.logs_trim.holds environment (state.1, state.2.category index)

namespace Sound

/-- Once some categories were trimmed just their chunks without a block in use are gone, and the bytes
that are told are those by which the mapped bytes became fewer. -/
theorem sumOver_trim_retains (h : Sound machine list) {indices : List (Fin categoryCount)}
    (distinct : indices.Nodup)
    (hrun : sumOver Category.trim indices environment (machine, list) =
      (.ok bytes, machine', after)) :
    (∀ index ∈ indices, ∃ here,
        Retains isBusy here (list.category index) (after.category index)) ∧
      Confined {index | index ∈ indices} list after ∧
      ∑ index, (list.category index).mapped = ∑ index, (after.category index).mapped + bytes := by
  induction indices generalizing machine list bytes with
  | nil =>
    cases hrun
    exact ⟨by simp, .refl _ _, rfl⟩
  | cons index rest ih =>
    obtain ⟨hfirst, hrest⟩ := List.nodup_cons.1 distinct
    obtain ⟨_, _, state, hone, hsound, hevolves, -⟩ := (h.sound index).trim environment
    obtain ⟨hone', hsound', -⟩ := h.onCategory index hone hsound hevolves
    rw [sumOver] at hrun
    obtain ⟨here, ⟨machine₁, middle⟩, hhere, hrun⟩ := bind_ok hrun
    rw [hone'] at hhere
    cases hhere
    obtain ⟨others, ⟨machine₂, last⟩, hothers, hrun⟩ := bind_ok hrun
    obtain ⟨hsum, hlast⟩ := of_checked_ok hrun
    obtain ⟨rfl, rfl⟩ : machine' = machine₂ ∧ after = last := Prod.mk.inj hlast
    obtain ⟨hretains, hconfined, hmapped⟩ := ih hsound' hrest hothers
    -- the categories that are trimmed later leave this one as it is
    have hself : after.category index = state := by
      rw [hconfined index hfirst, category_withCategory_self]
    have hfirstRetains := (h.sound index).trim_retains hone
    refine ⟨?_, ?_, ?_⟩
    · intro other hother
      rcases List.mem_cons.1 hother with rfl | hlater
      · exact ⟨here, hself.symm ▸ hfirstRetains⟩
      · obtain ⟨there, hthere⟩ := hretains other hlater
        rw [category_withCategory_ne list (ne_of_mem_of_not_mem hlater hfirst)] at hthere
        exact ⟨there, hthere⟩
    · have hhere : Confined {other | other ∈ index :: rest} list (list.withCategory index state) :=
        .withCategory (List.mem_cons_self ..) list state
      exact hhere.trans (hconfined.mono fun other hother => List.mem_cons_of_mem _ hother)
    · have hcounted := sum_withCategory Category.mapped list index state
      have hfewer := hfirstRetains.mapped
      rw [Size.eq_of_add_eq_ok hsum]
      omega

/-- Where every chunk has a block in use there is nothing to trim. -/
theorem sumOver_trim_unchanged (h : Sound machine list)
    (busy : ∀ index : Fin categoryCount, ∀ entry ∈ (list.category index).chunks.toList,
      isBusy entry = true) (indices : List (Fin categoryCount)) (environment : Environment) :
    sumOver Category.trim indices environment (machine, list) = (.ok 0, machine, list) := by
  induction indices with
  | nil => rfl
  | cons index rest ih =>
    have hone := onCategory_apply ((h.sound index).trim_unchanged (busy index) environment)
    rw [withCategory_self] at hone
    rw [sumOver, bind_apply_ok _ _ hone, bind_apply_ok _ _ ih]
    rfl

/-- What trimming unmaps are just the chunks without a block in use. -/
theorem trim_returned (h : Sound machine list)
    (hretains : ∀ index : Fin categoryCount, ∃ here,
      Retains isBusy here (list.category index) (after.category index))
    (hrun : SegregatedList.trim environment (machine, list) = (.ok bytes, machine', after)) :
    obtained (machine'.since machine) = 0 ∧
      returned (machine'.since machine) = list.unusedMappings := by
  obtain ⟨-, haccounted⟩ :=
    (keeps_sumOver Category.keeps_trim (List.finRange categoryCount)).holds environment
      (machine, list) h.mapped
  obtain ⟨events, hlog, hkind⟩ :=
    (logs_sumOver_trim (List.finRange categoryCount)).holds environment (machine, list)
  rw [SegregatedList.trim] at hrun
  rw [hrun] at haccounted hlog
  have hobtained : obtained (machine'.since machine) = 0 := by
    rw [Machine.since_eq hlog]
    exact obtained_eq_zero hkind
  have hbalance := obtained_add haccounted.opens
  rw [hobtained, add_zero] at hbalance
  exact ⟨hobtained, add_left_cancel (hbalance.symm.trans (mappings_eq_add hretains))⟩

end Sound

/-- Trimming succeeds unless a fault stopped the session before or the kernel refuses to take a live
mapping back. Where it succeeds it unmaps just the chunks without a block in use, leaves all else as
it was, and tells by how many bytes the mapped bytes became fewer. Then there is nothing left to
trim. -/
theorem Session.Reachable.trim_exact (h : session.Reachable) (environment : Environment) :
    let run := trim environment (session.machine, session.list)
    (session.Intact → environment.UnmapsLive → ∃ bytes, run.1 = .ok bytes) ∧
      ∀ bytes, run.1 = .ok bytes →
        (∀ index : Fin categoryCount,
          Category.Trimmed (session.list.category index) (run.2.2.category index)) ∧
        ∑ index, (session.list.category index).usage.mapped =
          ∑ index, (run.2.2.category index).usage.mapped + bytes ∧
        returned (run.2.1.since session.machine) = session.list.unusedMappings ∧
        obtained (run.2.1.since session.machine) = 0 ∧
        (∀ address ∈ session.live.map Prod.fst,
          run.2.2.contents address = session.list.contents address) ∧
        ∀ environment' : Environment, trim environment' run.2 = (.ok 0, run.2) := by
  intro run
  have hlist := h.sound.list
  obtain ⟨result, machine', after, hrun, hsound, hevolves, -, hsafe⟩ := hlist.trim environment
  have hrun' : run = (result, machine', after) := hrun
  rw [hrun']
  refine ⟨fun hintact hunmaps => hsafe hintact.exact hunmaps, ?_⟩
  rintro bytes rfl
  obtain ⟨hretains, -, hmapped⟩ := hlist.sumOver_trim_retains (List.nodup_finRange _) hrun
  have hall := fun index => hretains index (List.mem_finRange index)
  obtain ⟨hobtained, hreturned⟩ := hlist.trim_returned hall hrun
  refine ⟨fun index => ?_, hmapped, hreturned, hobtained, ?_, fun environment' => ?_⟩
  · obtain ⟨here, hhere⟩ := hall index
    exact hhere.trimmed (hlist.sound index) (hsound.sound index)
  · intro address hlive
    obtain ⟨ref, index, usable, rfl, huses⟩ := h.sound.exists_uses hlive
    exact hevolves.contents_eq hlist hsound huses (Set.notMem_empty ref)
  · -- every chunk that is left is busy, so there is nothing to trim again
    apply hsound.sumOver_trim_unchanged
    intro index entry hentry
    obtain ⟨here, hhere⟩ := hall index
    rw [hhere.chunks] at hentry
    exact (List.mem_filter.1 hentry).2

end SegregatedList

end PagedAlloc

namespace PagedAlloc.SegregatedList

open Procedure Layout
open Category (isBusy Retains)

attribute [local instance] Size.Paging.common

/-- Of three chunks in two categories the one whose only payload was freed is unmapped. -/
theorem Session.trim_exact_of_three :
    let kernel : Environment := { Environment.ordinary with grantsUnmap := fun _ _ _ => true }
    let session := (((Session.after ⟨.fresh, .empty, []⟩ kernel (.allocate 300000 true)).after
      kernel (.allocate 300000 false)).after kernel (.allocate 64 false)).after kernel (.free 65616)
    let run := trim kernel (session.machine, session.list)
    run.1 = .ok 303104 ∧ session.list.unusedMappings = {⟨65536, 303104⟩} ∧
      (∀ index : Fin categoryCount,
        Category.Trimmed (session.list.category index) (run.2.2.category index)) ∧
      trim kernel run.2 = (.ok 0, run.2) := by
  intro kernel session run
  have fits : kernel.FitsAddresses := Environment.ordinary_fitsAddresses
  have unmaps : kernel.UnmapsLive := fun _ _ _ _ => rfl
  have served : session.Served := ((((Session.Run.start .fresh).step kernel fits
    (.allocate 300000 true) trivial unmaps).step kernel fits (.allocate 300000 false) trivial
    unmaps).step kernel fits (.allocate 64 false) trivial unmaps).step kernel fits (.free 65616)
    (show 65616 ∈ _ by decide +kernel) unmaps
  have hbytes : run.1 = .ok 303104 := by decide +kernel
  have hgone : returned (run.2.1.since session.machine) = {⟨65536, 303104⟩} := by decide +kernel
  clear_value session
  obtain ⟨hsucceeds, hexact⟩ := (Session.Run.reachable served).trim_exact kernel
  obtain ⟨bytes, hrun⟩ := hsucceeds served.intact unmaps
  obtain ⟨htrimmed, -, hreturned, -, -, hagain⟩ := hexact bytes hrun
  exact ⟨hbytes, hreturned.symm.trans hgone, htrimmed, hagain kernel⟩

end PagedAlloc.SegregatedList
