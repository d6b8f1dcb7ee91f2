import PagedAlloc.Proofs.Accounts
import PagedAlloc.Proofs.StaleHeaders

/-!
# Freeing twice

A payload that is given back a second time is noticed, whatever was freed in between: the header in
front of it stays in memory through all merges, and it says that the block is free (`Freed`). So the
second time ends in the fault for it and changes nothing but the log
(`Session.Reachable.free_twice`).
-/

namespace PagedAlloc

variable {paging : Size.Paging}

open Procedure Layout

namespace Category

/-- In front of a payload of the category there is the header of a freed block. -/
def Freed (category : Category) (ref : BlockRef) : Prop :=
  ∃ chunk, (ref.chunk, chunk) ∈ category.chunks.toList ∧
    chunk.Freed ref.chunk (chunk.slots ref.chunk) ref.offset

variable {machine : Machine} {category : Category} {ref : BlockRef} {size : Nat}

/-- Freeing a block leaves its header as that of a freed one, and keeps all those that were there
before. -/
theorem Sound.free_freed (h : Sound machine category) (huses : category.Uses ref size)
    (environment : Environment) :
    ∃ after, Category.free ref environment (machine, category) = (.ok (), machine, after) ∧
      ∀ other, other = ref ∨ category.Freed other → after.Freed other := by
  obtain ⟨address, chunk, before, after, rfl, hmem, hslots⟩ := huses.split
  obtain ⟨final, hrun, hsettled, -, -, hfreed⟩ := h.free_block hmem hslots environment
  refine ⟨_, hrun, fun other hother => ?_⟩
  have hfinal : (address, final) ∈
      (category.changed address final (category.used - size)).chunks.toList :=
    (h.mem_changed_iff hmem).2 (Or.inl rfl)
  rcases hother with rfl | ⟨old, hold, hgone⟩
  · exact ⟨final, hfinal, hsettled.slots_eq.symm ▸ hfreed _ (Or.inl rfl)⟩
  · by_cases hchunk : other.chunk = address
    · -- in the chunk of the block, what was freed survives the merge
      obtain ⟨_, offset⟩ := other
      simp only at hchunk hold hgone
      subst hchunk
      obtain rfl := h.sequence.mem_unique hold hmem
      rw [hslots] at hgone
      exact ⟨final, hfinal, hsettled.slots_eq.symm ▸ hfreed offset (Or.inr hgone)⟩
    · exact ⟨old, (h.mem_changed_iff hmem).2 (Or.inr ⟨hchunk, hold⟩), hgone⟩

/-- A block whose header says that it is free cannot be freed. -/
theorem Sound.free_of_freed (h : Sound machine category) (hfreed : category.Freed ref)
    (environment : Environment) :
    Category.free ref environment (machine, category) =
      (.error (.fault (.doubleFree ref.address)), machine, category) := by
  obtain ⟨chunk, hmem, ⟨prev, size, hrecord⟩, -⟩ := hfreed
  have hheader : Category.header ref environment (machine, category) =
      (.ok ⟨ref.chunk, prev, size, true⟩, machine, category) := by
    rw [Category.header, bind_apply_ok _ _ (chunkAt_apply (h.get?_eq hmem)), Chunk.header, hrecord]
    rfl
  rw [Category.free, bind_apply_ok _ _ hheader,
    bind_apply_error _ _ (ensure_apply_not _ (by simp) _ _)]

end Category

namespace SegregatedList

variable {environment : Environment} {machine : Machine} {list : SegregatedList}
  {index : Fin categoryCount} {ref : BlockRef} {size : Nat} {session : Session}

/-- In front of a payload there is the header of a freed block. -/
def Freed (list : SegregatedList) (ref : BlockRef) : Prop :=
  ∃ index : Fin categoryCount, (list.category index).Freed ref

/-- Gives some payloads back, one after the other. -/
def freeEach : List Nat → Procedure (Machine × SegregatedList) Unit
  | [] => return
  | address :: rest => do
    free address
    freeEach rest

/-- A payload that cannot be freed ends a run that went well before. -/
theorem freeEach_append_error {addresses : List Nat} {address : Nat} {reason : Stop}
    {first second third : Machine × SegregatedList}
    (before : freeEach addresses environment first = (.ok (), second))
    (last : free address environment second = (.error reason, third)) :
    freeEach (addresses ++ [address]) environment first = (.error reason, third) := by
  induction addresses generalizing first with
  | nil =>
    obtain ⟨-, rfl⟩ := Prod.mk.inj before
    exact bind_apply_error _ _ last
  | cons head rest ih =>
    rw [List.cons_append, freeEach]
    rw [freeEach] at before
    rcases hhead : free head environment first with ⟨result, middle⟩
    cases result with
    | error other =>
      rw [bind_apply_error _ _ hhead] at before
      cases before
    | ok value =>
      rw [bind_apply_ok _ _ hhead] at before ⊢
      exact ih before

namespace Sound

/-- Freeing a payload keeps the headers of all freed blocks, its own among them. -/
theorem free_freed (h : Sound machine list) (huses : (list.category index).Uses ref size)
    (environment : Environment) :
    ∃ machine' after, SegregatedList.free ref.payload environment (machine, list) =
        (.ok (), machine', after) ∧
      ∀ other, other = ref ∨ list.Freed other → after.Freed other := by
  obtain ⟨state, hrun, hfreed⟩ :=
    ((h.of_log (.freed index size ref.payload :: machine.log)).sound index).free_freed huses
      environment
  refine ⟨_, _, (h.free_apply huses environment).trans (onCategory_apply hrun), ?_⟩
  rintro other (rfl | ⟨i, hgone⟩)
  · exact ⟨index, by rw [category_withCategory_self]; exact hfreed _ (Or.inl rfl)⟩
  · by_cases hi : i = index
    · subst hi
      exact ⟨i, by rw [category_withCategory_self]; exact hfreed _ (Or.inr hgone)⟩
    · exact ⟨i, by rwa [category_withCategory_ne list hi]⟩

/-- A payload with the header of a freed block in front of it is not freed again. -/
theorem free_of_freed (h : Sound machine list) (hfreed : list.Freed ref)
    (environment : Environment) :
    ∃ index size, SegregatedList.free ref.payload environment (machine, list) =
      (.error (.fault (.doubleFree ref.address)),
        { machine with log := .freed index size ref.payload :: machine.log }, list) := by
  obtain ⟨index, hgone⟩ := hfreed
  have ⟨chunk, hmem, ⟨prev, size, hrecord⟩, spot, hspot, _, hcovers⟩ := hgone
  have hinside : ref.offset + Block.headerSize < chunk.size := by
    have hend := spot_le_stop hspot
    rw [((h.sound index).settled hmem).tiled.ends] at hend
    exact Nat.lt_of_lt_of_le hcovers.2 hend
  have hplace : ref.payload - ref.chunk - Block.headerSize = ref.offset := by
    simp only [BlockRef.payload, BlockRef.payloadOffset]
    omega
  -- the address leads to the chunk, and the header in front of it back to the block
  have hholding : list.chunkHolding? ref.payload = some (index, ref.chunk, chunk) :=
    h.chunkHolding?_eq hmem (Nat.le_add_right ..) (by
      simp only [BlockRef.payload, BlockRef.payloadOffset]
      omega)
  have hblock : list.blockOf ref.payload = .ok (ref, ⟨ref.chunk, prev, size, true⟩) := by
    simp only [blockOf, hholding, hplace, hrecord]
    rw [Nat.add_sub_cancel_left]
  have hcategory : list.categoryAt ref = .ok index := by
    rw [categoryAt, h.chunkFrom?_eq hmem]
    exact congrArg _ (h.category_eq hmem)
  have hfound : ((list.category index).chunks.get? ref.chunk).isSome = true := by
    rw [(h.sound index).get?_eq hmem]
    rfl
  have hnoted := h.of_log (.freed index size ref.payload :: machine.log)
  have hrefused := (hnoted.sound index).free_of_freed hgone environment
  refine ⟨index, size, ?_⟩
  rw [SegregatedList.free, bind_apply_ok _ _ (own_apply ..), hblock,
    bind_apply_ok _ _ (checked_ok ..)]
  simp only [hcategory]
  rw [bind_apply_ok _ _ (checked_ok ..), dif_pos index.isLt,
    bind_apply_ok _ _ (ensure_apply _ hfound _ _), bind_apply_ok _ _ (note_apply ..),
    onCategory_apply hrefused, withCategory_self]

/-- Freeing some payloads, each once, succeeds, and keeps the headers of all freed blocks. -/
theorem free_each (h : Sound machine list) {addresses : List Nat} (distinct : addresses.Nodup)
    (used : ∀ address ∈ addresses, ∃ (index : Fin categoryCount) (ref : BlockRef) (size : Nat),
      address = ref.payload ∧ (list.category index).Uses ref size) (environment : Environment) :
    ∃ machine' after, freeEach addresses environment (machine, list) =
        (.ok (), machine', after) ∧ Sound machine' after ∧
      (∀ ref, list.Freed ref → after.Freed ref) ∧
      ∀ address ∈ addresses, ∃ ref, address = ref.payload ∧ after.Freed ref := by
  induction addresses generalizing machine list with
  | nil => exact ⟨machine, list, rfl, h, fun _ hgone => hgone, by simp⟩
  | cons address rest ih =>
    obtain ⟨hfirst, hrest⟩ := List.nodup_cons.1 distinct
    obtain ⟨index, ref, size, rfl, huses⟩ := used address (List.mem_cons_self ..)
    obtain ⟨machine', middle, hrun, hsound, hevolves, -⟩ := h.free huses environment
    obtain ⟨_, _, hrun', hfreed⟩ := h.free_freed huses environment
    obtain ⟨-, rfl⟩ := Prod.mk.inj (Prod.mk.inj (hrun.symm.trans hrun')).2
    -- the blocks that are still to be freed are other ones, so they stay in use
    obtain ⟨machine'', after, hrunRest, hsound', hkept, hgone⟩ := ih hsound hrest
      fun other hother => by
        obtain ⟨i, target, room, rfl, huses'⟩ := used other (List.mem_cons_of_mem _ hother)
        exact ⟨i, target, room, rfl, hevolves.stays i target room huses' fun heq =>
          ne_of_mem_of_not_mem hother hfirst (congrArg BlockRef.payload heq)⟩
    refine ⟨machine'', after, ?_, hsound', fun other hother => hkept other (hfreed other (Or.inr hother)),
      ?_⟩
    · rw [freeEach, bind_apply_ok _ _ hrun]
      exact hrunRest
    · rintro other hother
      rcases List.mem_cons.1 hother with rfl | hother
      · exact ⟨ref, rfl, hkept ref (hfreed ref (Or.inl rfl))⟩
      · exact hgone other hother

end Sound

/-- A live address is freed, then any other live ones, each once and in any order, and then the same
address again. All calls but the last succeed. The last is stopped as a double free, and leaves the
list and all of the machine but the log as they were. -/
theorem Session.Reachable.free_twice (h : session.Reachable) {address : Nat} {others : List Nat}
    (distinct : (address :: others).Nodup)
    (live : ∀ place ∈ address :: others, place ∈ session.live.map Prod.fst)
    (environment : Environment) :
    ∃ machine list index size,
      freeEach (address :: others) environment (session.machine, session.list) =
          (.ok (), machine, list) ∧
        freeEach (address :: others ++ [address]) environment
            (session.machine, session.list) =
          (.error (.fault (.doubleFree (address - Block.headerSize))),
            { machine with log := .freed index size address :: machine.log }, list) := by
  obtain ⟨machine, list, hrun, hsound, -, hgone⟩ := h.sound.list.free_each distinct
    (fun place hplace => by
      obtain ⟨ref, index, size, rfl, huses⟩ := h.sound.exists_uses (live place hplace)
      exact ⟨index, ref, size, rfl, huses⟩) environment
  obtain ⟨ref, rfl, hfreed⟩ := hgone address (List.mem_cons_self ..)
  obtain ⟨index, size, hlast⟩ := hsound.free_of_freed hfreed environment
  have haddress : ref.payload - Block.headerSize = ref.address := by
    simp only [BlockRef.payload, BlockRef.payloadOffset, BlockRef.address]
    omega
  refine ⟨machine, list, index, size, hrun, ?_⟩
  rw [haddress]
  exact freeEach_append_error hrun hlast

end SegregatedList

end PagedAlloc

namespace PagedAlloc.SegregatedList

open Procedure Layout

attribute [local instance] Size.Paging.common

/-- Three payloads next to each other. The one in the middle is freed, its neighbours take it in, and
it is noticed as freed then. -/
theorem free_twice_of_absorbed :
    let session := ((Session.after ⟨.fresh, .empty, []⟩ .ordinary (.allocate 64 true)).after
      .ordinary (.allocate 50 false)).after .ordinary (.allocate 64 false)
    session.live = [(65808, 64), (65712, 50), (65616, 64)] ∧
      ∃ machine list index size,
        freeEach [65712, 65808, 65616] .ordinary (session.machine, session.list) =
            (.ok (), machine, list) ∧
          freeEach [65712, 65808, 65616, 65712] .ordinary (session.machine, session.list) =
            (.error (.fault (.doubleFree 65680)),
              { machine with log := .freed index size 65712 :: machine.log }, list) := by
  intro session
  have fits := Environment.ordinary_fitsAddresses
  have reachable : session.Reachable :=
    (((Session.Reachable.start .fresh).step .ordinary fits (.allocate 64 true) trivial).step
      .ordinary fits (.allocate 50 false) trivial).step .ordinary fits (.allocate 64 false) trivial
  have live : session.live = [(65808, 64), (65712, 50), (65616, 64)] := by decide +kernel
  exact ⟨live, reachable.free_twice (show [65712, 65808, 65616].Nodup by decide)
    (by rw [live]; decide) .ordinary⟩

end PagedAlloc.SegregatedList
