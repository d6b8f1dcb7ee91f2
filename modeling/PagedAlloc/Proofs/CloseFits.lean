import PagedAlloc.Proofs.ResizingInPlace
import PagedAlloc.Proofs.Rounding
import PagedAlloc.Proofs.Undoing

/-!
# Close fits

A block that is taken, shrunk or grown is cut where that leaves another block, header and all. What it
keeps beyond the size that was wanted is less than that (`Layout.Close`), and as all sizes are multiples
of the alignment it is a header at most (`Layout.Close.le`). In a category that cuts its blocks this
comes of every way to serve a request: a free block that is cut or taken whole, one of a new chunk, a
block that shrinks or grows where it is, and a move. Once served a payload stays as close as it was
(`SegregatedList.Session.Reachable.closeFits`).
-/

namespace PagedAlloc

variable {paging : Size.Paging}

open Procedure Layout

namespace Layout

/-- A block has the bytes that are wanted of it, and beyond them too few for another block. -/
def Close (size room : Nat) : Prop :=
  size ≤ room ∧ room < size + Block.headerSize + Block.minPayload

variable {size room old : Nat} {behind : List Slot} {slot : Slot}

/-- A block of just the size that was wanted is close to it. -/
theorem Close.refl (size : Nat) : Close size size :=
  ⟨Nat.le_refl _, by simp only [Block.headerSize, Block.minPayload]; omega⟩

/-- Between sizes that are aligned there is no room for less than the smallest payload. -/
theorem Close.le (h : Close size room) (hsize : Block.payloadAlign ∣ size)
    (hroom : Block.payloadAlign ∣ room) : room ≤ size + Block.headerSize := by
  obtain ⟨-, hless⟩ := h
  simp only [Block.payloadAlign, Block.headerSize, Block.minPayload] at *
  omega

/-- What is cut is as large as wanted, and what is not cut has no room for another block. -/
theorem close_cut (fits : size ≤ slot.size) : Close size (cut true size slot).1.size := by
  unfold cut
  split
  · exact .refl size
  · rename_i hnarrow
    exact ⟨fits, Nat.lt_of_not_le fun hroom => hnarrow ⟨rfl, hroom⟩⟩

/-- A block that is resized where it is becomes close to its new size. -/
theorem close_resized (resizable : Resizable true old size behind) :
    ∃ room rest, resized true old size behind = ⟨room, false⟩ :: rest ∧ Close size room := by
  by_cases hle : size ≤ old
  · by_cases hroom : size + Block.headerSize + Block.minPayload ≤ old
    · rw [resized_of_room hle ⟨rfl, hroom⟩]
      exact ⟨size, _, rfl, .refl size⟩
    · rw [resized_of_narrow hle fun hcut => hroom hcut.2]
      exact ⟨old, behind, rfl, hle, Nat.lt_of_not_le hroom⟩
  · obtain ⟨-, next, hnext, -, hfits⟩ := resizable.resolve_left hle
    obtain ⟨rest, rfl⟩ := List.head?_eq_some_iff.1 hnext
    have hgrown : size ≤ old + next.total := hfits.trans_eq (Nat.add_assoc ..)
    have hclose : Close size (cut true size ⟨old + next.total, false⟩).1.size := close_cut hgrown
    have hused := cut_isFree true size ⟨old + next.total, false⟩
    rcases hcut : cut true size ⟨old + next.total, false⟩ with ⟨⟨taken, isFree⟩, tail⟩
    rw [hcut] at hclose hused
    obtain rfl : isFree = false := hused
    exact ⟨taken, tail ++ rest, resized_of_more hle next hcut, hclose⟩

end Layout

namespace Category

variable {environment : Environment} {machine machine' : Machine} {category state : Category}
  {size : Nat} {ref : BlockRef}

/-- A category that cuts its blocks gives one that is close to the size, whether it was free before
or is new. -/
theorem Sound.allocate_close (h : Sound machine category) (fits : environment.FitsAddresses)
    (shared : category.chunkSize.isSome = true) (valid : Slot.Valid ⟨size, true⟩)
    (hrun : Category.allocate size environment (machine, category) = (.ok ref, machine', state)) :
    ∃ room, state.Uses ref room ∧ Close size room := by
  obtain ⟨result, middle, searched, hfind, hsound, hevolves, hfound, -⟩ := h.findOrMap fits size
  rw [Category.allocate] at hrun
  cases result with
  | error reason =>
    rw [bind_apply_error _ _ hfind] at hrun
    cases hrun
  | ok found =>
    obtain ⟨address, chunk, before, slot, back, hmem, hslots, hfree, hlarge, rfl⟩ :=
      hfound found rfl
    obtain ⟨final, htake, hsettled, -⟩ :=
      hsound.take_block hmem hslots hfree hlarge valid environment
    have hcuts : searched.chunkSize.isSome = true := hevolves.chunkSize ▸ shared
    rw [hcuts] at htake hsettled
    rw [bind_apply_ok _ _ hfind] at hrun
    simp only at hrun
    rw [bind_apply_ok _ _ htake] at hrun
    cases hrun
    exact ⟨_, hsound.uses_changed hmem hsettled.slots_eq (mem_spots_iff.2 ⟨before, _, rfl, rfl⟩),
      close_cut hlarge⟩

end Category

namespace SegregatedList

variable {environment : Environment} {machine machine' : Machine} {list after : SegregatedList}
  {index : Fin categoryCount} {ref : BlockRef} {old request size address : Nat} {zero : Bool}

/-! ## Sizes -/

/-- The categories of payloads of up to 256 KiB cut their blocks. -/
theorem isSome_chunkSizeOf (small : request ≤ 262144) :
    (chunkSizeOf (categoryFor request)).isSome = true := by
  have hshared : ∀ index : Fin categoryCount, (index : Nat) < limits.length →
      (chunkSizeOf index).isSome = true := by decide
  exact hshared _ (List.findIdx_lt_length_of_exists ⟨262144, by decide, decide_eq_true small⟩)

/-- Sizes of up to 256 KiB have a payload size. -/
theorem exists_payloadSize (small : request ≤ 262144) :
    ∃ size, Block.payloadSize? request = some size := by
  have hfits : max request Block.minPayload + (Block.payloadAlign - 1) < Size.limit := by
    simp only [Block.minPayload, Block.payloadAlign, Size.limit]
    omega
  rw [Block.payloadSize?, Size.roundUp?, Size.add?, if_pos hfits]
  exact ⟨_, rfl⟩

/-! ## Serving a request -/

/-- An address is that of a block in use that is close to a payload size. -/
def ServedClosely (inUse : Set (Fin categoryCount × BlockRef × Nat)) (address size : Nat) : Prop :=
  ∃ ref room, address = ref.payload ∧ (categoryFor size, ref, room) ∈ inUse ∧ Close size room

namespace ServedClosely

variable {inUse : Set (Fin categoryCount × BlockRef × Nat)}
  {block : Fin categoryCount × BlockRef × Nat}

theorem insert (h : ServedClosely inUse address size) :
    ServedClosely (Insert.insert block inUse) address size := by
  obtain ⟨ref, room, hplace, hmem, hclose⟩ := h
  exact ⟨ref, room, hplace, Set.mem_insert_of_mem _ hmem, hclose⟩

theorem erase (h : ServedClosely inUse address size) (other : address ≠ block.2.1.payload) :
    ServedClosely (inUse \ {block}) address size := by
  obtain ⟨ref, room, rfl, hmem, hclose⟩ := h
  refine ⟨ref, room, rfl, ⟨hmem, ?_⟩, hclose⟩
  rintro rfl
  exact other rfl

end ServedClosely

namespace Sound

/-- Allocating hands out a block that is close to the size. -/
theorem allocate_close (h : Sound machine list) (fits : environment.FitsAddresses)
    (hsize : Block.payloadSize? request = some size)
    (shared : (chunkSizeOf (categoryFor request)).isSome = true)
    (hrun : SegregatedList.allocate request zero environment (machine, list) =
      (.ok address, machine', after)) :
    ServedClosely after.inUse address size := by
  obtain ⟨result, middle, final, state, filled, hallocate, hrun', hplain⟩ :=
    h.allocate_within fits hsize zero
  rw [hrun] at hrun'
  cases result with
  | error reason => cases hrun'
  | ok ref =>
    obtain ⟨rfl, -, rfl⟩ : address = ref.payload ∧ machine' = final ∧
        after = list.withCategory (categoryFor request) filled := by
      simpa [Except.map] using hrun'
    rw [← h.chunkSize] at shared
    obtain ⟨room, huses, hclose⟩ := (h.sound (categoryFor request)).allocate_close fits shared
      ((valid_of_payloadSize?_eq_some hsize).2 true) hallocate
    refine ⟨ref, room, rfl, mem_inUse.2 ?_, hclose⟩
    rw [categoryFor_payloadSize hsize, category_withCategory_self]
    exact Category.mem_inUse.2 (Category.uses_of_plain hplain huses)

/-- Moving a payload hands out a block that is close to the size. -/
theorem move_close (h : Sound machine list) (fits : environment.FitsAddresses)
    (huses : (list.category index).Uses ref old) (hsize : Block.payloadSize? request = some size)
    (shared : (chunkSizeOf (categoryFor size)).isSome = true)
    (hrun : SegregatedList.move ref.payload old size zero environment (machine, list) =
      (.ok address, machine', after)) :
    ServedClosely after.inUse address size := by
  obtain ⟨_, _, _, hrun', -, -, -, hok⟩ := h.move fits huses size zero
  cases hrun'.symm.trans hrun
  obtain ⟨-, target, usable, rfl, hresizes, _, _, hallocate, hobtains⟩ := hok address rfl
  -- the block that was moved to is the one that was allocated
  obtain ⟨_, _, _, hallocate', hsound, -⟩ := h.allocate fits size false
  cases hallocate'.symm.trans hallocate
  obtain ⟨other, room, hplace, hinUse, hclose⟩ :=
    h.allocate_close fits (payloadSize?_self hsize) shared hallocate
  cases hsound.inUse_unique hobtains.uses hinUse hplace
  exact ⟨_, _, rfl, hresizes.uses, hclose⟩

/-- Resizing a payload gives a block that is close to the size, where the old one is or elsewhere. -/
theorem reallocate_close (h : Sound machine list) (fits : environment.FitsAddresses)
    (huses : (list.category index).Uses ref old) (hsize : Block.payloadSize? request = some size)
    (shared : (chunkSizeOf (categoryFor request)).isSome = true)
    (hrun : SegregatedList.reallocate (some ref.payload) request zero environment (machine, list) =
      (.ok address, machine', after)) :
    ServedClosely after.inUse address size := by
  rw [← categoryFor_payloadSize hsize] at shared
  obtain ⟨start, chunk, before, behind, rfl, hmem, hslots⟩ := huses.split
  by_cases hstays : StaysPut index old size behind
  · obtain ⟨_, hstayed, hlaid⟩ := h.reallocate_stays fits hmem hslots hsize hstays zero
    cases hstayed.symm.trans hrun
    obtain ⟨rfl, hresizable⟩ := hstays
    rw [shared] at hresizable hlaid
    obtain ⟨room, rest, hresized, hclose⟩ := close_resized hresizable
    rw [hresized] at hlaid
    exact ⟨_, room, rfl, hlaid.uses, hclose⟩
  · rw [h.reallocate_moves hmem hslots hsize hstays zero environment] at hrun
    exact h.move_close fits huses hsize shared hrun

end Sound

/-! ## Whole sessions -/

namespace Session

/-- The blocks of the live addresses are close to the sizes that were asked for last, up to 256 KiB. -/
def CloseFits (inUse : Set (Fin categoryCount × BlockRef × Nat)) (live : List (Nat × Nat)) : Prop :=
  ∀ entry ∈ live, entry.2 ≤ 262144 →
    ∃ size, Block.payloadSize? entry.2 = some size ∧ ServedClosely inUse entry.1 size

variable {session : Session} {call : Call}
  {inUse inUse' : Set (Fin categoryCount × BlockRef × Nat)} {live live' : List (Nat × Nat)}

/-- A call that is answered with an address is a procedure that succeeded with it. -/
theorem exists_run {procedure : Procedure (Machine × SegregatedList) Nat}
    (hcall : call.run = some <$> procedure)
    (hanswer : (call.run environment (session.machine, session.list)).1 = .ok (some address)) :
    ∃ machine' list', procedure environment (session.machine, session.list) =
        (.ok address, machine', list') ∧ (session.after environment call).list = list' := by
  rw [hcall] at hanswer
  obtain ⟨value, hvalue, heq⟩ := ok_of_map _ hanswer
  cases heq
  have hrun : procedure environment (session.machine, session.list) =
      (.ok address, (procedure environment (session.machine, session.list)).2) := Prod.ext hvalue rfl
  refine ⟨_, _, hrun, ?_⟩
  rw [Session.after, hcall, Session.turn_list]

/-- What answers a call is a block that is close to the size that was asked for. -/
theorem Sound.answer_close (h : session.Sound) (fits : environment.FitsAddresses)
    (allowed : call.Allowed session) (answered : call.AnsweredBy environment session address request)
    (small : request ≤ 262144) :
    ∃ size, Block.payloadSize? request = some size ∧
      ServedClosely (session.after environment call).list.inUse address size := by
  obtain ⟨hrequest, hanswer⟩ := answered
  have hshared := isSome_chunkSizeOf small
  obtain ⟨size, hsize⟩ := exists_payloadSize small
  refine ⟨size, hsize, ?_⟩
  -- as in the accounts, `reallocate` without an address is an allocation
  have hallocate : ∀ {call : Call} {zero : Bool},
      call.run = some <$> SegregatedList.allocate request zero →
      (call.run environment (session.machine, session.list)).1 = .ok (some address) →
      ServedClosely (session.after environment call).list.inUse address size := by
    intro call zero hcall hanswer
    obtain ⟨machine', list', hrun, rfl⟩ := exists_run hcall hanswer
    exact h.list.allocate_close fits hsize hshared hrun
  cases call with
  | allocate asked zero =>
    cases hrequest
    exact hallocate rfl hanswer
  | reallocate place asked zero =>
    cases hrequest
    cases place with
    | none => exact hallocate rfl hanswer
    | some place =>
      obtain ⟨ref, index, old, rfl, huses⟩ := h.exists_uses (allowed place rfl)
      obtain ⟨machine', list', hrun, rfl⟩ := exists_run rfl hanswer
      exact h.list.reallocate_close fits huses hsize hshared hrun
  | free _ | clear | trim | write _ _ _ => cases hrequest

/-- The addresses that a call keeps have the blocks that they had. -/
theorem Posting.closeFits {answers : Nat → Nat → Prop} (h : Posting answers inUse live inUse' live')
    (answered : ∀ address request, answers address request → request ≤ 262144 →
      ∃ size, Block.payloadSize? request = some size ∧ ServedClosely inUse' address size)
    (close : CloseFits inUse live) : CloseFits inUse' live' := by
  -- how closely a block fits depends on the block alone, so neither gains nor losses of others
  -- matter
  have herase : ∀ block, CloseFits (inUse \ {block})
      (live.filter fun entry => entry.1 ≠ block.2.1.payload) := by
    intro block entry hentry small
    obtain ⟨hold, hother⟩ := List.mem_filter.1 hentry
    obtain ⟨size, hsize, hserved⟩ := close entry hold small
    exact ⟨size, hsize, hserved.erase (of_decide_eq_true hother)⟩
  have hinsert : ∀ {inUse live}, CloseFits inUse live → ∀ block, ∀ entry ∈ live,
      entry.2 ≤ 262144 → ∃ size, Block.payloadSize? entry.2 = some size ∧
        ServedClosely (insert block inUse) entry.1 size := by
    intro inUse live close block entry hentry small
    obtain ⟨size, hsize, hserved⟩ := close entry hentry small
    exact ⟨size, hsize, hserved.insert⟩
  cases h with
  | kept => exact close
  | gained usable answer =>
    exact List.forall_mem_cons.2 ⟨answered _ _ answer, hinsert close _⟩
  | lost present => exact herase _
  | replaced usable present answer =>
    exact List.forall_mem_cons.2 ⟨answered _ _ answer, hinsert (herase _) _⟩
  | cleared => exact fun _ hentry => absurd hentry List.not_mem_nil

/-- In every session the live payloads of up to 256 KiB are close to their sizes. -/
theorem Reachable.closeFits (h : session.Reachable) :
    CloseFits session.list.inUse session.live := by
  induction h with
  | start machine => exact fun _ hentry => absurd hentry List.not_mem_nil
  | step before environment fits call allowed ih =>
    exact (before.sound.posting fits allowed).closeFits
      (fun _ _ answered => before.sound.answer_close fits allowed answered) ih
  | others before held ih => exact ih

/-- Payloads of up to 256 KiB waste little. When a call is answered, in whatever way it was served, the
block that answers it has the payload size of the request and at most a header more, in multiples of
the alignment. -/
theorem Reachable.waste_bounded (h : session.Reachable) (fits : environment.FitsAddresses)
    (allowed : call.Allowed session) (answered : call.AnsweredBy environment session address request)
    (small : request ≤ 262144) :
    ∃ size usable, Block.payloadSize? request = some size ∧
      (session.after environment call).list.usableSize address = .ok usable ∧
        size ≤ usable ∧ usable ≤ size + 32 ∧ 16 ∣ usable := by
  have hafter := (h.step environment fits call allowed).sound.list
  obtain ⟨size, hsize, ref, usable, rfl, huses, hclose⟩ :=
    h.sound.answer_close fits allowed answered small
  obtain ⟨hvalid, -⟩ := (valid_of_payloadSize?_eq_some hsize).2 true
  obtain ⟨hwhole, -⟩ := hafter.uses_valid huses
  exact ⟨size, usable, hsize, hafter.usableSize_eq huses, hclose.1, hclose.le hvalid hwhole, hwhole⟩

end Session

end SegregatedList

end PagedAlloc

namespace PagedAlloc.SegregatedList.Session

open Procedure Layout

attribute [local instance] Size.Paging.common

/-- A block of 64 bytes is taken whole for 40, since 48 of them leave no room for another one. -/
theorem waste_bounded_of_whole :
    let first := Session.after ⟨.fresh, .empty, []⟩ .ordinary (.allocate 64 false)
    let second := first.after .ordinary (.allocate 16 false)
    let session := second.after .ordinary (.free 65616)
    let call := Call.allocate 40 false
    (session.after .ordinary call).list.usableSize 65616 = .ok 64 ∧
      call.AnsweredBy .ordinary session 65616 40 ∧
      ∃ size usable, Block.payloadSize? 40 = some size ∧
        (session.after .ordinary call).list.usableSize 65616 = .ok usable ∧
          size ≤ usable ∧ usable ≤ size + 32 ∧ 16 ∣ usable := by
  intro first second session call
  have fits := Environment.ordinary_fitsAddresses
  have hlive : 65616 ∈ second.live.map Prod.fst := by decide +kernel
  have reachable : session.Reachable :=
    (((Session.Reachable.start .fresh).step .ordinary fits (.allocate 64 false) trivial).step
      .ordinary fits (.allocate 16 false) trivial).step .ordinary fits (.free 65616) hlive
  have answered : call.AnsweredBy .ordinary session 65616 40 := ⟨rfl, by decide +kernel⟩
  have allowed : call.Allowed session := trivial
  exact ⟨by decide +kernel, answered,
    reachable.waste_bounded fits allowed answered (by decide)⟩

end PagedAlloc.SegregatedList.Session
