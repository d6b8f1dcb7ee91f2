import PagedAlloc.Proofs.Accounts
import PagedAlloc.Proofs.SegregatedLayouts

/-!
# Resizing in place

A payload that is resized stays at its address or moves to another one. Which of the two comes of a
call depends on the category that the new size belongs to, on the block and on the block behind it,
and on nothing else (`SegregatedList.Session.Reachable.moves_iff`). Where the payload stays its block
and the blocks behind it take the shape that `Layout.resized` tells.
-/

namespace PagedAlloc

variable {paging : Size.Paging}

open Procedure Layout

namespace Layout

/-- Whether a block in use of `old` bytes can get `size` bytes where it is: it has them already, or
blocks may be cut and a free block that is large enough lies behind it. -/
def Resizable (shared : Bool) (old size : Nat) (behind : List Slot) : Prop :=
  size ≤ old ∨ shared = true ∧ ∃ next ∈ behind.head?, next.isFree = true ∧
    size ≤ old + Block.headerSize + next.size

/-- What becomes of a block in use of `old` bytes and of the blocks behind it when it is resized where
it is. The end that it has no need for becomes a free block, together with a free block behind it; from
a free block that it grows over it leaves what can be a block. -/
def resized (shared : Bool) (old size : Nat) (behind : List Slot) : List Slot :=
  if size ≤ old then
    if shared = true ∧ size + Block.headerSize + Block.minPayload ≤ old then
      ⟨size, false⟩ :: fuse ⟨old - size - Block.headerSize, true⟩ behind
    else
      ⟨old, false⟩ :: behind
  else
    match behind with
    | [] => [⟨old, false⟩]
    | next :: rest =>
      if size + Block.headerSize + Block.minPayload ≤ old + Block.headerSize + next.size then
        ⟨size, false⟩ :: ⟨old + next.size - size, true⟩ :: rest
      else
        ⟨old + Block.headerSize + next.size, false⟩ :: rest

-- the end that is given up joins the free block behind it
example : resized true 256 64 [⟨32, true⟩, ⟨16, false⟩] =
    [⟨64, false⟩, ⟨224, true⟩, ⟨16, false⟩] := by decide

-- of a free block that is taken in all but the smallest rest stays free
example : resized true 64 128 [⟨80, true⟩] = [⟨128, false⟩, ⟨16, true⟩] ∧
    resized true 64 144 [⟨80, true⟩] = [⟨176, false⟩] := by decide

section Resized

variable {shared : Bool} {old size : Nat} {behind : List Slot}

/-- A block that is cut leaves a free one, which takes the free block behind it. -/
theorem resized_of_room (fits : size ≤ old)
    (room : shared = true ∧ size + Block.headerSize + Block.minPayload ≤ old) :
    resized shared old size behind =
      ⟨size, false⟩ :: fuse ⟨old - size - Block.headerSize, true⟩ behind := by
  unfold resized
  rw [if_pos fits, if_pos room]

/-- What is too small for a block of its own stays with the block. -/
theorem resized_of_narrow (fits : size ≤ old)
    (narrow : ¬ (shared = true ∧ size + Block.headerSize + Block.minPayload ≤ old)) :
    resized shared old size behind = ⟨old, false⟩ :: behind := by
  unfold resized
  rw [if_pos fits, if_neg narrow]

/-- A block grows over the whole free block behind it and is cut then. -/
theorem resized_of_more (more : ¬ size ≤ old) (next : Slot) {taken : Nat} {tail : List Slot}
    (hcut : cut true size ⟨old + next.total, false⟩ = (⟨taken, false⟩, tail)) :
    resized shared old size (next :: behind) = ⟨taken, false⟩ :: (tail ++ behind) := by
  have htotal : old + next.total = old + Block.headerSize + next.size := (Nat.add_assoc ..).symm
  unfold resized
  unfold cut at hcut
  rw [if_neg more]
  simp only [htotal, true_and] at hcut ⊢
  split
  · rename_i hroom
    rw [if_pos hroom] at hcut
    obtain ⟨hslot, rfl⟩ := Prod.mk.inj hcut
    have hrest : old + Block.headerSize + next.size - size - Block.headerSize =
        old + next.size - size := by omega
    rw [← hslot, hrest]
    rfl
  · rename_i hroom
    rw [if_neg hroom] at hcut
    obtain ⟨hslot, rfl⟩ := Prod.mk.inj hcut
    rw [← hslot]
    rfl

end Resized

theorem resized_ne_nil (shared : Bool) (old size : Nat) (behind : List Slot) :
    resized shared old size behind ≠ [] := by
  unfold resized
  split
  · split <;> simp
  · split
    · simp
    · split <;> simp

/-- Behind a slot in use a free one is merged with what is behind it only. -/
theorem coalesced_concat {last slot : Slot} (used : last.isFree = false) (free : slot.isFree = true)
    (before behind : List Slot) :
    coalesced (before ++ [last]) slot behind = before ++ last :: fuse slot behind := by
  rw [coalesced, coalescedBefore, coalescedSlot, mergeBefore_concat, if_neg (by simp [used]), fuse,
    if_pos free, List.append_assoc]
  rfl

end Layout

namespace Category.Sound

variable {environment : Environment} {machine : Machine} {category : Category} {start : Nat}
  {chunk : Chunk} {before behind : List Slot} {old size : Nat}

/-- A block that can be resized where it is stays there, and takes its new shape. -/
theorem resize_stays (h : Sound machine category)
    (hmem : (start, chunk) ∈ category.chunks.toList)
    (hslots : chunk.slots start = before ++ ⟨old, false⟩ :: behind)
    (resizable : Resizable category.chunkSize.isSome old size behind)
    (valid : Slot.Valid ⟨size, false⟩) (environment : Environment) :
    ∃ state, Category.resize ⟨start, stop Chunk.headerSize before⟩ old size environment
        (machine, category) = (.ok true, machine, state) ∧ Sound machine state ∧
      state.LaidOut start (before ++ resized category.chunkSize.isSome old size behind) := by
  have huses : category.Uses ⟨start, stop Chunk.headerSize before⟩ old :=
    .of_slots hmem hslots
  rw [Category.resize]
  -- a smaller block is cut where it is; a larger one needs the free block behind it
  by_cases hle : size ≤ old
  · obtain ⟨state, hshrink, hsound, -⟩ := h.shrink huses hle valid environment
    rw [if_pos hle, bind_apply_ok _ _ hshrink]
    refine ⟨state, rfl, hsound, ?_⟩
    by_cases hroom : category.chunkSize.isSome = true ∧
      size + Block.headerSize + Block.minPayload ≤ old
    · obtain ⟨final, hrun, hsettled, -⟩ :=
        h.shrink_cut hmem hslots hroom.1 hroom.2 valid environment
      obtain rfl : state = category.changed start final (category.used - (old - size)) :=
        congrArg (fun run => run.2.2) (hshrink.symm.trans hrun)
      rw [coalesced_concat rfl rfl] at hsettled
      rw [resized_of_room hle hroom]
      exact h.laidOut_changed hmem hsettled
    · have hrun := h.shrink_refused hmem hslots hle
        (fun hshared => Nat.lt_of_not_le fun hroomy => hroom ⟨hshared, hroomy⟩) environment
      obtain rfl : state = category := congrArg (fun run => run.2.2) (hshrink.symm.trans hrun)
      rw [resized_of_narrow hle hroom]
      exact ⟨chunk, hmem, (h.settled_split hmem hslots).blocks_eq⟩
  · obtain ⟨hshared, next, hnext, hfree, hfits⟩ := resizable.resolve_left hle
    obtain ⟨rest, rfl⟩ := List.head?_eq_some_iff.1 hnext
    have htotal : old + next.total = old + Block.headerSize + next.size := (Nat.add_assoc ..).symm
    obtain ⟨done, state, hgrow, hsound, -⟩ :=
      h.grow huses (Nat.lt_of_not_le hle) valid environment
    obtain ⟨final, taken, tail, hcut, -, hrun, hsettled, -⟩ := h.grow_over hmem hslots hshared hfree
      (Nat.lt_of_not_le hle) (htotal ▸ hfits) valid environment
    obtain ⟨rfl, rfl⟩ : done = true ∧
        state = category.changed start final (category.used + (taken - old)) := by
      simpa using hgrow.symm.trans hrun
    rw [if_neg hle]
    refine ⟨_, hgrow, hsound, ?_⟩
    rw [resized_of_more hle next hcut]
    exact h.laidOut_changed hmem hsettled

/-- A block that cannot be resized where it is stays as it is. -/
theorem resize_refused (h : Sound machine category)
    (hmem : (start, chunk) ∈ category.chunks.toList)
    (hslots : chunk.slots start = before ++ ⟨old, false⟩ :: behind)
    (refused : ¬ Resizable category.chunkSize.isSome old size behind) (environment : Environment) :
    Category.resize ⟨start, stop Chunk.headerSize before⟩ old size environment
        (machine, category) = (.ok false, machine, category) := by
  rw [Category.resize, if_neg fun hle => refused (Or.inl hle)]
  apply h.grow_refused hmem hslots
  rintro hshared next rest rfl hfree
  apply Nat.lt_of_not_le
  intro hle
  exact refused (Or.inr ⟨hshared, next, rfl, hfree, hle.trans_eq (Nat.add_assoc ..).symm⟩)

end Category.Sound

namespace SegregatedList

variable {environment : Environment} {session : Session}

/-- Which payloads stay where they are when they are resized: those of the category that the new size
belongs to whose blocks can be resized in place. -/
def StaysPut (index : Fin categoryCount) (old size : Nat) (behind : List Slot) : Prop :=
  index = categoryFor size ∧ Resizable (chunkSizeOf index).isSome old size behind

namespace Sound

variable {machine : Machine} {list : SegregatedList} {index : Fin categoryCount} {start : Nat}
  {chunk : Chunk} {before behind : List Slot} {old request size : Nat}

/-- A payload that stays put is resized where it is, with success. -/
theorem reallocate_stays (h : Sound machine list) (fits : environment.FitsAddresses)
    (hmem : (start, chunk) ∈ (list.category index).chunks.toList)
    (hslots : chunk.slots start = before ++ ⟨old, false⟩ :: behind)
    (hsize : Block.payloadSize? request = some size) (stays : StaysPut index old size behind)
    (zero : Bool) :
    let address := BlockRef.payload ⟨start, stop Chunk.headerSize before⟩
    ∃ after, SegregatedList.reallocate (some address) request zero environment (machine, list) =
        (.ok address, machine, after) ∧
      (after.category index).LaidOut start
        (before ++ resized (chunkSizeOf index).isSome old size behind) := by
  intro address
  obtain ⟨hindex, hresizable⟩ := stays
  have huses : (list.category index).Uses ⟨start, stop Chunk.headerSize before⟩ old :=
    .of_slots hmem hslots
  have hvalid := (valid_of_payloadSize?_eq_some hsize).2 false
  rw [← h.chunkSize index] at hresizable ⊢
  obtain ⟨state, hdone, hstate, hlaid⟩ :=
    (h.sound index).resize_stays hmem hslots hresizable hvalid environment
  rcases h.reallocate_within huses hsize zero environment with
    ⟨-, _, final, hresize, hrun, hplain⟩ | ⟨hresize, -⟩
  · cases hresize.symm.trans hdone
    obtain ⟨_, _, _, hrun', hsound, -⟩ := h.reallocate fits huses request zero
    cases hrun.symm.trans hrun'
    refine ⟨_, hrun, ?_⟩
    have hfinal := hsound.sound index
    rw [category_withCategory_self] at hfinal ⊢
    exact hstate.laidOut_of_plain hfinal hplain (by simp [resized_ne_nil]) hlaid
  · obtain ⟨_, hnot⟩ := hresize hindex
    cases hnot.symm.trans hdone

/-- A payload that does not stay put is moved. -/
theorem reallocate_moves (h : Sound machine list)
    (hmem : (start, chunk) ∈ (list.category index).chunks.toList)
    (hslots : chunk.slots start = before ++ ⟨old, false⟩ :: behind)
    (hsize : Block.payloadSize? request = some size) (moves : ¬ StaysPut index old size behind)
    (zero : Bool) (environment : Environment) :
    let address := BlockRef.payload ⟨start, stop Chunk.headerSize before⟩
    SegregatedList.reallocate (some address) request zero environment (machine, list) =
      SegregatedList.move address old size zero environment (machine, list) := by
  intro address
  have huses : (list.category index).Uses ⟨start, stop Chunk.headerSize before⟩ old :=
    .of_slots hmem hslots
  rcases h.reallocate_within huses hsize zero environment with
    ⟨hindex, _, _, hresize, -⟩ | ⟨-, hrun⟩
  · have hrefused : ¬ Resizable (list.category index).chunkSize.isSome old size behind := by
      rw [h.chunkSize index]
      exact fun hresizable => moves ⟨hindex, hresizable⟩
    cases hresize.symm.trans
      ((h.sound index).resize_refused hmem hslots hrefused environment)
  · exact hrun

end Sound

/-- A live payload that is resized with success keeps its address just if it stays put. Then the call
always succeeds, and the block and what is behind it are resized in place. Otherwise the payload has
another address, in the category that the new size belongs to. -/
theorem Session.Reachable.moves_iff (h : session.Reachable) (fits : environment.FitsAddresses)
    {address : Nat} (hlive : address ∈ session.live.map Prod.fst) {request size : Nat}
    (hsize : Block.payloadSize? request = some size) (zero : Bool) :
    let run := reallocate (some address) request zero environment (session.machine, session.list)
    ∃ index start before old behind, session.list.Lies address index start before old behind ∧
      (StaysPut index old size behind → run.1 = .ok address ∧
        (run.2.2.category index).LaidOut start
          (before ++ resized (chunkSizeOf index).isSome old size behind)) ∧
      ∀ target, run.1 = .ok target →
        (target = address ↔ StaysPut index old size behind) ∧
        (¬ StaysPut index old size behind → ∃ place front usable rest,
          run.2.2.Lies target (categoryFor size) place front usable rest ∧ size ≤ usable) := by
  intro run
  have hlist := h.sound.list
  obtain ⟨ref, index, old, rfl, huses⟩ := h.sound.exists_uses hlive
  obtain ⟨start, chunk, before, behind, rfl, hmem, hslots⟩ := huses.split
  refine ⟨index, start, before, old, behind, hlist.lies hmem hslots, ?_⟩
  by_cases hstaysPut : StaysPut index old size behind
  · obtain ⟨after, hrun, hlaid⟩ :=
      hlist.reallocate_stays fits hmem hslots hsize hstaysPut zero
    have hrun' : run = (.ok _, session.machine, after) := hrun
    rw [hrun']
    refine ⟨fun _ => ⟨rfl, hlaid⟩, ?_⟩
    rintro target ⟨⟩
    exact ⟨iff_of_true rfl hstaysPut, fun hmoved => absurd hstaysPut hmoved⟩
  · obtain ⟨result, machine', after, hrun, hsound, -, -, hok⟩ :=
      hlist.reallocate fits huses request zero
    have hrun' : run = (result, machine', after) := hrun
    rw [hrun']
    refine ⟨fun hstays => absurd hstays hstaysPut, ?_⟩
    rintro target rfl
    have hmoves := hlist.reallocate_moves hmem hslots hsize hstaysPut zero environment
    have hne := hlist.move_ne fits huses (hmoves.symm.trans hrun)
    refine ⟨iff_of_false hne hstaysPut, fun _ => ?_⟩
    obtain ⟨-, payload, block, usable, hpayload, rfl, hresizes⟩ := hok target rfl
    obtain rfl := Option.some.inj (hsize.symm.trans hpayload)
    obtain ⟨place, front, rest, hlies⟩ := hsound.exists_lies hresizes.uses
    exact ⟨place, front, usable, rest, hlies, hresizes.enough⟩

end SegregatedList

end PagedAlloc

namespace PagedAlloc.SegregatedList

open Procedure Layout

attribute [local instance] Size.Paging.common

/-- A payload that grows over the free block behind it, and one that moves to another category. -/
theorem Session.moves_iff_of_two :
    let session := Session.after ⟨.fresh, .empty, []⟩ .ordinary (.allocate 16 true)
    let grown := reallocate (some 65616) 50 false .ordinary (session.machine, session.list)
    let moved := reallocate (some 65616) 70 false .ordinary (session.machine, session.list)
    grown.1 = .ok 65616 ∧ moved.1 = .ok 131152 ∧
      (∃ index start before old behind,
        session.list.Lies 65616 index start before old behind ∧ StaysPut index old 64 behind) ∧
      ∃ place front usable rest, moved.2.2.Lies 131152 (categoryFor 80) place front usable rest := by
  intro session grown moved
  have fits := Environment.ordinary_fitsAddresses
  have reachable : session.Reachable :=
    (Session.Reachable.start .fresh).step .ordinary fits (.allocate 16 true) trivial
  have hlive : 65616 ∈ session.live.map Prod.fst := by decide +kernel
  have hgrown : grown.1 = .ok 65616 := by decide +kernel
  have hmoved : moved.1 = .ok 131152 := by decide +kernel
  clear_value session
  obtain ⟨index, start, before, old, behind, hlies, -, hstays⟩ :=
    reachable.moves_iff fits hlive (show Block.payloadSize? 50 = some 64 by decide) false
  obtain ⟨_, _, _, _, _, -, -, hmoves⟩ :=
    reachable.moves_iff fits hlive (show Block.payloadSize? 70 = some 80 by decide) false
  obtain ⟨hother, hlies'⟩ := hmoves _ hmoved
  obtain ⟨place, front, usable, rest, hplace, -⟩ :=
    hlies' fun hstaysPut => absurd (hother.2 hstaysPut) (by decide)
  exact ⟨hgrown, hmoved, ⟨index, start, before, old, behind, hlies, (hstays _ hgrown).1.1 rfl⟩,
    place, front, usable, rest, hplace⟩

end PagedAlloc.SegregatedList
