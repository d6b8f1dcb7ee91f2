import PagedAlloc.Proofs.SegregatedState

/-!
# Operations of a segregated list

Each operation keeps the list sound, whatever comes of it, and touches only the block that it was
called on: allocating hands out a block that nobody had, freeing and resizing touch the block of the
address that they were given, and a resize that fails touches no block at all (`Sound.write`,
`Sound.allocate`, `Sound.free`, `Sound.reallocate`, `Sound.clear`, `Sound.trim`). In each case it is
known which blocks are in use afterwards, and what became of the counters.
-/

namespace PagedAlloc.SegregatedList

variable {paging : Size.Paging}

open Procedure Layout

variable {environment : Environment} {machine machine' : Machine}
  {list middle after : SegregatedList} {index : Fin categoryCount} {address size : Nat}
  {ref : BlockRef}

/-! ## Sizes and categories -/

/-- A request is rounded up to a size that a block may have. -/
theorem valid_of_payloadSize?_eq_some {request : Nat} (h : Block.payloadSize? request = some size) :
    request ≤ size ∧ ∀ isFree, Slot.Valid ⟨size, isFree⟩ := by
  rw [Block.payloadSize?, Size.roundUp?, Option.map_eq_some_iff] at h
  obtain ⟨sum, hsum, rfl⟩ := h
  rw [Size.add?] at hsum
  split at hsum
  · obtain rfl := Option.some.inj hsum
    simp only [Slot.Valid, Size.roundDown, Block.payloadAlign, Block.minPayload]
    refine ⟨?_, fun _ => ⟨?_, ?_⟩⟩ <;> omega
  · simp at hsum

/-- A payload of a payload size gets just that size. -/
theorem payloadSize?_self {request : Nat} (h : Block.payloadSize? request = some size) :
    Block.payloadSize? size = some size := by
  obtain ⟨-, hleast⟩ := (valid_of_payloadSize?_eq_some h).2 true
  rw [Block.payloadSize?, max_eq_left hleast]
  exact Size.roundUp?_self (by decide) (by decide) h

/-- All limits are payload sizes, so a request and the payload size that serves it are below the same
of them. -/
theorem categoryFor_payloadSize {request : Nat} (h : Block.payloadSize? request = some size) :
    categoryFor size = categoryFor request := by
  rw [Block.payloadSize?, Size.roundUp?, Option.map_eq_some_iff] at h
  obtain ⟨sum, hsum, rfl⟩ := h
  rw [Size.add?] at hsum
  split at hsum
  · obtain rfl := Option.some.inj hsum
    have hsame : ∀ limit ∈ limits,
        (Size.roundDown (max request Block.minPayload + (Block.payloadAlign - 1)) Block.payloadAlign ≤
          limit ↔ request ≤ limit) := by
      simp only [limits, List.forall_mem_cons, List.not_mem_nil, false_imp_iff, implies_true,
        and_true, Size.roundDown, Block.payloadAlign, Block.minPayload]
      omega
    refine Fin.ext ?_
    simp only [categoryFor, limits, List.findIdx_cons, List.findIdx_nil] at hsame ⊢
    simp only [List.forall_mem_cons] at hsame
    obtain ⟨h₀, h₁, h₂, h₃, h₄, -⟩ := hsame
    rw [decide_eq_decide.2 h₀, decide_eq_decide.2 h₁, decide_eq_decide.2 h₂, decide_eq_decide.2 h₃,
      decide_eq_decide.2 h₄]
  · simp at hsum

/-- The length of the chunk that is mapped for a request where no free block serves it, if the
payload and the chunk fit a machine word. -/
def lengthFor? [Size.Paging] (request : Nat) : Option Nat :=
  (Block.payloadSize? request).bind fun size =>
    (chunkSizeOf (categoryFor size)).or (Chunk.lengthFor? size)

/-- A request that is too large for a block is too large for a chunk. -/
theorem lengthFor?_eq_none {request : Nat} (h : Block.payloadSize? request = none) :
    lengthFor? request = none := by
  rw [lengthFor?, h]
  rfl

/-- Rounding a request does not change the length of the chunk for it. -/
theorem lengthFor?_payloadSize {request : Nat} (h : Block.payloadSize? request = some size) :
    lengthFor? size = lengthFor? request := by
  rw [lengthFor?, lengthFor?, h, payloadSize?_self h]

/-- The category that serves a request maps chunks of the length that the request calls for. -/
theorem Sound.lengthFor?_eq (h : Sound machine list) {request : Nat}
    (hsize : Block.payloadSize? request = some size) :
    (list.category (categoryFor size)).lengthFor? size = lengthFor? request := by
  rw [Category.lengthFor?, h.chunkSize, lengthFor?, hsize]
  rfl

/-- What fits a block in use fits a chunk that is mapped for it. -/
theorem Sound.exists_lengthFor? (h : Sound machine list) (huses : (list.category index).Uses ref size)
    {request : Nat} (enough : request ≤ size) : ∃ length, lengthFor? request = some length := by
  obtain ⟨chunk, hmem, hoffset, hend⟩ := h.uses_bounds huses
  obtain ⟨haligned, hleast⟩ : Block.payloadAlign ∣ size ∧ Block.minPayload ≤ size :=
    h.uses_valid huses
  have hsmall := ((h.sound index).settled hmem).tiled.small
  have hwhole := ((h.sound index).laid _ _ hmem).whole
  rw [BlockRef.payloadOffset] at hend
  have hpositive : 0 < Block.payloadAlign := by decide
  obtain ⟨payload, hpayload, hle⟩ := Size.exists_roundUp?_le hpositive (by decide) haligned
    (max_le enough hleast) (show size < Size.limit by omega)
  have hsum : Chunk.headerSize + Block.headerSize + payload ≤ chunk.size := by omega
  obtain ⟨length, hlength, -⟩ := Size.exists_roundUp?_le Size.pageSize_pos
    Size.pageSize_dvd_limit hwhole hsum hsmall
  rw [lengthFor?, show Block.payloadSize? request = some payload from hpayload, Option.bind_some]
  cases chunkSizeOf (categoryFor payload) with
  | some shared => exact ⟨shared, rfl⟩
  | none =>
    refine ⟨length, ?_⟩
    rw [Option.none_or, Chunk.lengthFor?, Size.add?, if_pos (by omega), Option.bind_some]
    exact hlength

/-- The chunks of a category hold every payload up to its limit. -/
theorem Sound.serves (h : Sound machine list) (size : Nat) :
    (list.category (categoryFor size)).Serves size := by
  have hroom : ∀ index : Fin categoryCount, ∀ length ∈ chunkSizeOf index,
      ∃ hlimit : index < limits.length,
        Chunk.headerSize + Block.headerSize + limits[index] ≤ length := by decide
  intro length hlength
  rw [h.chunkSize] at hlength
  obtain ⟨hlimit, hle⟩ := hroom _ length hlength
  have hreach := List.findIdx_getElem (w := hlimit)
  rw [decide_eq_true_eq] at hreach
  exact Nat.le_trans (Nat.add_le_add_left hreach _) hle

/-! ## What a request leaves behind -/

/-- What a request for a payload leaves of a list. A failure changes nothing and tells that the
request does not fit or that the kernel refused a chunk for it. Without a fault the mapped bytes stay
exact; from exact ones there is no fault. -/
structure Supplied [Size.Paging] {α : Type} (environment : Environment) (machine : Machine)
    (request : Nat) (before after : SegregatedList) (result : Except Stop α) : Prop where
  failed : ∀ failure, result = .error (.failure failure) →
    after = before ∧ failure.OfPages environment machine.ledger (lengthFor? request)
  exact : before.Exact → (∀ fault, result ≠ .error (.fault fault)) → after.Exact
  safe : before.Exact → ∀ fault, result ≠ .error (.fault fault)

namespace Supplied

variable {α β : Type} {request : Nat}

/-- A request for which there is no size is refused as an overflow. -/
theorem overflow (unfit : Block.payloadSize? request = none) :
    Supplied environment machine request list list
      (.error (.failure .overflow) : Except Stop α) where
  failed other heq := by
    cases heq
    rw [lengthFor?_eq_none unfit]
    exact ⟨rfl, .overflow⟩
  exact hexact _ := hexact
  safe _ := by simp

theorem of_exact (h : list.Exact → after.Exact) (value : α) :
    Supplied environment machine request list after (.ok value) where
  failed := by simp
  exact hexact _ := h hexact
  safe _ := by simp

/-- What goes on from a request that succeeded. -/
theorem of_ok {value : α} (h : Supplied environment machine request list middle (.ok value))
    (hexact : middle.Exact → after.Exact) (other : β) :
    Supplied environment machine request list after (.ok other) :=
  of_exact (fun hbefore => hexact (h.exact hbefore (by simp))) other

/-- Why a request failed does not depend on what it would have given. -/
theorem of_error {reason : Stop}
    (h : Supplied environment machine request list after (.error reason : Except Stop α)) :
    Supplied environment machine request list after (.error reason : Except Stop β) where
  failed failure heq := h.failed failure (by cases heq; rfl)
  exact hexact hsafe := h.exact hexact fun fault heq => hsafe fault (by cases heq; rfl)
  safe hexact fault heq := h.safe hexact fault (by cases heq; rfl)

end Supplied

/-- A request is supplied as its payload is. -/
theorem Supplied.of_payloadSize {α : Type} {request : Nat} {result : Except Stop α}
    (h : Supplied environment machine size list after result)
    (hsize : Block.payloadSize? request = some size) :
    Supplied environment machine request list after result :=
  { h with failed := fun failure heq => lengthFor?_payloadSize hsize ▸ h.failed failure heq }

/-- A category that was supplied makes a list that was. -/
theorem Sound.supplied {α : Type} (h : Sound machine list) (hfits : environment.FitsAddresses)
    {request : Nat} (hsize : Block.payloadSize? request = some size) {state : Category}
    {result : Except Stop α}
    (hsupplied : Category.Supplied environment machine size (list.category (categoryFor size)) state
      result) :
    Supplied environment machine request list (list.withCategory (categoryFor size) state)
      result where
  failed failure heq := by
    obtain ⟨rfl, hpages⟩ := hsupplied.failed failure heq
    exact ⟨withCategory_self .., h.lengthFor?_eq hsize ▸ hpages⟩
  exact hexact hsafe := by
    refine ⟨forall_withCategory (fun _ category => category.Exact)
      (hsupplied.exact (hexact.mapped _) hsafe) fun other _ => hexact.mapped other, ?_⟩
    obtain ⟨length, hsizes, hgrant⟩ := hsupplied.sizes
    have hsum := sum_withCategory (fun category => Category.totalSize category.chunks.toList) list
      (categoryFor size) state
    have hbounded := hexact.bounded
    -- a chunk is mapped only where its pages are granted, and then all mappings together have
    -- addresses
    rcases hgrant with rfl | hgrant
    · simp only [totalSize] at hbounded ⊢
      omega
    · have hroom := h.totalSize_lt hfits hgrant
      simp only [totalSize] at hroom ⊢
      omega
  safe hexact := hsupplied.safe (hexact.mapped _) (h.serves size)

/-- A request was served with a block that nobody had. On demand its cells are zero. -/
structure Obtains (before after : SegregatedList) (request : Nat) (zero : Bool) (ref : BlockRef)
    (usable : Nat) : Prop where
  unused : before.Unused ref
  enough : request ≤ usable
  inUse : after.inUse = insert (categoryFor request, ref, usable) before.inUse
  used : after.totalUsed = before.totalUsed + usable
  zeroed : zero = true → ∀ x < usable,
    after.payloadCell? (categoryFor request) ref x = some (.byte 0)

/-- A block of a category was resized, where it is or by a move. It keeps its cells, as many as both
sizes have, and on demand each of the others is zero or one of its own that was kept as well. -/
structure Resizes (before after : SegregatedList) (size : Nat) (zero : Bool)
    (index : Fin categoryCount) (ref : BlockRef) (old : Nat) (target : BlockRef) (usable : Nat) :
    Prop where
  place : target = ref ∨ before.Unused target
  enough : size ≤ usable
  inUse : after.inUse = insert (categoryFor size, target, usable) (before.inUse \ {(index, ref, old)})
  used : after.totalUsed + old = before.totalUsed + usable
  kept : ∀ x < min old size,
    after.payloadCell? (categoryFor size) target x = before.payloadCell? index ref x
  rest : zero = true → ∀ x, min old size ≤ x → x < usable →
    x < old ∧ after.payloadCell? (categoryFor size) target x = before.payloadCell? index ref x ∨
      after.payloadCell? (categoryFor size) target x = some (.byte 0)

/-- A block that was obtained is in use. -/
theorem Obtains.uses {request usable : Nat} {zero : Bool}
    (h : Obtains list after request zero ref usable) :
    (after.category (categoryFor request)).Uses ref usable := by
  have hmem : (categoryFor request, ref, usable) ∈ after.inUse := by
    rw [h.inUse]
    exact Set.mem_insert ..
  exact hmem

/-- A block that was obtained holds what was asked for. -/
theorem Obtains.holds {request usable : Nat} {zero : Bool}
    (h : Obtains list after request zero ref usable) :
    after.Holds ref request := ⟨_, usable, h.uses, h.enough⟩

/-- The block of a resized payload is in use, wherever it is. -/
theorem Resizes.uses {zero : Bool} {old usable : Nat} {target : BlockRef}
    (h : Resizes list after size zero index ref old target usable) :
    (after.category (categoryFor size)).Uses target usable := by
  have hmem : (categoryFor size, target, usable) ∈ after.inUse := by
    rw [h.inUse]
    exact Set.mem_insert ..
  exact hmem

/-- Beyond its old end a payload that was resized is zero on demand. -/
theorem Resizes.zeroed {zero : Bool} {old usable : Nat} {target : BlockRef}
    (h : Resizes list after size zero index ref old target usable) (hzero : zero = true) (x : Nat)
    (hle : old ≤ x) (hlt : x < usable) :
    after.payloadCell? (categoryFor size) target x = some (.byte 0) := by
  rcases h.rest hzero x ((Nat.min_le_left ..).trans hle) hlt with ⟨hin, -⟩ | hcell
  · exact absurd hin (Nat.not_lt_of_le hle)
  · exact hcell

/-- What giving chunks back does to a list. It changes no block in use, only a fault can stop it, and
without one the mapped bytes stay exact. -/
structure Shed (before after : SegregatedList) (result : Except Stop Nat) : Prop where
  inUse : after.inUse = before.inUse
  used : after.totalUsed = before.totalUsed
  stopped : ∀ reason, result = .error reason → ∃ fault, reason = .fault fault
  exact : ∀ bytes, result = .ok bytes → before.Exact → after.Exact
  sizes : ∀ bytes, result = .ok bytes → after.totalSize + bytes = before.totalSize

namespace Sound

/-! ## Writing -/

/-- Writing into the payload of a used block touches no other one, and no block, hint or counter. -/
theorem write (h : Sound machine list) (huses : (list.category index).Uses ref size) {offset : Nat}
    {content : Stretch BlockHeader} (fits : offset + content.length ≤ size)
    (environment : Environment) :
    ∃ after : SegregatedList,
      SegregatedList.write ref.payload offset content environment (machine, list) =
        (.ok (), machine, after) ∧
      Sound machine after ∧ Evolves {ref} list after ∧ after.inUse = list.inUse ∧
      Balances 0 0 list after ∧
      (∀ x < size, after.payloadCell? index ref x =
        if offset ≤ x ∧ x < offset + content.length then content.cells[x - offset]?
        else list.payloadCell? index ref x) ∧
      ∀ i : Fin categoryCount, (after.category i).layout = (list.category i).layout ∧
        (after.category i).usage = (list.category i).usage := by
  obtain ⟨chunk, hmem, hholding⟩ := h.chunkHolding?_payload huses
  obtain ⟨state, hrun, hsound, hevolves, huses', hlayout, husage, hbalances, hcells⟩ :=
    (h.sound index).write huses fits environment
  obtain ⟨hrun', hsound', hevolves'⟩ := h.onCategory index hrun hsound hevolves
  -- a write neither gains nor loses blocks, so the counter tells that the same ones are in use
  have hused : state.used + size = (list.category index).used + size := by
    rw [← Nat.add_zero state.used, hbalances.used]
    rfl
  have hsame := (h.sound index).inUse_eq_resize hsound hevolves huses huses' hused
  rw [Finset.insert_erase (Category.mem_inUse.2 huses)] at hsame
  refine ⟨list.withCategory index state, ?_, hsound', hevolves', inUse_withCategory_self hsame,
    balances_withCategory hbalances, ?_,
    forall_withCategory (fun i category => category.layout = (list.category i).layout ∧
      category.usage = (list.category i).usage) ⟨hlayout, husage⟩ fun _ _ => ⟨rfl, rfl⟩⟩
  · have hplace : ref.payload - ref.chunk = ref.payloadOffset := by
      rw [BlockRef.payload, Nat.add_sub_cancel_left]
    rw [SegregatedList.write, bind_apply_ok _ _ (own_apply ..)]
    simp only [hholding, hplace]
    exact hrun'
  · intro x hx
    rw [payloadCell?, category_withCategory_self]
    exact hcells x hx

/-- Writing zeroes up to the end of a payload. -/
theorem writeZeros (h : Sound machine list) (huses : (list.category index).Uses ref size)
    {offset : Nat} (inside : offset ≤ size) (environment : Environment) :
    ∃ after : SegregatedList,
      SegregatedList.write ref.payload offset (Stretch.zeros (size - offset)) environment
          (machine, list) = (.ok (), machine, after) ∧
        Sound machine after ∧ Evolves {ref} list after ∧ after.inUse = list.inUse ∧
        Balances 0 0 list after ∧
        (∀ x < offset, after.payloadCell? index ref x = list.payloadCell? index ref x) ∧
        ∀ x, offset ≤ x → x < size → after.payloadCell? index ref x = some (.byte 0) := by
  have hlength : (Stretch.zeros (size - offset) : Stretch BlockHeader).length = size - offset :=
    Stretch.length_zeros _
  obtain ⟨after, hrun, hsound, hevolves, hinUse, hbalances, hcells, -⟩ :=
    h.write huses (show offset + (Stretch.zeros (size - offset)).length ≤ size by omega) environment
  refine ⟨after, hrun, hsound, hevolves, hinUse, hbalances, fun x hx => ?_, fun x hle hx => ?_⟩
  · rw [hcells x (by omega), if_neg (by omega)]
  · rw [hcells x hx, if_pos (by omega), Stretch.getElem?_zeros (by omega)]

/-- Zeroing the rest of a payload on demand, in front of what is done next. -/
theorem zeroRest (h : Sound machine list) (huses : (list.category index).Uses ref size)
    {offset : Nat} (inside : offset ≤ size) (zero : Bool) (environment : Environment) :
    ∃ after : SegregatedList,
      (∀ next : Procedure (Machine × SegregatedList) Nat,
        (if zero = true then do
          let rest ← checked (Size.sub size offset)
          SegregatedList.write ref.payload offset (Stretch.zeros rest)
          next
        else next) environment (machine, list) = next environment (machine, after)) ∧
        Sound machine after ∧ Evolves {ref} list after ∧ after.inUse = list.inUse ∧
        Balances 0 0 list after ∧
        (∀ x < offset, after.payloadCell? index ref x = list.payloadCell? index ref x) ∧
        (zero = true → ∀ x, offset ≤ x → x < size →
          after.payloadCell? index ref x = some (.byte 0)) := by
  cases zero with
  | false =>
    exact ⟨list, fun _ => rfl, h, Evolves.refl .., rfl, Balances.refl _, fun _ _ => rfl, by simp⟩
  | true =>
    obtain ⟨after, hrun, hsound, hevolves, hinUse, hbalances, hkept, hzeroed⟩ :=
      h.writeZeros huses inside environment
    refine ⟨after, ?_, hsound, hevolves, hinUse, hbalances, hkept, fun _ => hzeroed⟩
    intro next
    rw [if_pos rfl, Chunk.sub_eq inside, bind_apply_ok _ _ (checked_ok ..),
      bind_apply_ok _ _ hrun]

/-- Reading a header changes nothing. -/
theorem header (h : Sound machine list) (huses : (list.category index).Uses ref size)
    (environment : Environment) :
    ∃ prev, SegregatedList.onCategory index (Category.header ref) environment (machine, list) =
      (.ok ⟨ref.chunk, prev, size, false⟩, machine, list) := by
  obtain ⟨prev, hrun⟩ := (h.sound index).header huses environment
  refine ⟨prev, ?_⟩
  rw [SegregatedList.onCategory, within, hrun]
  simp only
  rw [withCategory_self]

/-! ## Allocating -/

/-- A block that was not in use in its own category was not in use in any. -/
theorem unused {after : SegregatedList} (hafter : Sound machine' after)
    (hevolves : Evolves ∅ list after) (hown : ∀ old, ¬ (list.category index).Uses ref old)
    (huses : (after.category index).Uses ref size) : list.Unused ref := by
  intro i old hold
  have hstays := hevolves.stays i ref old hold (by simp)
  obtain ⟨chunk, hmem, -⟩ := hafter.uses_bounds huses
  obtain ⟨other, hother, hoffset, hend⟩ := hafter.uses_bounds hstays
  have hvalid := (hafter.uses_valid hstays).2
  obtain ⟨mine, hmine, hoffset', hend'⟩ := hafter.uses_bounds huses
  obtain rfl := (hafter.sound index).sequence.mem_unique hmine hmem
  have hsame := (hafter.eq_of_overlap hother hmem (by
    simp only [Chunk.Apart, BlockRef.payloadOffset, Chunk.headerSize] at *
    omega)).1
  subst hsame
  exact hown old hold

/-- Allocating hands out a block that nobody had and that is large enough, or fails. In both cases
it touches no block in use. -/
theorem allocate (h : Sound machine list) (hfits : environment.FitsAddresses) (request : Nat)
    (zero : Bool) :
    ∃ result machine' after, SegregatedList.allocate request zero environment (machine, list) =
        (result, machine', after) ∧
      Sound machine' after ∧ Evolves ∅ list after ∧
      Supplied environment machine request list after result ∧
      (∀ reason, result = .error reason → after.inUse = list.inUse) ∧
      ∀ address, result = .ok address →
        ∃ ref usable, address = ref.payload ∧ Obtains list after request zero ref usable := by
  rw [SegregatedList.allocate]
  cases hsize : Block.payloadSize? request with
  | none =>
    exact ⟨_, _, _, rfl, h, Evolves.refl .., .overflow hsize, fun _ _ => rfl, by simp⟩
  | some size =>
    obtain ⟨hrequest, hvalid⟩ := valid_of_payloadSize?_eq_some hsize
    have hcategory := categoryFor_payloadSize hsize
    obtain ⟨result, machine', state, hrun, hsound, hevolves, hnew, hfailed, hsupplied⟩ :=
      (h.sound (categoryFor size)).allocate hfits (hvalid true)
    obtain ⟨hrun', hsound', hevolves'⟩ := h.onCategory (categoryFor size) hrun hsound hevolves
    have hsupplied' := h.supplied hfits hsize hsupplied
    rw [bind_apply_ok _ _ (orFail_some ..)]
    simp only
    cases result with
    | error reason =>
      have hinUse := inUse_withCategory_self
        ((h.sound (categoryFor size)).inUse_eq_self hsound hevolves (hfailed reason rfl))
      cases reason with
      | failure failure =>
        rw [bind_apply_ok _ _ (attempt_failure _ hrun')]
        exact ⟨_, _, _, rfl, hsound'.of_log _, hevolves', hsupplied'.of_error, fun _ _ => hinUse,
          by simp⟩
      | fault fault =>
        rw [bind_apply_error _ _ (attempt_fault _ hrun')]
        exact ⟨_, _, _, rfl, hsound', hevolves', hsupplied'.of_error, fun _ _ => hinUse, by simp⟩
    | ok ref =>
      obtain ⟨hown, taken, hle, huses, hused⟩ := hnew ref rfl
      have hinUse := inUse_withCategory_insert
        ((h.sound (categoryFor size)).inUse_eq_insert hsound hevolves hown huses hused)
      have htotal := sum_withCategory Category.used list (categoryFor size) state
      rw [← category_withCategory_self list (categoryFor size) state] at huses
      have hobtains :
          Obtains list (list.withCategory (categoryFor size) state) request false ref taken :=
        ⟨unused hsound' hevolves' hown huses, hrequest.trans hle, hcategory ▸ hinUse, by
          simp only [totalUsed]
          omega, nofun⟩
      rw [bind_apply_ok _ _ (attempt_ok _ hrun')]
      simp only
      -- on demand the whole usable size is zeroed, not just what was asked for
      cases zero with
      | false =>
        refine ⟨_, _, _, rfl, hsound'.of_log _, hevolves', hsupplied'.of_ok (fun exact => exact) _,
          by simp, ?_⟩
        rintro _ ⟨⟩
        exact ⟨ref, taken, rfl, hobtains⟩
      | true =>
        obtain ⟨prev, hheader⟩ := hsound'.header huses environment
        obtain ⟨filled, hwrite, hsound'', hevolves'', hinUse'', hbalances, -, hzeroed⟩ :=
          hsound'.writeZeros huses (Nat.zero_le taken) environment
        rw [Nat.sub_zero] at hwrite
        rw [if_pos rfl, bind_apply_ok _ _ hheader, bind_apply_ok _ _ hwrite]
        refine ⟨_, _, _, rfl, hsound''.of_log _, ?_, hsupplied'.of_ok hbalances.exact _, by simp, ?_⟩
        · refine Evolves.of_fresh ?_ hobtains.unused
          rw [insert_empty_eq]
          exact (hevolves'.mono (Set.empty_subset _)).trans hevolves''
        · rintro _ ⟨⟩
          exact ⟨ref, taken, rfl, hobtains.unused, hobtains.enough, hinUse''.trans hobtains.inUse,
            hbalances.used.trans hobtains.used,
            fun _ x hx => hcategory ▸ hzeroed x (Nat.zero_le x) hx⟩

/-! ## Freeing -/

/-- Freeing a block in use is freeing it in its category. -/
theorem free_apply (h : Sound machine list) (huses : (list.category index).Uses ref size)
    (environment : Environment) :
    SegregatedList.free ref.payload environment (machine, list) =
      SegregatedList.onCategory index (Category.free ref) environment
        ({ machine with log := .freed index size ref.payload :: machine.log }, list) := by
  obtain ⟨prev, hblock⟩ := h.blockOf_eq huses
  obtain ⟨chunk, hmem, -⟩ := h.uses_bounds huses
  have hfound : ((list.category index).chunks.get? ref.chunk).isSome = true := by
    rw [(h.sound index).get?_eq hmem]
    rfl
  rw [SegregatedList.free, bind_apply_ok _ _ (own_apply ..), hblock,
    bind_apply_ok _ _ (checked_ok ..)]
  simp only [h.categoryAt_eq huses]
  rw [bind_apply_ok _ _ (checked_ok ..), dif_pos index.isLt,
    bind_apply_ok _ _ (ensure_apply _ hfound _ _), bind_apply_ok _ _ (note_apply ..)]

/-- Freeing a block in use succeeds and touches no other one. -/
theorem free (h : Sound machine list) (huses : (list.category index).Uses ref size)
    (environment : Environment) :
    ∃ machine' after, SegregatedList.free ref.payload environment (machine, list) =
        (.ok (), machine', after) ∧
      Sound machine' after ∧ Evolves {ref} list after ∧
      after.inUse = list.inUse \ {(index, ref, size)} ∧ Balances size 0 list after := by
  have hnoted := h.of_log (.freed index size ref.payload :: machine.log)
  obtain ⟨state, hrun, hsound, hevolves, hbalances⟩ :=
    (hnoted.sound index).free huses environment
  obtain ⟨hrun', hsound', hevolves'⟩ := hnoted.onCategory index hrun hsound hevolves
  exact ⟨_, _, (h.free_apply huses environment).trans hrun', hsound', hevolves',
    inUse_withCategory_erase
      ((hnoted.sound index).inUse_eq_erase hsound hevolves huses hbalances.used),
    balances_withCategory hbalances⟩

/-! ## Resizing -/

/-- A category that resized a block makes a list that did. -/
theorem resizes {state : Category} {old usable : Nat} (h : Sound machine list)
    (hsound : state.Sound machine')
    (hevolves : Category.Evolves {ref} (machine, list.category (categoryFor size)) (machine', state))
    (hold : (list.category (categoryFor size)).Uses ref old) (huses : state.Uses ref usable)
    (hcells : Category.SameCells (list.category (categoryFor size)) state ref (min old usable))
    (hbalances : Category.Balances old usable (list.category (categoryFor size)) state)
    (enough : size ≤ usable) (zero : Bool)
    (full : zero = true → usable ≤ old) :
    Resizes list (list.withCategory (categoryFor size) state) size zero (categoryFor size) ref old
      ref usable where
  place := Or.inl rfl
  enough := enough
  inUse := inUse_withCategory_resize
    ((h.sound _).inUse_eq_resize hsound hevolves hold huses hbalances.used)
  used := (balances_withCategory hbalances).used
  kept x hx := by
    rw [payloadCell?, category_withCategory_self]
    exact hcells _ (Nat.le_add_right ..) (by omega)
  rest hzero x _ hlt := by
    have hle := full hzero
    rw [payloadCell?, category_withCategory_self]
    exact Or.inl ⟨by omega, hcells _ (Nat.le_add_right ..) (by omega)⟩

/-- Resizing a block where it is succeeds. Where it was possible the block is large enough, and
elsewhere nothing changes. -/
theorem resizeInPlace (h : Sound machine list) {old : Nat}
    (huses : (list.category (categoryFor size)).Uses ref old) (valid : Slot.Valid ⟨size, false⟩)
    (zero : Bool) (environment : Environment) :
    ∃ done after, SegregatedList.resizeInPlace (categoryFor size) ref old size zero environment
        (machine, list) = (.ok done, machine, after) ∧
      Sound machine after ∧ Evolves {ref} list after ∧
      (done = true ∧ (list.Exact → after.Exact) ∧
          (∃ usable, Resizes list after size zero (categoryFor size) ref old ref usable) ∨
        done = false ∧ after = list) := by
  rw [SegregatedList.resizeInPlace]
  by_cases hle : size ≤ old
  · obtain ⟨state, hrun, hsound, hevolves, left, hleft, hless, huses', hcells, hbalances⟩ :=
      (h.sound (categoryFor size)).shrink huses hle valid environment
    obtain ⟨hrun', hsound', hevolves'⟩ := h.onCategory (categoryFor size) hrun hsound hevolves
    rw [if_pos hle, bind_apply_ok _ _ hrun']
    exact ⟨_, _, rfl, hsound', hevolves', Or.inl ⟨rfl, (balances_withCategory hbalances).exact, left,
      h.resizes hsound hevolves huses huses'
        (fun x hx hlt => hcells x hx (by omega)) hbalances hleft zero fun _ => hless⟩⟩
  rw [if_neg hle]
  obtain ⟨done, state, hrun, hsound, hevolves, hcases⟩ :=
    (h.sound (categoryFor size)).grow huses (Nat.lt_of_not_le hle) valid environment
  obtain ⟨hrun', hsound', hevolves'⟩ := h.onCategory (categoryFor size) hrun hsound hevolves
  rw [bind_apply_ok _ _ hrun']
  rcases hcases with ⟨rfl, grown, hgrown, huses', hcells, hbalances⟩ | ⟨rfl, hsame⟩
  · have hresizes := h.resizes hsound hevolves huses huses'
      (fun x hx hlt => hcells x hx (by omega)) hbalances hgrown false (by simp)
    have hexact := (balances_withCategory hbalances).exact
    rw [if_pos rfl]
    cases zero with
    | false => exact ⟨_, _, rfl, hsound', hevolves', Or.inl ⟨rfl, hexact, grown, hresizes⟩⟩
    | true =>
      obtain ⟨prev, hheader⟩ := hsound'.header hresizes.uses environment
      have hmore : old ≤ grown := by omega
      obtain ⟨filled, hwrite, hsound'', hevolves'', hinUse, hwritten, hkept, hzeroed⟩ :=
        hsound'.writeZeros hresizes.uses hmore environment
      rw [if_pos rfl, bind_apply_ok _ _ hheader, Chunk.sub_eq hmore,
        bind_apply_ok _ _ (checked_ok ..), bind_apply_ok _ _ hwrite]
      refine ⟨_, _, rfl, hsound'', hevolves'.trans hevolves'',
        Or.inl ⟨rfl, fun exact => hwritten.exact (hexact exact), grown, hresizes.place, hgrown,
          hinUse.trans hresizes.inUse, ?_, fun x hx => ?_,
          fun _ x hle hlt => Or.inr (hzeroed x (by omega) hlt)⟩⟩
      · have hused := hresizes.used
        have hsame := hwritten.used
        omega
      · exact (hkept x (by omega)).trans (hresizes.kept x hx)
  · rw [if_neg (by simp)]
    subst hsame
    refine ⟨_, _, rfl, hsound', hevolves', Or.inr ⟨rfl, ?_⟩⟩
    rw [withCategory_self]

/-- Moving a payload hands out the block that allocating hands out and frees the old one, or fails
before it touches any. -/
theorem move (h : Sound machine list) (hfits : environment.FitsAddresses) {old : Nat}
    (huses : (list.category index).Uses ref old) (size : Nat) (zero : Bool) :
    ∃ result machine' after,
      SegregatedList.move ref.payload old size zero environment (machine, list) =
        (result, machine', after) ∧ Sound machine' after ∧
      Supplied environment machine size list after result ∧
      (∀ reason, result = .error reason → Evolves ∅ list after ∧ after.inUse = list.inUse) ∧
      ∀ address, result = .ok address → Evolves {ref} list after ∧
        ∃ target usable, address = target.payload ∧
          Resizes list after size zero index ref old target usable ∧
          ∃ machine₁ list₁, SegregatedList.allocate size false environment (machine, list) =
            (.ok address, machine₁, list₁) ∧ Obtains list list₁ size false target usable := by
  obtain ⟨result, machine₁, list₁, hrun, hsound₁, hevolves₁, hsupplied, hfailed, hnew⟩ :=
    h.allocate hfits size false
  rw [SegregatedList.move]
  cases result with
  | error reason =>
    rw [bind_apply_error _ _ hrun]
    exact ⟨_, _, _, rfl, hsound₁, hsupplied, fun _ _ => ⟨hevolves₁, hfailed reason rfl⟩, by simp⟩
  | ok address =>
    obtain ⟨target, usable, rfl, hobtains⟩ := hnew address rfl
    have htarget := hobtains.uses
    have hother : target ≠ ref := fun heq => hobtains.unused index old (heq ▸ huses)
    have hold := hevolves₁.stays index ref old huses (by simp)
    have hcount : min old size ≤ usable := (Nat.min_le_right ..).trans hobtains.enough
    obtain ⟨content, hread, hlength, hcontent⟩ := hsound₁.read_eq hold (min old size)
    obtain ⟨list₂, hwrite, hsound₂, hevolves₂, hinUse₂, hbalances₂, hcells₂, -⟩ :=
      hsound₁.write htarget (show 0 + content.length ≤ usable by omega) environment
    have htarget₂ := uses_of_inUse_eq hinUse₂ htarget
    -- with or without the zeroes, only the new block was written to
    obtain ⟨list₃, hzero, hsound₃, hevolves₃, hinUse₃, hbalances₃, hkept₃, hzeroed₃⟩ :=
      hsound₂.zeroRest htarget₂ hcount zero environment
    have htarget₃ := uses_of_inUse_eq hinUse₃ htarget₂
    have hkept : Evolves {target} list list₃ :=
      ((hevolves₁.mono (Set.empty_subset _)).trans hevolves₂).trans hevolves₃
    have hold₃ := hkept.stays index ref old huses (by simpa using Ne.symm hother)
    have hnoted := hsound₃.of_log (.contentsMoved (min old size) ref.payload target.payload ::
      machine₁.log)
    obtain ⟨machine₄, list₄, hfree, hsound₄, hevolves₄, hinUse₄, hbalances₄⟩ :=
      hnoted.free hold₃ environment
    rw [bind_apply_ok _ _ hrun, bind_apply_ok _ _ (own_apply ..), hsound₁.usableSize_eq htarget,
      bind_apply_ok _ _ (checked_ok ..)]
    simp only
    rw [bind_apply_ok _ _ (own_apply ..), hread, bind_apply_ok _ _ (checked_ok ..),
      bind_apply_ok _ _ hwrite, hzero, bind_apply_ok _ _ (note_apply ..), bind_apply_ok _ _ hfree]
    have hbalances := (hbalances₂.trans hbalances₃).trans hbalances₄
    refine ⟨_, _, _, rfl, hsound₄, hsupplied.of_ok hbalances.exact _, by simp, ?_⟩
    rintro _ ⟨⟩
    have hevolves : Evolves (insert target {ref}) list list₄ :=
      (hkept.mono (by simp)).trans (hevolves₄.mono (by simp))
    refine ⟨hevolves.of_fresh hobtains.unused, target, usable, rfl, ⟨Or.inr hobtains.unused,
      hobtains.enough, ?_, ?_, fun x hx => ?_, fun hzeroes x hle hx => ?_⟩, machine₁, list₁, hrun,
      hobtains⟩
    · rw [hinUse₄, hinUse₃, hinUse₂, hobtains.inUse]
      exact Set.insert_sdiff_of_notMem _ (by simp [hother])
    · have hused := hobtains.used
      have hsame := hbalances.used
      omega
    · rw [hevolves₄.payloadCell?_eq htarget₃ hother (by omega), hkept₃ x hx, hcells₂ x (by omega),
        if_pos (by omega), Nat.sub_zero, hcontent x hx]
      exact hevolves₁.payloadCell?_eq huses (by simp) (by omega)
    · rw [hevolves₄.payloadCell?_eq htarget₃ hother hx]
      exact Or.inr (hzeroed₃ hzeroes x hle hx)

/-- Resizing a block gives one that is large enough, the block itself or one that nobody had, and
touches no other block; where it fails it touches none. -/
theorem reallocate (h : Sound machine list) (hfits : environment.FitsAddresses) {old : Nat}
    (huses : (list.category index).Uses ref old) (request : Nat) (zero : Bool) :
    ∃ result machine' after,
      SegregatedList.reallocate (some ref.payload) request zero environment (machine, list) =
        (result, machine', after) ∧ Sound machine' after ∧
      Supplied environment machine request list after result ∧
      (∀ reason, result = .error reason → Evolves ∅ list after ∧ after.inUse = list.inUse) ∧
      ∀ address, result = .ok address → Evolves {ref} list after ∧
        ∃ size target usable, Block.payloadSize? request = some size ∧ address = target.payload ∧
          Resizes list after size zero index ref old target usable := by
  rw [SegregatedList.reallocate]
  cases hsize : Block.payloadSize? request with
  | none =>
    exact ⟨_, _, _, rfl, h, .overflow hsize, fun _ _ => ⟨Evolves.refl .., rfl⟩, by simp⟩
  | some size =>
    obtain ⟨hrequest, hvalid⟩ := valid_of_payloadSize?_eq_some hsize
    obtain ⟨prev, hblock⟩ := h.blockOf_eq huses
    obtain ⟨result, machine', moved, hmove, hsound, hsupplied, herror, hok⟩ :=
      h.move hfits huses size zero
    have hsupplied := hsupplied.of_payloadSize hsize
    have hmoved : ∀ address, result = .ok address → Evolves {ref} list moved ∧
        ∃ other target usable, some size = some other ∧ address = target.payload ∧
          Resizes list moved other zero index ref old target usable := by
      intro address hresult
      obtain ⟨hevolves, target, usable, haddress, hresizes, -⟩ := hok address hresult
      exact ⟨hevolves, size, target, usable, rfl, haddress, hresizes⟩
    rw [bind_apply_ok _ _ (orFail_some ..), bind_apply_ok _ _ (own_apply ..), hblock,
      bind_apply_ok _ _ (checked_ok ..)]
    simp only [h.categoryAt_eq huses]
    rw [bind_apply_ok _ _ (checked_ok ..)]
    -- a payload stays only in the category that its new size belongs to
    by_cases hideal : (index : Nat) = categoryFor size
    · obtain rfl := Fin.ext hideal
      obtain ⟨done, after, hrun, hsound', hevolves, hcases⟩ :=
        h.resizeInPlace huses (hvalid false) zero environment
      rw [if_pos rfl, bind_apply_ok _ _ hrun]
      rcases hcases with ⟨rfl, hexact, usable, hresizes⟩ | ⟨rfl, rfl⟩
      · refine ⟨_, _, _, rfl, hsound', .of_exact hexact _, by simp, ?_⟩
        rintro _ ⟨⟩
        exact ⟨hevolves, size, ref, usable, rfl, rfl, hresizes⟩
      · rw [if_neg (by simp), hmove]
        exact ⟨_, _, _, rfl, hsound, hsupplied, herror, hmoved⟩
    · rw [if_neg hideal, hmove]
      exact ⟨_, _, _, rfl, hsound, hsupplied, herror, hmoved⟩

/-! ## All categories -/

/-- Clearing categories succeeds, and touches no other ones. -/
theorem onEach_clear (h : Sound machine list) {indices : List (Fin categoryCount)}
    (distinct : indices.Nodup) (environment : Environment) :
    ∃ after, onEach Category.clear indices environment (machine, list) = (.ok (), machine, after) ∧
      Sound machine after ∧ (list.Exact → after.Exact) ∧
      (∀ index ∈ indices, Category.Cleared (list.category index) (after.category index)) ∧
      ∀ index, index ∉ indices → after.category index = list.category index := by
  induction indices generalizing list with
  | nil => exact ⟨list, rfl, h, fun exact => exact, by simp, fun _ _ => rfl⟩
  | cons index rest ih =>
    obtain ⟨hfirst, hrest⟩ := List.nodup_cons.1 distinct
    obtain ⟨state, hrun, hsound, hevolves, hcleared⟩ := (h.sound index).clear environment
    obtain ⟨hrun', hsound', -⟩ := h.onCategory index hrun hsound hevolves
    obtain ⟨after, hruns, hsound'', hexact, hall, hothers⟩ := ih hsound' hrest
    rw [onEach, bind_apply_ok _ _ hrun']
    refine ⟨after, hruns, hsound'',
      fun exact => hexact ((balances_withCategory hcleared.balances).exact exact), ?_, ?_⟩
    · intro other hother
      by_cases heq : other = index
      · rw [heq, hothers index hfirst, category_withCategory_self]
        exact hcleared
      · have hcleared' := hall other ((List.mem_cons.1 hother).resolve_left heq)
        rwa [category_withCategory_ne list heq] at hcleared'
    · intro other hother
      rw [List.mem_cons, not_or] at hother
      rw [hothers other hother.2, category_withCategory_ne list hother.1]

/-- Forgetting every payload succeeds. -/
theorem clear (h : Sound machine list) (environment : Environment) :
    ∃ after, SegregatedList.clear environment (machine, list) = (.ok (), machine, after) ∧
      Sound machine after ∧ (list.Exact → after.Exact) ∧
      ∀ index, Category.Cleared (list.category index) (after.category index) := by
  obtain ⟨after, hrun, hsound, hexact, hall, -⟩ :=
    h.onEach_clear (List.nodup_finRange categoryCount) environment
  exact ⟨after, hrun, hsound, hexact, fun index => hall index (List.mem_finRange index)⟩

/-- A category that gave chunks back makes a list that did. -/
theorem shed (h : Sound machine list) {state : Category} {result : Except Stop Nat}
    (hsound : state.Sound machine')
    (hevolves : Category.Evolves ∅ (machine, list.category index) (machine', state))
    (hshed : Category.Shed (list.category index) state result) :
    Shed list (list.withCategory index state) result where
  inUse := inUse_withCategory_self ((h.sound index).inUse_eq_self hsound hevolves hshed.used)
  used := by
    have hsum := sum_withCategory Category.used list index state
    have hused := hshed.used
    simp only [totalUsed]
    omega
  stopped := hshed.stopped
  exact bytes heq exact := by
    have hsum := sum_withCategory (fun category => Category.totalSize category.chunks.toList) list
      index state
    have hsizes := hshed.sizes bytes heq
    have hbounded := exact.bounded
    refine ⟨forall_withCategory (fun _ category => category.Exact)
      (hshed.exact bytes heq (exact.mapped index)) fun other _ => exact.mapped other, ?_⟩
    simp only [totalSize] at hbounded ⊢
    omega
  sizes bytes heq := by
    have hsum := sum_withCategory (fun category => Category.totalSize category.chunks.toList) list
      index state
    have hsizes := hshed.sizes bytes heq
    simp only [totalSize]
    omega

/-- By induction over the categories: each is trimmed in turn, and the bytes that they give back
are added up. -/
theorem sumOver_trim (h : Sound machine list) (indices : List (Fin categoryCount))
    (environment : Environment) :
    ∃ result machine' after, sumOver Category.trim indices environment (machine, list) =
        (result, machine', after) ∧ Sound machine' after ∧ Evolves ∅ list after ∧
      Shed list after result ∧
      (list.Exact → environment.UnmapsLive → ∃ bytes, result = .ok bytes) := by
  induction indices generalizing machine list with
  | nil =>
    exact ⟨.ok 0, _, _, rfl, h, Evolves.refl .., ⟨rfl, rfl, by simp, fun _ _ exact => exact,
      fun _ heq => by rw [← Except.ok.inj heq]; rfl⟩, fun _ _ => ⟨0, rfl⟩⟩
  | cons index rest ih =>
    obtain ⟨result, machine', state, hrun, hsound, hevolves, hshed, hsafe⟩ :=
      (h.sound index).trim environment
    obtain ⟨hrun', hsound', hevolves'⟩ := h.onCategory index hrun hsound hevolves
    have hshed' := h.shed hsound hevolves hshed
    rw [sumOver]
    cases result with
    | error reason =>
      rw [bind_apply_error _ _ hrun']
      refine ⟨_, _, _, rfl, hsound', hevolves', hshed', fun exact hunmaps => ?_⟩
      obtain ⟨bytes, heq⟩ := hsafe (exact.mapped index) hunmaps
      cases heq
    | ok here =>
      obtain ⟨others, machine'', after, hrest, hsound'', hevolves'', hshed'', hsafe'⟩ := ih hsound'
      have hinUse := hshed''.inUse.trans hshed'.inUse
      have hused := hshed''.used.trans hshed'.used
      rw [bind_apply_ok _ _ hrun']
      cases others with
      | error reason =>
        rw [bind_apply_error _ _ hrest]
        refine ⟨_, _, _, rfl, hsound'', hevolves'.trans hevolves'',
          ⟨hinUse, hused, hshed''.stopped, by simp, by simp⟩, fun exact hunmaps => ?_⟩
        obtain ⟨bytes, heq⟩ := hsafe' (hshed'.exact here rfl exact) hunmaps
        cases heq
      | ok sum =>
        have hfirst := hshed'.sizes here rfl
        have hsecond := hshed''.sizes sum rfl
        rw [bind_apply_ok _ _ hrest]
        by_cases hsmall : here + sum < Size.limit
        · rw [Chunk.add_eq hsmall]
          refine ⟨.ok (here + sum), _, _, rfl, hsound'', hevolves'.trans hevolves'',
            ⟨hinUse, hused, by simp,
              fun _ _ exact => hshed''.exact sum rfl (hshed'.exact here rfl exact),
              fun bytes heq => ?_⟩, fun _ _ => ⟨_, rfl⟩⟩
          obtain rfl := Except.ok.inj heq
          omega
        · -- the sum of what was mapped cannot overflow in an exact list
          have hover : Size.add here sum = .error .addition := if_neg hsmall
          rw [hover]
          refine ⟨_, _, _, rfl, hsound'', hevolves'.trans hevolves'',
            ⟨hinUse, hused, fun _ heq => ⟨_, (Except.error.inj heq).symm⟩, by simp, by simp⟩,
            fun exact _ => absurd exact.bounded (by omega)⟩

/-- Giving unused chunks back touches no block in use, whatever the kernel does with them. -/
theorem trim (h : Sound machine list) (environment : Environment) :
    ∃ result machine' after, SegregatedList.trim environment (machine, list) =
        (result, machine', after) ∧ Sound machine' after ∧ Evolves ∅ list after ∧
      Shed list after result ∧
      (list.Exact → environment.UnmapsLive → ∃ bytes, result = .ok bytes) :=
  h.sumOver_trim _ environment

end Sound

end PagedAlloc.SegregatedList
