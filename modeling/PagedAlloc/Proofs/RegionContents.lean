import PagedAlloc.Proofs.Outcomes
import PagedAlloc.Region.Resize

/-!
# Contents of resized regions

However a region is resized or moved, the region that takes its place holds the bytes that both
sizes have (`Region.yields_resize`, `Region.yields_relocate`).
-/

namespace PagedAlloc

variable {paging : Size.Paging}

namespace Size

/-- Rounding up never gives less. -/
theorem le_of_roundUp_eq_ok {value align rounded : Nat} (positive : 0 < align)
    (h : roundUp value align = .ok rounded) : value ≤ rounded := by
  unfold roundUp add sub at h
  by_cases hsum : value + align < limit
  · have hone : 1 ≤ value + align := by omega
    have hmod := Nat.mod_lt (value + align - 1) positive
    simp only [if_pos hsum, if_pos hone, bind, Except.bind, pure, Except.pure] at h
    obtain rfl := Except.ok.inj h
    rw [roundDown]
    omega
  · rw [if_neg hsum] at h
    cases h

theorem dvd_of_roundUp_eq_ok {value align rounded : Nat} (h : roundUp value align = .ok rounded) :
    align ∣ rounded := by
  simp only [roundUp, bind, Except.bind] at h
  split at h
  · cases h
  · split at h
    · cases h
    · exact Except.ok.inj h ▸ Nat.dvd_sub_mod _

end Size

namespace Region

open Procedure

/-- All of the memory of a region may be used. -/
def Whole (region : Region) : Prop := region.memory.length = region.length

/-- A region may take the place of another one: it has room for the new size and holds the bytes
that both sizes have. -/
structure Replaces (region : Region) (size newSize : Nat) (replacement : Region) : Prop where
  whole : replacement.Whole
  room : newSize ≤ replacement.length
  cells : ∀ offset, offset < size → offset < newSize →
    replacement.memory.cell offset = region.memory.cell offset

variable {region : Region} {size newSize align : Nat}

/-- A refusal gives no region. -/
theorem yields_refused {α : Type} (aborts : Bool) (size align : Nat) (event : Event)
    (property : α → Prop) : Yields (refused aborts size align event) property := by
  unfold refused
  cases aborts <;> exact Yields.of_next fun _ => Yields.stop _ property

/-- A fresh region is all usable and no smaller than asked for. -/
theorem yields_allocate (source : Source) (size align : Nat) :
    Yields (allocate source size align) fun region => region.Whole ∧ size ≤ region.length := by
  have hpages : Yields (allocatePages size align) fun region =>
      region.Whole ∧ size ≤ region.length := by
    unfold allocatePages
    split
    · exact Yields.bind (Yields.stop _ fun _ => False) fun _ hnever => hnever.elim
    · refine Yields.bind (Yields.orFail ..) fun length hlength => Yields.of_next fun _ =>
        Yields.of_next fun address => Yields.pure ⟨rfl, ?_⟩
      exact Size.le_of_roundToPages?_eq_some hlength
  have hheap : Yields (allocateHeap source size align) fun region =>
      region.Whole ∧ size ≤ region.length := by
    refine Yields.of_next fun _ => Yields.of_next fun found => ?_
    cases found with
    | none => exact yields_refused ..
    | some address =>
      refine Yields.of_next fun environment => Yields.pure ⟨rfl, ?_⟩
      cases source.zeroes <;> exact Nat.le_refl size
  cases source with
  | pageMap => exact hpages
  | heapOrAbort | heapOrFail | heapZeroedOrAbort | heapZeroedOrFail => exact hheap

/-- Fresh memory into which enough of a region was copied may take its place. -/
theorem replaces_copied {count : Nat} {fresh : Memory Empty} (address : Nat)
    (enough : min size newSize ≤ count) (room : newSize ≤ fresh.length) :
    Replaces region size newSize (ofMemory address (region.copied count fresh)) where
  whole := rfl
  room := by
    show newSize ≤ (region.copied count fresh).length
    rwa [copied, Memory.length_write]
  cells offset hold hnew := by
    show (region.copied count fresh).cell offset = _
    rw [copied, Memory.cell_write _ _ _ (show offset < fresh.length by omega),
      if_pos (Nat.zero_le _), Memory.cells_read]
    simp [List.getElem?_range (show offset < count by omega)]

/-- Memory that is resized in place keeps the bytes of both sizes. -/
theorem replaces_resized {length : Nat} (address : Nat) (fresh : Tree Empty)
    (whole : region.memory.length = size) (room : newSize ≤ length) :
    Replaces region size newSize (ofMemory address (region.memory.resized length fresh)) where
  whole := rfl
  room := by
    show newSize ≤ (region.memory.resized length fresh).length
    rwa [Memory.length_resized]
  cells offset hold hnew := Memory.cell_resized _ _ _ (whole ▸ hold) (by omega)

/-- A move through the heap copies the bytes of both sizes. -/
theorem yields_moveHeap (source : Source) (region : Region) (size newSize align : Nat) :
    Yields (moveHeap source region size newSize align) (Replaces region size newSize) := by
  refine Yields.bind (yields_allocate ..) fun target htarget => ?_
  refine Yields.of_next fun _ => Yields.of_next fun _ => Yields.pure ?_
  exact replaces_copied _ (Nat.le_refl _) (htarget.1 ▸ htarget.2)

/-- A move to a fresh mapping copies the bytes of both sizes. -/
theorem yields_moveMapping {length newLength : Nat} (region : Region) (hold : size ≤ length)
    (hnew : newSize ≤ newLength) :
    Yields (moveMapping region length newLength) (Replaces region size newSize) := by
  refine Yields.of_next fun _ => Yields.of_next fun address => Yields.of_next fun access => ?_
  have hmoved : Replaces region size newSize _ := replaces_copied address
    (show min size newSize ≤ min length newLength by omega)
    (show newSize ≤ (Memory.zeroed newLength : Memory Empty).length from hnew)
  cases access with
  | false => exact Yields.of_next fun _ => Yields.of_next fun _ => Yields.pure hmoved
  | true => exact Yields.of_next fun _ => Yields.pure hmoved

/-- The heap keeps the bytes of both sizes, in place or elsewhere. -/
theorem yields_resizeHeap (source : Source) (whole : region.memory.length = size) :
    Yields (resizeHeap source region size newSize align) (Replaces region size newSize) := by
  refine Yields.of_next fun _ => Yields.of_next fun _ => Yields.of_next fun found => ?_
  cases found with
  | none => exact yields_refused ..
  | some address =>
    exact Yields.of_next fun environment => Yields.pure <|
      replaces_resized address _ whole (Nat.le_refl _)

/-- The kernel keeps the bytes of both sizes, in place or elsewhere. -/
theorem yields_resizeMapping {newLength : Nat} (length : Nat) (mayMove : Bool)
    (whole : region.memory.length = size) (hnew : newSize ≤ newLength) :
    Yields (resizeMapping region length newLength mayMove) (Replaces region size newSize) := by
  refine Yields.of_next fun found => ?_
  cases found with
  | none => exact Yields.stop ..
  | some address => exact Yields.pure (replaces_resized address _ whole hnew)

/-- Whatever a resize gives may take the place of the region. -/
theorem yields_resize (resizing : Resizing) (hwhole : region.Whole) (hsize : region.length = size)
    (newSize align : Nat) (diagnostics : Diagnostics) :
    Yields (resize resizing region size newSize align diagnostics)
      (Replaces region size newSize) := by
  have hmemory : region.memory.length = size := hwhole.trans hsize
  -- both ways to remap take the same steps; they differ in whether the mapping may move
  have hremap : ∀ mayMove : Bool, Yields (do
      let length ← orFail .overflow (Size.roundToPages? size)
      let newLength ← orFail .overflow (Size.roundToPages? newSize)
      if mayMove && diagnostics.debugLayer && newLength ≠ 0 then moveMapping region length newLength
      else if newLength = 0 then fail (.invalidLayout newSize align)
      else resizeMapping region length newLength mayMove : Procedure Machine Region)
      (Replaces region size newSize) := by
    intro mayMove
    refine Yields.bind (Yields.orFail ..) fun length hlength =>
      Yields.bind (Yields.orFail ..) fun newLength hnewLength => ?_
    have hold := Size.le_of_roundToPages?_eq_some hlength
    have hnew := Size.le_of_roundToPages?_eq_some hnewLength
    split
    · exact yields_moveMapping region hold hnew
    · split
      · exact Yields.stop ..
      · exact yields_resizeMapping length mayMove hmemory hnew
  unfold resize
  cases resizing with
  | noOp =>
    dsimp only
    split
    · rename_i hle
      exact Yields.pure ⟨hmemory, hle, fun _ _ _ => rfl⟩
    · exact Yields.stop ..
  | heapOrAbort | heapOrFail =>
    dsimp only
    split
    · exact yields_moveHeap ..
    · exact yields_resizeHeap _ hmemory
  | remapMayMove | remapKeepAddress => exact hremap _

/-- Whatever a relocation gives may take the place of the region. -/
theorem yields_relocate (strategies : Strategies) (hwhole : region.Whole)
    (hsize : region.length = size) (newSize align : Nat) (diagnostics : Diagnostics) :
    Yields (relocate strategies region size newSize align diagnostics)
      (Replaces region size newSize) := by
  unfold relocate
  split
  · exact Yields.stop ..
  · split
    · exact yields_resize _ hwhole hsize ..
    · refine Yields.bind (yields_allocate ..) fun target htarget => ?_
      refine Yields.of_next fun _ => Yields.of_next fun _ => Yields.pure ?_
      have henough : min size newSize ≤ min size target.length := by omega
      exact replaces_copied _ henough (htarget.1 ▸ htarget.2)

end Region

end PagedAlloc
