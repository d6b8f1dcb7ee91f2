import PagedAlloc.Proofs.PlainCategory

/-!
# Layouts of a segregated list

What an operation of a segregated list does to layouts, hints and counters it does in one category,
or in two if it moves a payload; all else that it does is to write into payloads. Here each operation
on a payload is brought down to the operation of the category (`Sound.allocate_within`,
`Sound.resizeInPlace_within`, `Sound.reallocate_within`), and the categories that it may change are
named (`Confined`).
-/

namespace PagedAlloc

variable {paging : Size.Paging}

open Procedure Layout

/-! ## Blocks in their chunks -/

namespace Category

/-- A chunk of the category begins at an address and is laid out in these slots: a walk over it
visits one block for each of them, and each block tells which one is in front of it. -/
def LaidOut (category : Category) (start : Nat) (slots : List Slot) : Prop :=
  ∃ chunk, (start, chunk) ∈ category.chunks.toList ∧
    chunk.blocks start = .ok (visited start none Chunk.headerSize slots)

/-- Resizes a block in use of `old` bytes where it is, and tells whether that was possible. -/
def resize (ref : BlockRef) (old size : Nat) : Procedure (Machine × Category) Bool := do
  if size ≤ old then
    shrink ref size
    return true
  else
    grow ref size

variable {machine machine' : Machine} {category category' : Category} {start : Nat}
  {chunk final : Chunk} {slots : List Slot}

/-- A slot in use of a layout is a block in use. -/
theorem LaidOut.uses {before behind : List Slot} {size : Nat}
    (h : category.LaidOut start (before ++ ⟨size, false⟩ :: behind)) :
    category.Uses ⟨start, stop Chunk.headerSize before⟩ size := by
  obtain ⟨chunk, hmem, hblocks⟩ := h
  exact .of_slots hmem (Chunk.slots_of_blocks hblocks)

namespace Sound

/-- A chunk is laid out in slots just if the outline says so. -/
theorem laidOut_iff (h : Sound machine category) (nonempty : slots ≠ []) :
    category.LaidOut start slots ↔ ∃ length, (start, length, slots) ∈ category.outline := by
  constructor
  · rintro ⟨chunk, hmem, hblocks⟩
    exact ⟨chunk.size, List.mem_map.2 ⟨(start, chunk), hmem, by rw [Chunk.slots_of_blocks hblocks]⟩⟩
  · rintro ⟨length, hmem⟩
    obtain ⟨⟨place, chunk⟩, hentry, heq⟩ := List.mem_map.1 hmem
    obtain ⟨rfl, -, rfl⟩ : place = start ∧ chunk.size = length ∧ chunk.slots place = slots := by
      simpa using heq
    exact ⟨chunk, hentry, (h.settled hentry).blocks_eq⟩

/-- Categories with the same view are laid out alike. -/
theorem laidOut_of_plain (h : Sound machine category) (h' : Sound machine' category')
    (same : category'.plain = category.plain) (nonempty : slots ≠ [])
    (laidOut : category.LaidOut start slots) : category'.LaidOut start slots := by
  have houtline : category'.outline = category.outline := congrArg PlainCategory.chunks same
  rw [h'.laidOut_iff nonempty, houtline]
  exact (h.laidOut_iff nonempty).1 laidOut

/-- The chunk that was put in is laid out as it is settled. -/
theorem laidOut_changed (h : Sound machine category)
    (hmem : (start, chunk) ∈ category.chunks.toList) {shared : Bool} {used : Nat}
    (settled : final.Settled shared start slots) :
    (category.changed start final used).LaidOut start slots :=
  ⟨final, (h.mem_changed_iff hmem).2 (Or.inl rfl), settled.blocks_eq⟩

end Sound

end Category

namespace SegregatedList

/-- The payload at an address lies in a category, in the chunk at `start`: its block is in use and has
`usable` bytes, with some blocks in front of it and some behind it. -/
structure Lies (list : SegregatedList) (address : Nat) (index : Fin categoryCount) (start : Nat)
    (before : List Slot) (usable : Nat) (behind : List Slot) : Prop where
  place : address = start + stop Chunk.headerSize before + Block.headerSize
  laidOut : (list.category index).LaidOut start (before ++ ⟨usable, false⟩ :: behind)

/-- From one list to another all categories but these are the same. -/
def Confined (indices : Set (Fin categoryCount)) (before after : SegregatedList) : Prop :=
  ∀ index, index ∉ indices → after.category index = before.category index

variable {environment : Environment} {machine machine' : Machine}
  {list middle after : SegregatedList} {index : Fin categoryCount} {ref : BlockRef}
  {request size old : Nat} {indices more : Set (Fin categoryCount)}

/-- Of two states that a category gets one after the other the second one counts. -/
theorem withCategory_withCategory (list : SegregatedList) (index : Fin categoryCount)
    (first second : Category) :
    (list.withCategory index first).withCategory index second = list.withCategory index second := by
  simp [withCategory]

namespace Confined

theorem refl (indices : Set (Fin categoryCount)) (list : SegregatedList) :
    Confined indices list list := fun _ _ => rfl

/-- What two operations may change they may change together. -/
theorem trans (h : Confined indices list middle) (h' : Confined indices middle after) :
    Confined indices list after :=
  fun index hother => (h' index hother).trans (h index hother)

theorem mono (h : Confined indices list after) (sub : indices ⊆ more) : Confined more list after :=
  fun index hother => h index fun hin => hother (sub hin)

/-- Another state of one category leaves the others as they are. -/
theorem withCategory (hin : index ∈ indices) (list : SegregatedList) (category : Category) :
    Confined indices list (list.withCategory index category) := by
  intro other hother
  exact category_withCategory_ne list (ne_of_mem_of_not_mem hin hother).symm category

end Confined

namespace Sound

/-- A slot in use is a block that lies in its category. -/
theorem lies (h : Sound machine list) {start : Nat} {chunk : Chunk} {before behind : List Slot}
    (hmem : (start, chunk) ∈ (list.category index).chunks.toList)
    (hslots : chunk.slots start = before ++ ⟨size, false⟩ :: behind) :
    list.Lies (BlockRef.payload ⟨start, stop Chunk.headerSize before⟩) index start before size
      behind where
  place := (Nat.add_assoc ..).symm
  laidOut := ⟨chunk, hmem, ((h.sound index).settled_split hmem hslots).blocks_eq⟩

/-- A live block lies between the slots in front of it and those behind it. -/
theorem exists_lies (h : Sound machine list) (huses : (list.category index).Uses ref size) :
    ∃ start before behind, list.Lies ref.payload index start before size behind := by
  obtain ⟨start, chunk, before, behind, rfl, hmem, hslots⟩ := huses.split
  exact ⟨start, before, behind, h.lies hmem hslots⟩

/-! ## Writing -/

/-- Writing into a payload changes no layout. -/
theorem write_within (h : Sound machine list) (huses : (list.category index).Uses ref size)
    {offset : Nat} {content : Stretch BlockHeader} (fits : offset + content.length ≤ size)
    (environment : Environment) :
    ∃ final : Category, SegregatedList.write ref.payload offset content environment (machine, list) =
        (.ok (), machine, list.withCategory index final) ∧
      final.plain = (list.category index).plain := by
  obtain ⟨chunk, hmem, hholding⟩ := h.chunkHolding?_payload huses
  obtain ⟨result, machine', final, hrun, hmirror⟩ :=
    (h.sound index).write_plain huses fits environment
  obtain ⟨rfl, rfl, hplain⟩ : result = .ok () ∧ machine' = machine ∧
      final.plain = (list.category index).plain := by
    simpa [eq_comm] using hmirror
  refine ⟨final, ?_, hplain⟩
  have hplace : ref.payload - ref.chunk = ref.payloadOffset := by
    rw [BlockRef.payload, Nat.add_sub_cancel_left]
  rw [SegregatedList.write, bind_apply_ok _ _ (own_apply ..)]
  simp only [hholding, hplace]
  exact onCategory_apply hrun

/-- A write changes no category but the one that it writes to. -/
theorem write_confined (h : Sound machine list) (huses : (list.category index).Uses ref size)
    {offset : Nat} {content : Stretch BlockHeader} (fits : offset + content.length ≤ size)
    (environment : Environment) :
    Confined {index} list
      (SegregatedList.write ref.payload offset content environment (machine, list)).2.2 := by
  obtain ⟨final, hrun, -⟩ := h.write_within huses fits environment
  rw [hrun]
  exact Confined.withCategory (Set.mem_singleton _) list final

/-- Writing zeroes up to the end of a payload changes no layout. -/
theorem writeZeros_within (h : Sound machine list) (huses : (list.category index).Uses ref size)
    {offset : Nat} (inside : offset ≤ size) (environment : Environment) :
    ∃ final : Category, SegregatedList.write ref.payload offset (Stretch.zeros (size - offset))
        environment (machine, list) = (.ok (), machine, list.withCategory index final) ∧
      final.plain = (list.category index).plain := by
  have hlength : (Stretch.zeros (size - offset) : Stretch BlockHeader).length = size - offset :=
    Stretch.length_zeros _
  exact h.write_within huses
    (show offset + (Stretch.zeros (size - offset)).length ≤ size by omega) environment

/-! ## Allocating -/

/-- Allocating takes a block of the category that the size belongs to. -/
theorem allocate_within (h : Sound machine list) (fits : environment.FitsAddresses)
    (hsize : Block.payloadSize? request = some size) (zero : Bool) :
    ∃ (result : Except Stop BlockRef) (machine₁ machine₂ : Machine) (state final : Category),
      Category.allocate size environment (machine, list.category (categoryFor request)) =
        (result, machine₁, state) ∧
      SegregatedList.allocate request zero environment (machine, list) =
        (result.map BlockRef.payload, machine₂, list.withCategory (categoryFor request) final) ∧
      final.plain = state.plain := by
  obtain ⟨-, hvalid⟩ := valid_of_payloadSize?_eq_some hsize
  obtain ⟨result, machine₁, state, hrun, hsound, hevolves, hnew, -⟩ :=
    (h.sound (categoryFor request)).allocate fits (hvalid true)
  obtain ⟨hrun', hsound', -⟩ := h.onCategory (categoryFor request) hrun hsound hevolves
  rw [SegregatedList.allocate, hsize, bind_apply_ok _ _ (orFail_some ..)]
  simp only [categoryFor_payloadSize hsize]
  rcases result with (failure | fault) | ref
  · rw [bind_apply_ok _ _ (attempt_failure _ hrun')]
    exact ⟨_, _, _, state, state, hrun, rfl, rfl⟩
  · rw [bind_apply_error _ _ (attempt_fault _ hrun')]
    exact ⟨_, _, _, state, state, hrun, rfl, rfl⟩
  · rw [bind_apply_ok _ _ (attempt_ok _ hrun')]
    simp only
    cases zero with
    | false => exact ⟨_, _, _, state, state, hrun, rfl, rfl⟩
    | true =>
      obtain ⟨-, taken, -, huses, -⟩ := hnew ref rfl
      rw [← category_withCategory_self list (categoryFor request) state] at huses
      obtain ⟨prev, hheader⟩ := hsound'.header huses environment
      obtain ⟨final, hwrite, hplain⟩ :=
        hsound'.writeZeros_within huses (Nat.zero_le taken) environment
      rw [Nat.sub_zero] at hwrite
      rw [category_withCategory_self] at hplain
      rw [if_pos rfl, bind_apply_ok _ _ hheader, bind_apply_ok _ _ hwrite,
        withCategory_withCategory]
      exact ⟨_, _, _, state, final, hrun, rfl, hplain⟩

/-- Allocating changes no category but the one that the size belongs to. -/
theorem allocate_confined (h : Sound machine list) (fits : environment.FitsAddresses)
    (request : Nat) (zero : Bool) :
    Confined {categoryFor request} list
      (SegregatedList.allocate request zero environment (machine, list)).2.2 := by
  cases hsize : Block.payloadSize? request with
  | none =>
    rw [SegregatedList.allocate, hsize]
    exact Confined.refl _ list
  | some size =>
    obtain ⟨_, _, _, _, final, -, hrun, -⟩ := h.allocate_within fits hsize zero
    rw [hrun]
    exact Confined.withCategory (Set.mem_singleton _) list final

/-! ## Freeing -/

/-- Freeing a payload changes no category but its own. -/
theorem free_confined (h : Sound machine list) (huses : (list.category index).Uses ref size)
    (environment : Environment) :
    Confined {index} list (SegregatedList.free ref.payload environment (machine, list)).2.2 := by
  rw [h.free_apply huses, SegregatedList.onCategory, within]
  exact Confined.withCategory (Set.mem_singleton _) list _

/-- Nor does it if an event is noted before and something is answered in the end. -/
theorem note_free_confined {α : Type} (h : Sound machine list)
    (huses : (list.category index).Uses ref size) (event : Event) (answer : α)
    (environment : Environment) :
    Confined {index} list ((do
      note event
      SegregatedList.free ref.payload
      return answer : Procedure (Machine × SegregatedList) α) environment (machine, list)).2.2 := by
  have hnoted := h.of_log (event :: machine.log)
  obtain ⟨machine', after, hfree, -⟩ := hnoted.free huses environment
  have hconfined := hnoted.free_confined huses environment
  rw [hfree] at hconfined
  rw [bind_apply_ok _ _ (note_apply ..), bind_apply_ok _ _ hfree]
  exact hconfined

/-! ## Resizing -/

/-- Resizing a block where it is resizes it in its category. -/
theorem resizeInPlace_within (h : Sound machine list)
    (huses : (list.category index).Uses ref old) (valid : Slot.Valid ⟨size, false⟩) (zero : Bool)
    (environment : Environment) :
    ∃ (done : Bool) (state final : Category),
      Category.resize ref old size environment (machine, list.category index) =
        (.ok done, machine, state) ∧
      SegregatedList.resizeInPlace index ref old size zero environment (machine, list) =
        (.ok done, machine, list.withCategory index final) ∧
      final.plain = state.plain := by
  rw [SegregatedList.resizeInPlace, Category.resize]
  by_cases hle : size ≤ old
  · obtain ⟨state, hrun, -⟩ := (h.sound index).shrink huses hle valid environment
    rw [if_pos hle, if_pos hle, bind_apply_ok _ _ hrun, bind_apply_ok _ _ (onCategory_apply hrun)]
    exact ⟨true, state, state, rfl, rfl, rfl⟩
  rw [if_neg hle, if_neg hle]
  obtain ⟨done, state, hrun, hsound, hevolves, hcases⟩ :=
    (h.sound index).grow huses (Nat.lt_of_not_le hle) valid environment
  obtain ⟨hrun', hsound', -⟩ := h.onCategory index hrun hsound hevolves
  rw [bind_apply_ok _ _ hrun']
  rcases hcases with ⟨rfl, grown, hgrown, huses', -⟩ | ⟨rfl, -⟩
  · rw [if_pos rfl]
    cases zero with
    | false => exact ⟨true, state, state, hrun, rfl, rfl⟩
    | true =>
      rw [← category_withCategory_self list index state] at huses'
      have hmore : old ≤ grown := by omega
      obtain ⟨prev, hheader⟩ := hsound'.header huses' environment
      obtain ⟨final, hwrite, hplain⟩ := hsound'.writeZeros_within huses' hmore environment
      rw [category_withCategory_self] at hplain
      rw [if_pos rfl, bind_apply_ok _ _ hheader, Chunk.sub_eq hmore,
        bind_apply_ok _ _ (checked_ok ..), bind_apply_ok _ _ hwrite, withCategory_withCategory]
      exact ⟨true, state, final, hrun, rfl, hplain⟩
  · rw [if_neg (by simp)]
    exact ⟨false, state, state, hrun, rfl, rfl⟩

/-- Moving a payload changes no category but its own and the one that the new size belongs to. -/
theorem move_confined (h : Sound machine list) (fits : environment.FitsAddresses)
    (huses : (list.category index).Uses ref old) (size : Nat) (zero : Bool) :
    Confined {index, categoryFor size} list
      (SegregatedList.move ref.payload old size zero environment (machine, list)).2.2 := by
  obtain ⟨result, machine₁, list₁, hrun, hsound₁, hevolves₁, -, -, hnew⟩ :=
    h.allocate fits size false
  have hconfined₁ := h.allocate_confined fits size false
  rw [hrun] at hconfined₁
  rw [SegregatedList.move]
  cases result with
  | error reason =>
    rw [bind_apply_error _ _ hrun]
    exact hconfined₁.mono (by simp)
  | ok address =>
    obtain ⟨target, usable, rfl, hobtains⟩ := hnew address rfl
    have htarget := hobtains.uses
    have hold := hevolves₁.stays index ref old huses (by simp)
    have hcount : min old size ≤ usable := (Nat.min_le_right ..).trans hobtains.enough
    obtain ⟨content, hread, hlength, -⟩ := hsound₁.read_eq hold (min old size)
    have hfits : 0 + content.length ≤ usable := by omega
    obtain ⟨list₂, hwrite, hsound₂, -, hinUse₂, -⟩ := hsound₁.write htarget hfits environment
    have hconfined₂ := hsound₁.write_confined htarget hfits environment
    rw [hwrite] at hconfined₂
    have hwritten := (hconfined₁.trans hconfined₂).mono
      (Set.subset_insert index {categoryFor size})
    have htarget₂ := uses_of_inUse_eq hinUse₂ htarget
    have hold₂ := uses_of_inUse_eq hinUse₂ hold
    -- with or without the zeroes, the old block is freed in the end
    have hfreed : ∀ {list₃ : SegregatedList}, Sound machine₁ list₃ →
        (list₃.category index).Uses ref old → Confined {index, categoryFor size} list list₃ →
        Confined {index, categoryFor size} list ((do
          note (.contentsMoved (min old size) ref.payload target.payload)
          SegregatedList.free ref.payload
          return target.payload : Procedure (Machine × SegregatedList) Nat) environment
            (machine₁, list₃)).2.2 := by
      intro list₃ hsound₃ hold₃ hconfined₃
      have hfreed := hsound₃.note_free_confined hold₃
        (.contentsMoved (min old size) ref.payload target.payload) target.payload environment
      exact hconfined₃.trans (hfreed.mono (by simp))
    rw [bind_apply_ok _ _ hrun, bind_apply_ok _ _ (own_apply ..), hsound₁.usableSize_eq htarget,
      bind_apply_ok _ _ (checked_ok ..)]
    simp only
    rw [bind_apply_ok _ _ (own_apply ..), hread, bind_apply_ok _ _ (checked_ok ..),
      bind_apply_ok _ _ hwrite]
    cases zero with
    | false => exact hfreed hsound₂ hold₂ hwritten
    | true =>
      obtain ⟨final, hzero, -⟩ := hsound₂.writeZeros_within htarget₂ hcount environment
      obtain ⟨list₃, hzero', hsound₃, -, hinUse₃, -⟩ :=
        hsound₂.writeZeros htarget₂ hcount environment
      obtain rfl : list₂.withCategory (categoryFor size) final = list₃ :=
        congrArg (fun run => run.2.2) (hzero.symm.trans hzero')
      rw [if_pos rfl, Chunk.sub_eq hcount, bind_apply_ok _ _ (checked_ok ..),
        bind_apply_ok _ _ hzero]
      exact hfreed hsound₃ (uses_of_inUse_eq hinUse₃ hold₂)
        (hwritten.trans (Confined.withCategory (by simp) list₂ final))

/-- A payload that is moved gets another address. -/
theorem move_ne (h : Sound machine list) (fits : environment.FitsAddresses)
    (huses : (list.category index).Uses ref old) {size address : Nat} {zero : Bool}
    (hrun : SegregatedList.move ref.payload old size zero environment (machine, list) =
      (.ok address, machine', after)) : address ≠ ref.payload := by
  obtain ⟨_, _, _, hrun', -, -, -, hok⟩ := h.move fits huses size zero
  cases hrun'.symm.trans hrun
  obtain ⟨-, target, usable, rfl, -, _, _, hallocate, hobtains⟩ := hok _ rfl
  obtain ⟨_, _, _, hallocate', hsound, hevolves, -⟩ := h.allocate fits size false
  cases hallocate'.symm.trans hallocate
  -- with the new block in use, the old one is still there
  have hold := hevolves.stays index ref old huses (by simp)
  intro hsame
  obtain rfl := hsound.eq_of_payload hobtains.uses hold hsame
  exact hobtains.unused index old huses

/-- Resizing a payload resizes its block where it is, or moves it if that is not possible or not where
the new size belongs. -/
theorem reallocate_within (h : Sound machine list) (huses : (list.category index).Uses ref old)
    (hsize : Block.payloadSize? request = some size) (zero : Bool) (environment : Environment) :
    (index = categoryFor size ∧ ∃ state final : Category,
        Category.resize ref old size environment (machine, list.category index) =
          (.ok true, machine, state) ∧
        SegregatedList.reallocate (some ref.payload) request zero environment (machine, list) =
          (.ok ref.payload, machine, list.withCategory index final) ∧
        final.plain = state.plain) ∨
      ((index = categoryFor size → ∃ state : Category,
        Category.resize ref old size environment (machine, list.category index) =
          (.ok false, machine, state)) ∧
        SegregatedList.reallocate (some ref.payload) request zero environment (machine, list) =
          SegregatedList.move ref.payload old size zero environment (machine, list)) := by
  obtain ⟨-, hvalid⟩ := valid_of_payloadSize?_eq_some hsize
  obtain ⟨prev, hblock⟩ := h.blockOf_eq huses
  rw [SegregatedList.reallocate]
  simp only [hsize]
  rw [bind_apply_ok _ _ (orFail_some ..), bind_apply_ok _ _ (own_apply ..), hblock,
    bind_apply_ok _ _ (checked_ok ..)]
  simp only [h.categoryAt_eq huses]
  rw [bind_apply_ok _ _ (checked_ok ..)]
  by_cases hideal : (index : Nat) = categoryFor size
  · -- the category is the right one already, so resizing in place is tried first
    obtain rfl := Fin.ext hideal
    obtain ⟨done, state, final, hresize, hrun, hplain⟩ :=
      h.resizeInPlace_within huses (hvalid false) zero environment
    obtain ⟨done', list', hrun', -, -, hcases⟩ :=
      h.resizeInPlace huses (hvalid false) zero environment
    obtain ⟨rfl, rfl⟩ : done' = done ∧ list' = list.withCategory (categoryFor size) final := by
      simpa using hrun'.symm.trans hrun
    rw [if_pos rfl, bind_apply_ok _ _ hrun]
    rcases hcases with ⟨rfl, -⟩ | ⟨rfl, hsame⟩
    · exact Or.inl ⟨rfl, state, final, hresize, rfl, hplain⟩
    · rw [if_neg (by simp), hsame]
      exact Or.inr ⟨fun _ => ⟨state, hresize⟩, rfl⟩
  · rw [if_neg hideal]
    exact Or.inr ⟨fun heq => absurd (congrArg Fin.val heq) hideal, rfl⟩

/-- Resizing a payload changes no category but its own and the one that the new size belongs to. -/
theorem reallocate_confined (h : Sound machine list) (fits : environment.FitsAddresses)
    (huses : (list.category index).Uses ref old) (request : Nat) (zero : Bool) :
    Confined {index, categoryFor request} list
      (SegregatedList.reallocate (some ref.payload) request zero environment
        (machine, list)).2.2 := by
  cases hsize : Block.payloadSize? request with
  | none =>
    rw [SegregatedList.reallocate, hsize]
    exact Confined.refl _ list
  | some size =>
    rw [← categoryFor_payloadSize hsize]
    rcases h.reallocate_within huses hsize zero environment with
      ⟨-, _, final, -, hrun, -⟩ | ⟨-, hrun⟩
    · rw [hrun]
      exact Confined.withCategory (Set.mem_insert ..) list final
    · rw [hrun]
      exact h.move_confined fits huses size zero

end Sound

end SegregatedList

end PagedAlloc
