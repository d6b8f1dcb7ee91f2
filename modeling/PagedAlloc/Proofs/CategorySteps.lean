import Mathlib.Algebra.Order.BigOperators.Group.List
import Mathlib.Algebra.Order.Group.Nat
import PagedAlloc.Proofs.CategoryState

/-!
# Operations on the blocks of a category

Taking, freeing, shrinking and growing a block change one chunk of a category and the count of its
bytes in use. Each operation is computed step by step on a sound state, and its lemma says that the
state is sound again and that all other used blocks stay as they were (`Sound.take`, `Sound.free`,
`Sound.shrink`, `Sound.grow`).
-/

namespace PagedAlloc.Category

variable {paging : Size.Paging}

open Procedure Layout

variable {environment : Environment} {machine : Machine} {category : Category} {address : Nat}
  {chunk chunk' : Chunk} {ref : BlockRef}

/-! ## Elementary steps -/

section Equations

variable {old : Chunk} {used : Nat}

theorem get?_changed (found : category.chunks.get? address = some old) (chunk : Chunk)
    (used : Nat) : (category.changed address chunk used).chunks.get? address = some chunk :=
  Chain.get?_put_self found chunk

theorem chunkAt_apply (found : category.chunks.get? address = some chunk) :
    chunkAt address environment (machine, category) = (.ok chunk, machine, category) := by
  rw [chunkAt, bind_apply_ok _ _ (own_apply ..)]
  simp only [found]
  rfl

theorem chunkAt_missing (missing : category.chunks.get? address = none) :
    chunkAt address environment (machine, category) =
      (.error (.fault (.missingRecord address)), machine, category) := by
  rw [chunkAt, bind_apply_ok _ _ (own_apply ..)]
  simp only [missing]
  rfl

/-- A chunk that was replaced is found as it is now. -/
theorem chunkAt_changed (found : category.chunks.get? address = some old) :
    chunkAt address environment (machine, category.changed address chunk used) =
      (.ok chunk, machine, category.changed address chunk used) :=
  chunkAt_apply (get?_changed found chunk used)

theorem header_changed (found : category.chunks.get? address = some old) {offset : Nat}
    {header : BlockHeader} (hheader : chunk.header ⟨address, offset⟩ = .ok header) :
    Category.header ⟨address, offset⟩ environment (machine, category.changed address chunk used) =
      (.ok header, machine, category.changed address chunk used) := by
  rw [Category.header, bind_apply_ok _ _ (chunkAt_changed found), hheader]
  rfl

/-- What is done with a chunk that was replaced already replaces it once more. -/
theorem onChunk_changed {α : Type} (found : category.chunks.get? address = some old)
    {step : Chunk → Except Fault (α × Chunk)} {value : α} (hstep : step chunk = .ok (value, chunk')) :
    onChunk address step environment (machine, category.changed address chunk used) =
      (.ok value, machine, category.changed address chunk' used) := by
  rw [onChunk, bind_apply_ok _ _ (chunkAt_changed found), hstep, ← changed_changed category address
    chunk chunk' used used]
  rfl

theorem updateChunk_changed (found : category.chunks.get? address = some old)
    {step : Chunk → Except Fault Chunk} (hstep : step chunk = .ok chunk') :
    updateChunk address step environment (machine, category.changed address chunk used) =
      (.ok (), machine, category.changed address chunk' used) :=
  onChunk_changed found (by simp only [hstep]; rfl)

theorem updateChunk_changed_ok (found : category.chunks.get? address = some old)
    (change : Chunk → Chunk) :
    updateChunk address (fun chunk => .ok (change chunk)) environment
        (machine, category.changed address chunk used) =
      (.ok (), machine, category.changed address (change chunk) used) :=
  updateChunk_changed found rfl

/-- Bytes in use are counted up. -/
theorem addUsed_changed {size : Nat} (small : used + size < Size.limit) :
    addUsed size environment (machine, category.changed address chunk used) =
      (.ok (), machine, category.changed address chunk (used + size)) := by
  rw [addUsed, bind_apply_ok _ _ (own_apply ..)]
  simp only [changed, Chunk.add_eq small]
  rfl

/-- Bytes in use are counted down. -/
theorem subUsed_changed {size : Nat} (fits : size ≤ used) :
    subUsed size environment (machine, category.changed address chunk used) =
      (.ok (), machine, category.changed address chunk (used - size)) := by
  rw [subUsed, bind_apply_ok _ _ (own_apply ..)]
  simp only [changed, Chunk.sub_eq fits]
  rfl

/-- Merging a free block with its neighbours raises the memory of the largest one. -/
theorem coalesceAt_changed (found : category.chunks.get? address = some old) {offset offset' : Nat}
    {header : BlockHeader}
    (hcoalesce : chunk.coalesce ⟨address, offset⟩ = .ok (⟨address, offset'⟩, chunk'))
    (hheader : chunk'.header ⟨address, offset'⟩ = .ok header) :
    coalesceAt ⟨address, offset⟩ environment (machine, category.changed address chunk used) =
      (.ok (), machine, category.changed address (chunk'.raiseLargest header.size) used) := by
  have hraise : (do return chunk'.raiseLargest (← chunk'.header ⟨address, offset'⟩).size) =
      Except.ok (ε := Fault) (chunk'.raiseLargest header.size) := by
    rw [hheader]
    rfl
  rw [coalesceAt, bind_apply_ok _ _ (onChunk_changed found hcoalesce)]
  exact updateChunk_changed found hraise

end Equations

/-! ## Blocks in use -/

/-- A used block splits the layout of its chunk. -/
theorem Uses.split {size : Nat} (h : category.Uses ref size) :
    ∃ address chunk before after, ref = ⟨address, stop Chunk.headerSize before⟩ ∧
      (address, chunk) ∈ category.chunks.toList ∧
      chunk.slots address = before ++ ⟨size, false⟩ :: after := by
  obtain ⟨chunk, hmem, hspot⟩ := h
  obtain ⟨before, after, hslots, hoffset⟩ := mem_spots_iff.1 hspot
  exact ⟨ref.chunk, chunk, before, after, by rw [← hoffset], hmem, hslots⟩

theorem Uses.of_slots {address size : Nat} {chunk : Chunk} {before after : List Slot}
    (hmem : (address, chunk) ∈ category.chunks.toList)
    (hslots : chunk.slots address = before ++ ⟨size, false⟩ :: after) :
    category.Uses ⟨address, stop Chunk.headerSize before⟩ size :=
  ⟨chunk, hmem, hslots ▸ mem_spots_iff.2 ⟨before, after, rfl, rfl⟩⟩

namespace Sound

section Changed

variable {used size offset : Nat} {slots : List Slot}

/-- A block in use of the chunk that was put in is one of the category. -/
theorem uses_changed (h : Sound machine category) (hmem : (address, chunk) ∈ category.chunks.toList)
    (hslots : chunk'.slots address = slots)
    (hspot : (offset, ⟨size, false⟩) ∈ spots Chunk.headerSize slots) :
    (category.changed address chunk' used).Uses ⟨address, offset⟩ size :=
  ⟨chunk', (h.mem_changed_iff hmem).2 (Or.inl rfl), hslots.symm ▸ hspot⟩

/-- A payload whose cells are the same in the new chunk is the same in the category. -/
theorem sameCells_changed (h : Sound machine category)
    (hmem : (address, chunk) ∈ category.chunks.toList)
    (hcells : ∀ x, offset + Block.headerSize ≤ x → x < offset + Block.headerSize + size →
      chunk'.memory.cell x = chunk.memory.cell x) :
    SameCells category (category.changed address chunk' used) ⟨address, offset⟩ size := by
  intro x hle hlt
  have hfound := h.get?_eq hmem
  simp only [cell?, get?_changed hfound, hfound, Option.map_some]
  rw [hcells x hle hlt]

end Changed

/-- Putting back what is there changes nothing. -/
theorem changed_self (h : Sound machine category)
    (hmem : (address, chunk) ∈ category.chunks.toList) :
    category.changed address chunk category.used = category := by
  rw [changed, h.sequence.put_self hmem]

theorem settled_split (h : Sound machine category)
    (hmem : (address, chunk) ∈ category.chunks.toList) {slots : List Slot}
    (hslots : chunk.slots address = slots) :
    chunk.Settled category.chunkSize.isSome address slots :=
  hslots ▸ h.settled hmem

/-- The payloads in use of a chunk fit into it. -/
theorem used_le_size (h : Sound machine category)
    (hmem : (address, chunk) ∈ category.chunks.toList) :
    Layout.used (chunk.slots address) ≤ chunk.size := by
  have hused := used_le Chunk.headerSize (chunk.slots address)
  rw [(h.settled hmem).tiled.ends] at hused
  omega

/-- The bytes in use never come near the bound on sizes, whatever one chunk holds. -/
theorem used_lt (h : Sound machine category) (hmem : (address, chunk) ∈ category.chunks.toList)
    {size : Nat} (fits : size ≤ chunk.size) :
    category.used + size < Size.limit + Layout.used (chunk.slots address) := by
  obtain ⟨before, after, hsplit⟩ := List.append_of_mem hmem
  have hall : ∀ entry ∈ before ++ (address, chunk) :: after,
      Layout.used (entry.2.slots entry.1) ≤ entry.2.size :=
    fun entry hentry => h.used_le_size (hsplit ▸ hentry)
  -- all other chunks use no more than their sizes, which are bounded together
  have hbefore : totalUsed before ≤ totalSize before :=
    List.sum_le_sum fun entry hentry => hall entry (List.mem_append_left _ hentry)
  have hafter : totalUsed after ≤ totalSize after := List.sum_le_sum fun entry hentry =>
    hall entry (List.mem_append_right _ (List.mem_cons_of_mem _ hentry))
  have hbounded := h.bounded
  have hcounted := h.counted
  rw [hsplit] at hbounded hcounted
  simp only [totalSize_append, totalSize_cons, totalUsed_append, totalUsed_cons] at hbounded hcounted
  omega

/-- The payloads in use of one chunk are part of what is counted in all. -/
theorem used_le_used (h : Sound machine category)
    (hmem : (address, chunk) ∈ category.chunks.toList) :
    Layout.used (chunk.slots address) ≤ category.used := by
  obtain ⟨before, after, hsplit⟩ := List.append_of_mem hmem
  have hcounted := h.counted
  rw [hsplit] at hcounted
  simp only [totalUsed_append, totalUsed_cons] at hcounted
  omega

/-- The header of a used block is read where it was written. -/
theorem header (h : Sound machine category) {size : Nat} (huses : category.Uses ref size)
    (environment : Environment) :
    ∃ prev, Category.header ref environment (machine, category) =
      (.ok ⟨ref.chunk, prev, size, false⟩, machine, category) := by
  obtain ⟨address, chunk, before, after, rfl, hmem, hslots⟩ := huses.split
  have hrun : Category.header ⟨address, stop Chunk.headerSize before⟩ environment
      (machine, category.changed address chunk category.used) = _ :=
    header_changed (h.get?_eq hmem) (h.settled_split hmem hslots).tiled.header_eq
  rw [h.changed_self hmem] at hrun
  exact ⟨_, hrun⟩

/-! ## Taking -/

section Take

variable {slot : Slot} {before after : List Slot} {size : Nat}

/-- Marking a free block as used, after it was cut. -/
theorem occupy (h : Sound machine category) (hmem : (address, chunk) ∈ category.chunks.toList)
    (hslots : chunk.slots address = before ++ slot :: after) (free : slot.isFree = true)
    {shared : Bool} (hshared : category.chunkSize.isSome = shared) {memory : Memory BlockHeader}
    (tiled : Chunk.Tiled { chunk with memory := memory } address
      (before ++ (cut shared size slot).1 :: ((cut shared size slot).2 ++ after)))
    (keeps : Chunk.Keeps none chunk { chunk with memory := memory } (before ++ slot :: after)
      (before ++ (cut shared size slot).1 :: ((cut shared size slot).2 ++ after)))
    (environment : Environment) :
    ∃ final : Chunk,
      Category.occupy ⟨address, stop Chunk.headerSize before⟩ slot.size (largest before) environment
          (machine, category.changed address { chunk with memory := memory } category.used) =
        (.ok (), machine,
          category.changed address final (category.used + (cut shared size slot).1.size)) ∧
      final.Settled shared address (before ++ ⟨(cut shared size slot).1.size, false⟩ ::
        ((cut shared size slot).2 ++ after)) ∧
      Chunk.Keeps none chunk final (before ++ slot :: after)
        (before ++ ⟨(cut shared size slot).1.size, false⟩ ::
          ((cut shared size slot).2 ++ after)) := by
  have hsettled := h.settled_split hmem hslots
  have hfound := h.get?_eq hmem
  have hheadFree := (cut_isFree shared size slot).trans free
  have hrest := used_cut_rest shared size slot
  generalize hcut : cut shared size slot = parts at *
  obtain ⟨head, rest⟩ := parts
  simp only at tiled keeps hheadFree hrest ⊢
  have hmarked := tiled.mark false
  have hkeeps := keeps.trans (tiled.mark_keeps false (by simp [hheadFree]))
  have hused := used_le Chunk.headerSize (before ++ ⟨head.size, false⟩ :: (rest ++ after))
  rw [hmarked.ends] at hused
  have hlimit := h.used_lt hmem (show _ ≤ chunk.size from Nat.le_of_add_left_le hused)
  simp only [hslots, used_append, Layout.used, free, hrest, if_true, Bool.false_eq_true, if_false]
    at hused hlimit
  generalize hmarkedChunk : Chunk.setHeader _ _ _ = marked at hmarked hkeeps
  have hsame : marked.largestFree = chunk.largestFree := by rw [← hmarkedChunk]; rfl
  -- the largest free block is looked for only if it was the taken one
  obtain ⟨final, hstep, htiled, hmeasured, hkeeps'⟩ : ∃ final : Chunk,
      (if slot.size = marked.largestFree then
          updateChunk address (·.measureFrom ⟨address, stop Chunk.headerSize before⟩ (largest before))
        else pure ()) environment
          (machine, category.changed address marked (category.used + head.size)) =
        (.ok (), machine, category.changed address final (category.used + head.size)) ∧
      final.Tiled address (before ++ ⟨head.size, false⟩ :: (rest ++ after)) ∧
      final.largestFree = (if slot.size = chunk.largestFree then
          max (largest before) (largest (⟨head.size, false⟩ :: (rest ++ after)))
        else chunk.largestFree) ∧
      Chunk.Keeps none chunk final (before ++ slot :: after)
        (before ++ ⟨head.size, false⟩ :: (rest ++ after)) := by
    rw [hsame]
    split
    · refine ⟨_, ?_, hmarked.withLargest _, rfl, hkeeps.withLargest _⟩
      exact updateChunk_changed hfound (hmarked.measureFrom_eq _)
    · exact ⟨marked, rfl, hmarked, hsame, hkeeps⟩
  refine ⟨final, ?_, ?_, hkeeps'⟩
  · rw [Category.occupy, bind_apply_ok _ _ (header_changed hfound tiled.header_eq),
      bind_apply_ok _ _ (updateChunk_changed_ok hfound _), hmarkedChunk,
      bind_apply_ok _ _ (addUsed_changed (show category.used + head.size < Size.limit by omega)),
      bind_apply_ok _ _ (chunkAt_changed hfound)]
    exact hstep
  · have hback : rest = (cut shared size slot).2 := by rw [hcut]
    rw [hback] at htiled hmeasured ⊢
    exact Chunk.Settled.take (hshared ▸ hsettled) free htiled hmeasured

/-- Taking a large enough free block cuts it and changes no other chunk. -/
theorem take_block (h : Sound machine category) (hmem : (address, chunk) ∈ category.chunks.toList)
    (hslots : chunk.slots address = before ++ slot :: after) (free : slot.isFree = true)
    (fits : size ≤ slot.size) (valid : Slot.Valid ⟨size, true⟩) (environment : Environment) :
    ∃ final : Chunk,
      Category.take ⟨address, stop Chunk.headerSize before⟩ size (largest before) environment
          (machine, category) =
        (.ok (), machine, category.changed address final
          (category.used + (cut category.chunkSize.isSome size slot).1.size)) ∧
      final.Settled category.chunkSize.isSome address
        (before ++ ⟨(cut category.chunkSize.isSome size slot).1.size, false⟩ ::
          ((cut category.chunkSize.isSome size slot).2 ++ after)) ∧
      Chunk.Keeps none chunk final (before ++ slot :: after)
        (before ++ ⟨(cut category.chunkSize.isSome size slot).1.size, false⟩ ::
          ((cut category.chunkSize.isSome size slot).2 ++ after)) := by
  have hsettled := h.settled_split hmem hslots
  have hfound := h.get?_eq hmem
  -- with or without a cut, the block is marked in a tiled chunk
  obtain ⟨memory, hcut, htiled, hkeeps⟩ : ∃ memory : Memory BlockHeader,
      (if category.chunkSize.isSome = true then
          discard (onChunk address
            (·.split ⟨address, stop Chunk.headerSize before⟩ size)) >>= fun _ =>
              Category.occupy ⟨address, stop Chunk.headerSize before⟩ slot.size (largest before)
        else Category.occupy ⟨address, stop Chunk.headerSize before⟩ slot.size (largest before))
          environment (machine, category.changed address chunk category.used) =
        Category.occupy ⟨address, stop Chunk.headerSize before⟩ slot.size (largest before)
          environment
          (machine, category.changed address { chunk with memory := memory } category.used) ∧
      Chunk.Tiled { chunk with memory := memory } address
        (before ++ (cut category.chunkSize.isSome size slot).1 ::
          ((cut category.chunkSize.isSome size slot).2 ++ after)) ∧
      Chunk.Keeps none chunk { chunk with memory := memory } (before ++ slot :: after)
        (before ++ (cut category.chunkSize.isSome size slot).1 ::
          ((cut category.chunkSize.isSome size slot).2 ++ after)) := by
    cases category.chunkSize.isSome with
    | true =>
      obtain ⟨memory, hsplit, htiled, hkeeps, -⟩ := hsettled.tiled.cut_eq fits (by rwa [free])
        (show slot.isFree = false → none = some _ by simp [free])
      refine ⟨memory, ?_, htiled, hkeeps⟩
      rw [if_pos rfl, bind_apply_ok _ _ (discard_apply_ok _ (onChunk_changed hfound hsplit))]
    | false => exact ⟨chunk.memory, rfl, hsettled.tiled, Chunk.Keeps.refl ..⟩
  obtain ⟨final, hoccupy, hsettled', hkeeps'⟩ :=
    h.occupy hmem hslots free rfl htiled hkeeps environment
  refine ⟨final, ?_, hsettled', hkeeps'⟩
  have hrun : Category.take ⟨address, stop Chunk.headerSize before⟩ size (largest before) environment
      (machine, category.changed address chunk category.used) =
        (.ok (), machine, category.changed address final
          (category.used + (cut category.chunkSize.isSome size slot).1.size)) := by
    rw [Category.take, bind_apply_ok _ _ (header_changed hfound hsettled.tiled.header_eq),
      bind_apply_ok _ _ (own_apply ..)]
    exact hcut.trans hoccupy
  rwa [h.changed_self hmem] at hrun

/-- Taking a large enough free block succeeds and touches no used one. -/
theorem take (h : Sound machine category) (hmem : (address, chunk) ∈ category.chunks.toList)
    (hslots : chunk.slots address = before ++ slot :: after) (free : slot.isFree = true)
    (fits : size ≤ slot.size) (valid : Slot.Valid ⟨size, true⟩) (environment : Environment) :
    ∃ state, Category.take ⟨address, stop Chunk.headerSize before⟩ size (largest before) environment
        (machine, category) = (.ok (), machine, state) ∧
      Sound machine state ∧ Evolves ∅ (machine, category) (machine, state) ∧
      ∃ taken, size ≤ taken ∧ state.Uses ⟨address, stop Chunk.headerSize before⟩ taken ∧
        Balances 0 taken category state := by
  obtain ⟨final, hrun, hsettled, hkeeps⟩ := h.take_block hmem hslots free fits valid environment
  refine ⟨_, hrun, h.change hmem hsettled hkeeps.size hkeeps.category ?_,
    h.evolves_none hmem hsettled (hslots ▸ hkeeps), _, le_size_cut _ fits,
    h.uses_changed hmem hsettled.slots_eq (mem_spots_iff.2 ⟨before, _, rfl, rfl⟩),
    h.balances_change hmem hkeeps.size rfl⟩
  simp only [hslots, used_append, Layout.used, free, used_cut_rest, if_true, Bool.false_eq_true,
    if_false]
  omega

end Take

/-! ## Freeing -/

/-- Freeing a used block merges it with its neighbours, and changes no other chunk. Its header and
those of the blocks that were freed before still tell so. -/
theorem free_block (h : Sound machine category)
    (hmem : (address, chunk) ∈ category.chunks.toList) {before after : List Slot} {size : Nat}
    (hslots : chunk.slots address = before ++ ⟨size, false⟩ :: after) (environment : Environment) :
    ∃ final : Chunk,
      Category.free ⟨address, stop Chunk.headerSize before⟩ environment (machine, category) =
          (.ok (), machine, category.changed address final (category.used - size)) ∧
        final.Settled category.chunkSize.isSome address (coalesced before ⟨size, true⟩ after) ∧
        Chunk.Keeps (some (stop Chunk.headerSize before)) chunk final
          (before ++ ⟨size, false⟩ :: after) (coalesced before ⟨size, true⟩ after) ∧
        size ≤ category.used ∧
        ∀ offset, offset = stop Chunk.headerSize before ∨
            chunk.Freed address (before ++ ⟨size, false⟩ :: after) offset →
          final.Freed address (coalesced before ⟨size, true⟩ after) offset := by
  have hsettled := h.settled_split hmem hslots
  have hfound := h.get?_eq hmem
  have hused := h.used_le_used hmem
  simp only [hslots, used_append, Layout.used, Bool.false_eq_true, if_false] at hused
  obtain ⟨hbefore, -, hafter⟩ := hsettled.apart_parts
  have hmeasured := hsettled.measured
  -- the freed block is a new free one between its neighbours
  have hmarked := hsettled.tiled.mark true
  obtain ⟨merged, header, hcoalesce, hheader, hsettled', hkeeps, hfreed⟩ :=
    hmarked.settle category.chunkSize.isSome rfl hbefore hafter
      hsettled.alone (by
        rw [Chunk.setHeader, hmeasured]
        simp [largest_append, largest])
  have hrun : Category.free ⟨address, stop Chunk.headerSize before⟩ environment
      (machine, category.changed address chunk category.used) =
        (.ok (), machine,
          category.changed address (merged.raiseLargest header.size) (category.used - size)) := by
    rw [Category.free, bind_apply_ok _ _ (header_changed hfound hsettled.tiled.header_eq),
      bind_apply_ok _ _ (ensure_apply _ rfl _ _),
      bind_apply_ok _ _ (subUsed_changed (show size ≤ category.used by omega)),
      bind_apply_ok _ _ (updateChunk_changed_ok hfound _)]
    exact coalesceAt_changed hfound hcoalesce hheader
  rw [h.changed_self hmem] at hrun
  refine ⟨_, hrun, hsettled',
    (hsettled.tiled.mark_keeps true fun _ => rfl).trans (hkeeps.weaken _), by omega, ?_⟩
  rintro offset (rfl | hgone)
  · exact hfreed _ (hmarked.freed rfl)
  · exact hfreed _ (hgone.mark rfl hsettled.tiled hmarked)

/-- Freeing a used block succeeds and touches no other one. -/
theorem free (h : Sound machine category) {size : Nat} (huses : category.Uses ref size)
    (environment : Environment) :
    ∃ after, Category.free ref environment (machine, category) = (.ok (), machine, after) ∧
      Sound machine after ∧ Evolves {ref} (machine, category) (machine, after) ∧
      Balances size 0 category after := by
  obtain ⟨address, chunk, before, after, rfl, hmem, hslots⟩ := huses.split
  obtain ⟨final, hrun, hsettled, hkeeps, hused, -⟩ := h.free_block hmem hslots environment
  refine ⟨_, hrun, h.change hmem hsettled hkeeps.size hkeeps.category ?_, ?_,
    h.balances_change hmem hkeeps.size (by omega)⟩
  · have hmerged := used_coalesced (show (⟨size, true⟩ : Slot).isFree = true from rfl) before after
    simp only [hslots, used_append, Layout.used, Bool.false_eq_true, if_false] at hmerged ⊢
    omega
  · rw [← hslots] at hkeeps
    exact h.evolves_at hmem hsettled hkeeps

/-! ## Shrinking -/

section Shrink

variable {before after : List Slot} {old size : Nat}

/-- A used block with room for another one is cut, and its remainder is merged with what is behind
it. -/
theorem shrink_cut (h : Sound machine category) (hmem : (address, chunk) ∈ category.chunks.toList)
    (hslots : chunk.slots address = before ++ ⟨old, false⟩ :: after)
    (hshared : category.chunkSize.isSome = true)
    (room : size + Block.headerSize + Block.minPayload ≤ old) (valid : Slot.Valid ⟨size, false⟩)
    (environment : Environment) :
    ∃ final : Chunk,
      Category.shrink ⟨address, stop Chunk.headerSize before⟩ size environment (machine, category) =
        (.ok (), machine, category.changed address final (category.used - (old - size))) ∧
      final.Settled category.chunkSize.isSome address (coalesced (before ++ [⟨size, false⟩])
        ⟨old - size - Block.headerSize, true⟩ after) ∧
      Chunk.Keeps (some (stop Chunk.headerSize before)) chunk final
        (before ++ ⟨old, false⟩ :: after)
        (coalesced (before ++ [⟨size, false⟩]) ⟨old - size - Block.headerSize, true⟩ after) ∧
      Layout.used (coalesced (before ++ [⟨size, false⟩])
          ⟨old - size - Block.headerSize, true⟩ after) + (old - size) =
        Layout.used (before ++ ⟨old, false⟩ :: after) ∧
      (stop Chunk.headerSize before, ⟨size, false⟩) ∈ spots Chunk.headerSize
        (coalesced (before ++ [⟨size, false⟩]) ⟨old - size - Block.headerSize, true⟩ after) ∧
      ∀ x, stop Chunk.headerSize before + Block.headerSize ≤ x →
        x < stop Chunk.headerSize before + Block.headerSize + size →
          final.memory.cell x = chunk.memory.cell x := by
  have hsettled := h.settled_split hmem hslots
  have hfound := h.get?_eq hmem
  obtain ⟨cutChunk, merged, final, cutHeader, header, remainder, offset, hsplit, hcutHeader,
    hcutSize, hcoalesce, hheader, hfinal, hsettled', hkeeps, hless, hspot, hcells⟩ :=
    Chunk.Settled.shrink (hshared ▸ hsettled) room valid
  have hused := h.used_le_used hmem
  rw [hslots] at hused
  -- step by step on the chunk as a change of itself, so that every later step is a change too
  have hrun : Category.shrink ⟨address, stop Chunk.headerSize before⟩ size environment
      (machine, category.changed address chunk category.used) =
        (.ok (), machine, category.changed address final (category.used - (old - size))) := by
    rw [Category.shrink, bind_apply_ok _ _ (header_changed hfound hsettled.tiled.header_eq),
      bind_apply_ok _ _ (ensure_apply _ (show size ≤ old by omega) _ _),
      bind_apply_ok _ _ (own_apply ..),
      if_pos (show (category.changed address chunk category.used).chunkSize.isSome = true from
        hshared), bind_apply_ok _ _ (onChunk_changed hfound hsplit)]
    simp only
    rw [bind_apply_ok _ _ (header_changed hfound hcutHeader), hcutSize,
      Chunk.sub_eq (show size ≤ old by omega), bind_apply_ok _ _ (checked_ok ..),
      bind_apply_ok _ _ (subUsed_changed (show old - size ≤ category.used by omega)), ← hfinal]
    exact coalesceAt_changed hfound hcoalesce hheader
  rw [h.changed_self hmem] at hrun
  exact ⟨final, hrun, hshared.symm ▸ hsettled', hkeeps, hless, hspot, hcells⟩

/-- A block that is not cut, or has no room for another one, does not shrink. -/
theorem shrink_refused (h : Sound machine category)
    (hmem : (address, chunk) ∈ category.chunks.toList)
    (hslots : chunk.slots address = before ++ ⟨old, false⟩ :: after) (fits : size ≤ old)
    (refused : category.chunkSize.isSome = true →
      old < size + Block.headerSize + Block.minPayload) (environment : Environment) :
    Category.shrink ⟨address, stop Chunk.headerSize before⟩ size environment (machine, category) =
      (.ok (), machine, category) := by
  have hsettled := h.settled_split hmem hslots
  have hfound := h.get?_eq hmem
  have hrun : Category.shrink ⟨address, stop Chunk.headerSize before⟩ size environment
      (machine, category.changed address chunk category.used) =
        (.ok (), machine, category.changed address chunk category.used) := by
    rw [Category.shrink, bind_apply_ok _ _ (header_changed hfound hsettled.tiled.header_eq),
      bind_apply_ok _ _ (ensure_apply _ fits _ _), bind_apply_ok _ _ (own_apply ..)]
    split
    · rename_i hshared
      have hnarrow := hsettled.tiled.split_eq_none fits (refused hshared)
      rw [bind_apply_ok _ _ (onChunk_changed hfound hnarrow)]
      rfl
    · rfl
  rwa [h.changed_self hmem] at hrun

end Shrink

/-- Shrinking a used block succeeds and keeps what is left of its payload. -/
theorem shrink (h : Sound machine category) {old size : Nat} (huses : category.Uses ref old)
    (fits : size ≤ old) (valid : Slot.Valid ⟨size, false⟩) (environment : Environment) :
    ∃ state, Category.shrink ref size environment (machine, category) = (.ok (), machine, state) ∧
      Sound machine state ∧ Evolves {ref} (machine, category) (machine, state) ∧
      ∃ left, size ≤ left ∧ left ≤ old ∧ state.Uses ref left ∧
        SameCells category state ref left ∧ Balances old left category state := by
  obtain ⟨address, chunk, before, after, rfl, hmem, hslots⟩ := huses.split
  by_cases hroom : category.chunkSize.isSome = true ∧
    size + Block.headerSize + Block.minPayload ≤ old
  · obtain ⟨final, hrun, hsettled, hkeeps, hless, hspot, hcells⟩ :=
      h.shrink_cut hmem hslots hroom.1 hroom.2 valid environment
    have hused := h.used_le_used hmem
    rw [← hslots] at hkeeps hless
    exact ⟨_, hrun, h.change hmem hsettled hkeeps.size hkeeps.category (by omega),
      h.evolves_at hmem hsettled hkeeps, size, Nat.le_refl _, fits,
      h.uses_changed hmem hsettled.slots_eq hspot, h.sameCells_changed hmem hcells,
      h.balances_change hmem hkeeps.size (by omega)⟩
  · exact ⟨category, h.shrink_refused hmem hslots fits
      (fun hshared => Nat.lt_of_not_le fun hle => hroom ⟨hshared, hle⟩) environment, h,
      Evolves.refl .., old, fits, Nat.le_refl _, huses, fun _ _ _ => rfl, rfl, rfl, rfl⟩

/-! ## Growing -/

section Grow

variable {before after : List Slot} {old size : Nat}

/-- Growing a block over the free one behind it, which is large enough. -/
theorem grow_over (h : Sound machine category) (hmem : (address, chunk) ∈ category.chunks.toList)
    {next : Slot} (hslots : chunk.slots address = before ++ ⟨old, false⟩ :: next :: after)
    (hshared : category.chunkSize.isSome = true) (free : next.isFree = true) (more : old < size)
    (fits : size ≤ old + next.total) (valid : Slot.Valid ⟨size, false⟩) (environment : Environment) :
    ∃ (final : Chunk) (taken : Nat) (rest : List Slot),
      cut true size ⟨old + next.total, false⟩ = (⟨taken, false⟩, rest) ∧ size ≤ taken ∧
      Category.grow ⟨address, stop Chunk.headerSize before⟩ size environment (machine, category) =
        (.ok true, machine, category.changed address final (category.used + (taken - old))) ∧
      final.Settled category.chunkSize.isSome address
        (before ++ ⟨taken, false⟩ :: (rest ++ after)) ∧
      Chunk.Keeps (some (stop Chunk.headerSize before)) chunk final
        (before ++ ⟨old, false⟩ :: next :: after) (before ++ ⟨taken, false⟩ :: (rest ++ after)) ∧
      Layout.used (before ++ ⟨taken, false⟩ :: (rest ++ after)) + old =
        Layout.used (before ++ ⟨old, false⟩ :: next :: after) + taken ∧
      ∀ x, stop Chunk.headerSize before + Block.headerSize ≤ x →
        x < stop Chunk.headerSize before + Block.headerSize + taken →
          final.memory.cell x = chunk.memory.cell x := by
  have hsettled := h.settled_split hmem hslots
  have hfound := h.get?_eq hmem
  obtain ⟨taken, rest, absorbed, grown, final, header, remainder, hcut, habsorb, hsplit, hheader,
    htaken, hle, hlargest, hfinal, hsettled', hkeeps, hmore, hcells⟩ :=
    Chunk.Settled.extend (hshared ▸ hsettled) free more.le fits valid
  have hused := used_le Chunk.headerSize (before ++ ⟨taken, false⟩ :: (rest ++ after))
  rw [hsettled'.tiled.ends, hkeeps.size] at hused
  -- the counter goes up by the bytes that the block gains, and there is room for them in the chunk
  have hlimit := h.used_lt hmem (show _ ≤ chunk.size from Nat.le_of_add_left_le hused)
  rw [hslots] at hlimit
  have hcuts : ¬ (category.changed address chunk category.used).chunkSize.isNone = true := by
    simpa [changed, Option.isSome_iff_ne_none] using hshared
  have hrun : Category.grow ⟨address, stop Chunk.headerSize before⟩ size environment
      (machine, category.changed address chunk category.used) =
        (.ok true, machine, category.changed address final (category.used + (taken - old))) := by
    rw [Category.grow, bind_apply_ok _ _ (own_apply ..), if_neg hcuts,
      bind_apply_ok _ _ (chunkAt_changed hfound), hsettled.tiled.next_eq,
      bind_apply_ok _ _ (checked_ok ..)]
    simp only [Chunk.firstOf]
    rw [bind_apply_ok _ _ (header_changed hfound hsettled.tiled.header_next),
      bind_apply_ok _ _ (header_changed hfound hsettled.tiled.header_eq), if_neg (by simp [free]),
      hsettled.tiled.joined_eq _ rfl, bind_apply_ok _ _ (checked_ok ..), if_neg (by simp only; omega),
      bind_apply_ok _ _ (updateChunk_changed hfound habsorb),
      bind_apply_ok _ _ (discard_apply_ok _ (onChunk_changed hfound hsplit)),
      bind_apply_ok _ _ (header_changed hfound hheader), htaken,
      Chunk.sub_eq (show old ≤ taken by omega), bind_apply_ok _ _ (checked_ok ..),
      bind_apply_ok _ _ (addUsed_changed
        (show category.used + (taken - old) < Size.limit by omega)),
      bind_apply_ok _ _ (chunkAt_changed hfound), hlargest]
    split at hfinal
    · rename_i hsame
      rw [if_pos hsame, bind_apply_ok _ _ (updateChunk_changed hfound hfinal)]
      rfl
    · rename_i hother
      rw [if_neg hother, Except.ok.inj hfinal]
      rfl
  -- the steps are stated for the category with the chunk put back, which is the category itself
  rw [h.changed_self hmem] at hrun
  exact ⟨final, taken, rest, hcut, hle, hrun, hshared.symm ▸ hsettled', hkeeps, hmore, hcells⟩

/-- A block does not grow if it is not cut, is the last one, or has a used or a small one behind
it. -/
theorem grow_refused (h : Sound machine category)
    (hmem : (address, chunk) ∈ category.chunks.toList)
    (hslots : chunk.slots address = before ++ ⟨old, false⟩ :: after)
    (refused : category.chunkSize.isSome = true →
      ∀ next rest, after = next :: rest → next.isFree = true → old + next.total < size)
    (environment : Environment) :
    Category.grow ⟨address, stop Chunk.headerSize before⟩ size environment (machine, category) =
      (.ok false, machine, category) := by
  have hsettled := h.settled_split hmem hslots
  have hfound := h.get?_eq hmem
  have hrun : Category.grow ⟨address, stop Chunk.headerSize before⟩ size environment
      (machine, category.changed address chunk category.used) =
        (.ok false, machine, category.changed address chunk category.used) := by
    rw [Category.grow, bind_apply_ok _ _ (own_apply ..)]
    split
    · rfl
    -- past the first test the blocks of the category are cut
    rename_i hcuts
    have hshared : category.chunkSize.isSome = true := by
      simpa [changed, Option.isSome_iff_ne_none] using hcuts
    rw [bind_apply_ok _ _ (chunkAt_changed hfound), hsettled.tiled.next_eq,
      bind_apply_ok _ _ (checked_ok ..)]
    cases after with
    | nil => rfl
    | cons next rest =>
      simp only [Chunk.firstOf]
      rw [bind_apply_ok _ _ (header_changed hfound hsettled.tiled.header_next),
        bind_apply_ok _ _ (header_changed hfound hsettled.tiled.header_eq)]
      simp only
      split
      · rfl
      · rename_i hfree
        have hsmall := refused hshared next rest rfl (by simpa using hfree)
        rw [hsettled.tiled.joined_eq _ rfl, bind_apply_ok _ _ (checked_ok ..), if_pos hsmall]
        rfl
  rwa [h.changed_self hmem] at hrun

end Grow

/-- Growing a used block succeeds. Where it was possible the block is large enough and keeps its
payload, and elsewhere nothing changes. -/
theorem grow (h : Sound machine category) {old size : Nat} (huses : category.Uses ref old)
    (more : old < size) (valid : Slot.Valid ⟨size, false⟩) (environment : Environment) :
    ∃ done state, Category.grow ref size environment (machine, category) =
        (.ok done, machine, state) ∧
      Sound machine state ∧ Evolves {ref} (machine, category) (machine, state) ∧
      (done = true ∧ (∃ grown, size ≤ grown ∧ state.Uses ref grown ∧
          SameCells category state ref grown ∧ Balances old grown category state) ∨
        done = false ∧ state = category) := by
  obtain ⟨address, chunk, before, after, rfl, hmem, hslots⟩ := huses.split
  by_cases hroom : category.chunkSize.isSome = true ∧
    ∃ next rest, after = next :: rest ∧ next.isFree = true ∧ size ≤ old + next.total
  · obtain ⟨hshared, next, rest, rfl, hfree, hfits⟩ := hroom
    obtain ⟨final, taken, _, -, hle, hrun, hsettled, hkeeps, hused, hcells⟩ :=
      h.grow_over hmem hslots hshared hfree more hfits valid environment
    rw [← hslots] at hkeeps hused
    exact ⟨true, _, hrun, h.change hmem hsettled hkeeps.size hkeeps.category (by omega),
      h.evolves_at hmem hsettled hkeeps, Or.inl ⟨rfl, taken, hle,
        h.uses_changed hmem hsettled.slots_eq (mem_spots_iff.2 ⟨before, _, rfl, rfl⟩),
        h.sameCells_changed hmem hcells, h.balances_change hmem hkeeps.size (by omega)⟩⟩
  · refine ⟨false, category, h.grow_refused hmem hslots ?_ environment, h, Evolves.refl ..,
      Or.inr ⟨rfl, rfl⟩⟩
    intro hshared next rest hafter hfree
    exact Nat.lt_of_not_le fun hle => hroom ⟨hshared, next, rest, hafter, hfree, hle⟩

/-! ## Writing -/

/-- A chunk with the same walk and the same hint does not change the layout. -/
theorem layoutOf_replace {before after : List (Nat × Chunk)} (hsize : chunk'.size = chunk.size)
    (hcategory : chunk'.category = chunk.category) (hlargest : chunk'.largestFree = chunk.largestFree)
    (hblocks : chunk'.blocks address = chunk.blocks address) :
    layoutOf (before ++ (address, chunk') :: after) =
      layoutOf (before ++ (address, chunk) :: after) := by
  induction before with
  | nil => simp only [List.nil_append, layoutOf, hsize, hcategory, hlargest, hblocks]
  | cons entry rest ih => simp only [List.cons_append, layoutOf, ih]

/-- Writing into the payload of a used block changes the memory of its chunk, and no block. -/
theorem write_block (h : Sound machine category)
    (hmem : (address, chunk) ∈ category.chunks.toList) {before after : List Slot} {size offset : Nat}
    (hslots : chunk.slots address = before ++ ⟨size, false⟩ :: after)
    {content : Stretch BlockHeader} (fits : offset + content.length ≤ size)
    (environment : Environment) :
    let final : Chunk := { chunk with
      memory := chunk.memory.write
        (stop Chunk.headerSize before + Block.headerSize + offset) content }
    updateChunk address (fun chunk => .ok { chunk with
        memory := chunk.memory.write
          (stop Chunk.headerSize before + Block.headerSize + offset) content }) environment
        (machine, category) =
      (.ok (), machine, category.changed address final category.used) ∧
    final.Settled category.chunkSize.isSome address (before ++ ⟨size, false⟩ :: after) ∧
    Chunk.Keeps (some (stop Chunk.headerSize before)) chunk final
      (before ++ ⟨size, false⟩ :: after) (before ++ ⟨size, false⟩ :: after) := by
  intro final
  have hsettled := h.settled_split hmem hslots
  have hbehind : stop Chunk.headerSize before + Block.headerSize ≤
      stop Chunk.headerSize before + Block.headerSize + offset := Nat.le_add_right ..
  have hend : stop Chunk.headerSize before + Block.headerSize + offset + content.length ≤
      stop Chunk.headerSize before + Slot.total ⟨size, false⟩ := by
    simp only [Slot.total]
    omega
  have hrun : updateChunk address (fun chunk => .ok { chunk with
        memory := chunk.memory.write
          (stop Chunk.headerSize before + Block.headerSize + offset) content }) environment
      (machine, category.changed address chunk category.used) =
        (.ok (), machine, category.changed address final category.used) :=
    updateChunk_changed_ok (h.get?_eq hmem) _
  rw [h.changed_self hmem] at hrun
  exact ⟨hrun, hsettled.write hbehind hend, hsettled.tiled.write_keeps hbehind hend⟩

/-- Writing into the payload of a used block touches no other one, and no block, hint or counter. The
block holds the cells that were written and else those that it held before. -/
theorem write (h : Sound machine category) {size offset : Nat} (huses : category.Uses ref size)
    {content : Stretch BlockHeader} (fits : offset + content.length ≤ size)
    (environment : Environment) :
    ∃ state, updateChunk ref.chunk (fun chunk => .ok
          { chunk with memory := chunk.memory.write (ref.payloadOffset + offset) content })
        environment (machine, category) = (.ok (), machine, state) ∧
      Sound machine state ∧ Evolves {ref} (machine, category) (machine, state) ∧
      state.Uses ref size ∧ state.layout = category.layout ∧ state.usage = category.usage ∧
      Balances 0 0 category state ∧
      ∀ x < size, state.cell? ref.chunk (ref.payloadOffset + x) =
        if offset ≤ x ∧ x < offset + content.length then content.cells[x - offset]?
        else category.cell? ref.chunk (ref.payloadOffset + x) := by
  obtain ⟨address, chunk, before, after, rfl, hmem, hslots⟩ := huses.split
  have hsettled := h.settled_split hmem hslots
  have hfound := h.get?_eq hmem
  obtain ⟨hrun, hwritten, hkeeps⟩ := h.write_block hmem hslots fits environment
  -- the chunk after the write is named, since it stands in every goal
  generalize hchunk : { chunk with memory := chunk.memory.write _ content } = written
    at hrun hwritten hkeeps
  refine ⟨_, hrun, h.change hmem hwritten hkeeps.size hkeeps.category (by rw [hslots]),
    h.evolves_at hmem hwritten (hslots ▸ hkeeps), ?_, ?_, rfl,
    h.balances_change hmem hkeeps.size rfl, ?_⟩
  · exact h.uses_changed hmem hwritten.slots_eq (mem_spots_iff.2 ⟨before, after, rfl, rfl⟩)
  · obtain ⟨front, back, hold, hnew⟩ := h.toList_changed hmem written category.used
    rw [layout, layout, hold, hnew]
    exact layoutOf_replace hkeeps.size hkeeps.category (by rw [← hchunk])
      (hwritten.blocks_eq.trans hsettled.blocks_eq.symm)
  · intro x hx
    have hinside : stop Chunk.headerSize before + Block.headerSize + x < chunk.memory.length := by
      have hslot := hsettled.tiled.stop_slot_le
      rw [hsettled.tiled.length]
      simp only [Slot.total] at hslot
      omega
    have hcell := Memory.some_cell_write chunk.memory
      (stop Chunk.headerSize before + Block.headerSize + offset) content hinside
    rw [show chunk.memory.write _ content = written.memory by rw [← hchunk]] at hcell
    simp only [cell?, BlockRef.payloadOffset, get?_changed hfound, hfound, Option.map_some]
    rw [hcell]
    congr 1
    · simp only [eq_iff_iff]
      omega
    · congr 1
      omega

end Sound

end PagedAlloc.Category
