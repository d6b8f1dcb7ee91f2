import PagedAlloc.Proofs.CategoryRelease

/-!
# The remembered largest free block

A search passes over a chunk by what the chunk remembers, and every operation keeps that memory up
to date in its own way without looking at the whole chunk. Here a category is taken through any
operations in any order, with any answers of the kernel, and what a chunk remembers is always the
largest free block that a walk over it finds (`Category.Reachable.largestFree_exact`).
-/

namespace PagedAlloc.Category

variable {paging : Size.Paging}

open Procedure Layout

/-- A walk over the chunks finds this block in use, with a payload of this size. -/
def InUse (category : Category) (ref : BlockRef) (size : Nat) : Prop :=
  ∃ chunk blocks header, category.chunks.get? ref.chunk = some chunk ∧
    chunk.blocks ref.chunk = .ok blocks ∧ (ref, header) ∈ blocks ∧ header.isFree = false ∧
      header.size = size

instance (category : Category) (ref : BlockRef) (size : Nat) : Decidable (category.InUse ref size) :=
  match hfound : category.chunks.get? ref.chunk with
  | none => isFalse fun ⟨_, _, _, hsome, _⟩ => by
      rw [hfound] at hsome
      cases hsome
  | some chunk =>
    match hblocks : chunk.blocks ref.chunk with
    | .error _ => isFalse fun ⟨_, _, _, hsome, hok, _⟩ => by
        obtain rfl := Option.some.inj (hfound.symm.trans hsome)
        rw [hblocks] at hok
        cases hok
    | .ok blocks =>
      decidable_of_iff
        (∃ block ∈ blocks, block.1 = ref ∧ block.2.isFree = false ∧ block.2.size = size) <| by
        constructor
        · rintro ⟨⟨_, header⟩, hmem, rfl, hused⟩
          exact ⟨chunk, blocks, header, hfound, hblocks, hmem, hused⟩
        · rintro ⟨_, _, header, hsome, hok, hmem, hused⟩
          obtain rfl := Option.some.inj (hfound.symm.trans hsome)
          obtain rfl := Except.ok.inj (hblocks.symm.trans hok)
          exact ⟨(ref, header), hmem, rfl, hused⟩

/-- The operations of a category, and writes into its payloads. -/
inductive Action where
  | allocate (size : Nat)
  | free (ref : BlockRef)
  | shrink (ref : BlockRef) (size : Nat)
  | grow (ref : BlockRef) (size : Nat)
  | clear
  | trim
  | write (ref : BlockRef) (offset : Nat) (content : Stretch BlockHeader)

namespace Action

/-- What a caller of an operation promises: sizes are valid payload sizes, blocks are in use, and a
block shrinks to a size that is not above its own and grows to one that is. -/
def Allowed (category : Category) : Action → Prop
  | allocate size => Slot.Valid ⟨size, true⟩
  | free ref => ∃ size, category.InUse ref size
  | shrink ref size => Slot.Valid ⟨size, false⟩ ∧ ∃ old, category.InUse ref old ∧ size ≤ old
  | grow ref size => Slot.Valid ⟨size, false⟩ ∧ ∃ old, category.InUse ref old ∧ old < size
  | clear => True
  | trim => True
  | write ref offset content => ∃ size, category.InUse ref size ∧ offset + content.length ≤ size

/-- What an operation does. -/
def run [Size.Paging] : Action → Procedure (Machine × Category) Unit
  | allocate size => discard (Category.allocate size)
  | free ref => Category.free ref
  | shrink ref size => Category.shrink ref size
  | grow ref size => discard (Category.grow ref size)
  | clear => Category.clear
  | trim => discard Category.trim
  | write ref offset content => updateChunk ref.chunk fun chunk =>
    .ok { chunk with memory := chunk.memory.write (ref.payloadOffset + offset) content }

end Action

/-- The states of a category that began without a chunk. Operations may succeed, fail or be stopped
by a fault, and between them others may use the machine, as long as they leave the chunks alone. -/
inductive Reachable [Size.Paging] (index : Nat)
    (chunkSize : Option Nat) : Machine × Category → Prop where
  | start (machine : Machine) : Reachable index chunkSize (machine, Category.empty index chunkSize)
  | step {state : Machine × Category} (before : Reachable index chunkSize state)
      (environment : Environment) (fits : environment.FitsAddresses) (action : Action)
      (allowed : action.Allowed state.2) :
      Reachable index chunkSize (action.run environment state).2
  | others {machine machine' : Machine} {category : Category}
      (before : Reachable index chunkSize (machine, category))
      (held : category.StaysMapped machine machine') :
      Reachable index chunkSize (machine', category)

variable {machine : Machine} {category : Category} {ref : BlockRef} {size : Nat}

/-- A block that a caller holds is in use. -/
theorem Sound.uses (h : Sound machine category) (hinUse : category.InUse ref size) :
    category.Uses ref size := by
  obtain ⟨chunk, blocks, header, hfound, hblocks, hblock, hused, rfl⟩ := hinUse
  have hmem := h.sequence.get?_eq_some_iff.1 hfound
  rw [(h.settled hmem).blocks_eq] at hblocks
  obtain rfl := Except.ok.inj hblocks
  have hspot := (spot_of_mem_visited hblock).2.2
  rw [hused] at hspot
  exact ⟨chunk, hmem, hspot⟩

/-- Every operation of a category leaves it sound, whatever comes of it. -/
theorem Sound.run {environment : Environment} (h : Sound machine category)
    (fits : environment.FitsAddresses) {action : Action} (allowed : action.Allowed category) :
    Sound (action.run environment (machine, category)).2.1
      (action.run environment (machine, category)).2.2 := by
  -- one spec for each operation, all of which leave a sound category
  cases action with
  | allocate size =>
    obtain ⟨result, machine', after, hrun, hsound, -⟩ := h.allocate fits allowed
    simpa only [Action.run, discard_state, hrun] using hsound
  | free ref =>
    obtain ⟨old, hinUse⟩ := allowed
    obtain ⟨after, hrun, hsound, -⟩ := h.free (h.uses hinUse) environment
    simpa only [Action.run, hrun] using hsound
  | shrink ref size =>
    obtain ⟨valid, old, hinUse, hle⟩ := allowed
    obtain ⟨after, hrun, hsound, -⟩ := h.shrink (h.uses hinUse) hle valid environment
    simpa only [Action.run, hrun] using hsound
  | grow ref size =>
    obtain ⟨valid, old, hinUse, hlt⟩ := allowed
    obtain ⟨done, after, hrun, hsound, -⟩ := h.grow (h.uses hinUse) hlt valid environment
    simpa only [Action.run, discard_state, hrun] using hsound
  | clear =>
    obtain ⟨after, hrun, hsound, -⟩ := h.clear environment
    simpa only [Action.run, hrun] using hsound
  | trim =>
    obtain ⟨result, machine', after, hrun, hsound, -⟩ := h.trim environment
    simpa only [Action.run, discard_state, hrun] using hsound
  | write ref offset content =>
    obtain ⟨old, hinUse, hle⟩ := allowed
    obtain ⟨after, hrun, hsound, -⟩ := h.write (h.uses hinUse) hle environment
    simpa only [Action.run, hrun] using hsound

/-- Every reachable state of a category is sound. -/
theorem Reachable.sound {index : Nat} {chunkSize : Option Nat}
    (lengths : ∀ length ∈ chunkSize, 0 < length ∧ Size.pageSize ∣ length ∧ length < Size.limit)
    {state : Machine × Category} (h : Reachable index chunkSize state) :
    Sound state.1 state.2 := by
  induction h with
  | start machine => exact Sound.empty machine index lengths
  | step before environment fits action allowed ih => exact ih.run fits allowed
  | others before held ih => exact ih.of_machine held

/-! ## What a walk finds -/

/-- The largest of some sizes in two ways. -/
theorem largest_eq_max? (address : Nat) (prev : Option Nat) (start : Nat) (slots : List Slot) :
    largest slots = ((((visited address prev start slots).map Prod.snd).filter
      (·.isFree)).map (·.size)).max?.getD 0 := by
  induction slots generalizing prev start with
  | nil => rfl
  | cons slot rest ih =>
    simp only [visited, List.map_cons, List.filter_cons, largest]
    rw [ih (some start) (start + slot.total)]
    split
    · rw [List.map_cons, List.max?_cons]
      cases (((visited address (some start) (start + slot.total) rest).map Prod.snd).filter
        (·.isFree)).map (·.size) |>.max? <;> simp
    · rfl

/-- The layout of settled chunks is read off their slots. -/
theorem layoutOf_eq {entries : List (Nat × Chunk)}
    (h : ∀ entry ∈ entries, ∃ shared, entry.2.Settled shared entry.1 (entry.2.slots entry.1)) :
    layoutOf entries = .ok (entries.map fun entry =>
      ⟨entry.2.size, entry.2.category, entry.2.largestFree,
        (visited entry.1 none Chunk.headerSize (entry.2.slots entry.1)).map Prod.snd⟩) := by
  induction entries with
  | nil => rfl
  | cons entry rest ih =>
    obtain ⟨shared, hsettled⟩ := h entry (List.mem_cons_self ..)
    simp only [layoutOf, hsettled.blocks_eq,
      ih fun other hother => h other (List.mem_cons_of_mem _ hother), bind, Except.bind]
    rfl

/-- In every reachable state, what each chunk remembers is the size of the largest free block that a
walk over it finds, and zero if it finds none; measuring the chunk again would change nothing. -/
theorem Reachable.largestFree_exact {index : Nat} {chunkSize : Option Nat}
    (lengths : ∀ length ∈ chunkSize, 0 < length ∧ Size.pageSize ∣ length ∧ length < Size.limit)
    {state : Machine × Category} (h : Reachable index chunkSize state) :
    (∃ chunks, state.2.layout = .ok chunks ∧ ∀ chunk ∈ chunks, chunk.largestFree =
        ((chunk.blocks.filter (·.isFree)).map (·.size)).max?.getD 0) ∧
      ∀ entry ∈ state.2.chunks.toList, entry.2.measure entry.1 = .ok entry.2 := by
  have hsound := h.sound lengths
  refine ⟨⟨_, layoutOf_eq fun entry hentry => ⟨_, hsound.settled hentry⟩, ?_⟩, ?_⟩
  · intro chunk hchunk
    obtain ⟨entry, hentry, rfl⟩ := List.mem_map.1 hchunk
    exact (hsound.settled hentry).measured.trans (largest_eq_max? ..)
  · intro entry hentry
    have hsettled := hsound.settled hentry
    rw [hsettled.tiled.measure_eq hsettled.nonempty, ← hsettled.measured]

end PagedAlloc.Category

namespace PagedAlloc.Category

open Procedure Layout

attribute [local instance] Size.Paging.common

theorem largestFree_exact_first_block :
    let state := (Action.run (.allocate 64) .ordinary
      (Machine.fresh, Category.empty 0 (some 65536))).2
    state.2.layout.toOption = some [⟨65536, 0, 65360,
        [⟨65536, none, 64, false⟩, ⟨65536, some 48, 65360, true⟩]⟩] ∧
      (∃ chunks, state.2.layout = .ok chunks ∧ ∀ chunk ∈ chunks, chunk.largestFree =
        ((chunk.blocks.filter (·.isFree)).map (·.size)).max?.getD 0) ∧
      ∀ entry ∈ state.2.chunks.toList, entry.2.measure entry.1 = .ok entry.2 :=
  ⟨by decide +kernel, Reachable.largestFree_exact (by rintro _ ⟨⟩; decide)
    (.step (.start Machine.fresh) .ordinary Environment.ordinary_fitsAddresses (.allocate 64)
      (show Slot.Valid ⟨64, true⟩ by decide))⟩

end PagedAlloc.Category
