import Mathlib.Algebra.GroupWithZero.Nat
import PagedAlloc.Fixed.Basic
import PagedAlloc.Proofs.Chain
import PagedAlloc.Proofs.FixedChunks
import PagedAlloc.Proofs.Procedures

/-!
# States of a fixed list

A fixed list is sound if its chunks are mapped and lie apart from each other, each holds a stock of
free blocks, and the list counts what the chunks count. An address is in use if it is that of a block which no
stock names.

Main statements: an address leads to the chunk that it lies in (`Sound.chunkOf?_eq`,
`Sound.chunkHolding?_eq`), what a block holds is read from its chunk (`Sound.contents_eq`), and one
chunk may be replaced by another one that differs in one block (`Sound.change`).
-/

namespace PagedAlloc

variable {paging : Size.Paging}

open FixedChunk

/-- A search finds the one entry that passes its test. -/
theorem find?_eq_some_of_unique {α : Type} {entries : List α} {test : α → Bool} {entry : α}
    (hmem : entry ∈ entries) (htest : test entry = true)
    (unique : ∀ other ∈ entries, test other = true → other = entry) :
    entries.find? test = some entry := by
  cases hfind : entries.find? test with
  | none => exact absurd htest (by simpa using List.find?_eq_none.1 hfind entry hmem)
  | some other => rw [unique other (List.mem_of_find?_eq_some hfind) (List.find?_some hfind)]

namespace FixedList

/-- The block at an address is in use: it lies in a chunk of the list, whose stock does not name
it. -/
def Uses (list : FixedList) (address : Nat) : Prop :=
  ∃ start chunk stock index, (start, chunk) ∈ list.chunks.toList ∧
    chunk.Stocked list.blockSize list.blocksPerChunk stock ∧ stock.Uses index ∧
    address = start + blockOffset list.blockSize index

/-- The cells of the block at an address. -/
def contents (list : FixedList) (address : Nat) : Except Fault (List (Cell FreeLink)) :=
  (list.read address 0 list.blockSize).map Stretch.cells

/-- A chunk has the size that all have, is a mapping in the books of the machine, and holds a
stock. -/
structure Laid (machine : Machine) (list : FixedList) (address : Nat) (chunk : FixedChunk) :
    Prop where
  size : chunk.size = list.chunkSize
  held : ⟨address, list.chunkSize, .pages false⟩ ∈ machine.ledger
  stocked : ∃ stock, chunk.Stocked list.blockSize list.blocksPerChunk stock

/-- What holds of a fixed list between two operations. -/
structure Sound [Size.Paging] (machine : Machine) (list : FixedList) : Prop where
  sequence : list.chunks.IsSequence list.chunks.toList
  large : linkSize ≤ list.blockSize
  positive : 0 < list.blocksPerChunk
  room : blockOffset list.blockSize list.blocksPerChunk ≤ list.chunkSize
  full : list.chunkSize < blockOffset list.blockSize (list.blocksPerChunk + 1)
  whole : Size.pageSize ∣ list.chunkSize
  laid : ∀ address chunk, (address, chunk) ∈ list.chunks.toList → Laid machine list address chunk
  apart : ∀ p ∈ list.chunks.toList, ∀ q ∈ list.chunks.toList, p.1 = q.1 ∨
    p.1 + list.chunkSize ≤ q.1 ∨ q.1 + list.chunkSize ≤ p.1
  counted : list.inUse = (list.chunks.toList.map fun entry => entry.2.inUse).sum

/-- The chunks of a list stay in the books. -/
def StaysMapped (list : FixedList) (before after : Machine) : Prop :=
  list.chunks.StaysMapped FixedChunk.size before.ledger after.ledger

/-- Blocks that were not touched are in use as before, and those in use hold what they held. -/
structure Evolves (touched : Nat → Prop) (before after : FixedList) : Prop where
  blockSize : after.blockSize = before.blockSize
  blocksPerChunk : after.blocksPerChunk = before.blocksPerChunk
  uses : ∀ address, ¬ touched address → (after.Uses address ↔ before.Uses address)
  contents : ∀ address, ¬ touched address → before.Uses address →
    after.contents address = before.contents address

variable {environment : Environment} {machine machine' : Machine}
  {list before after : FixedList} {start address index : Nat} {chunk chunk' : FixedChunk}
  {stock stock' : Stock} {touched : Nat → Prop}

namespace Sound

theorem get?_eq (h : Sound machine list) (hmem : (start, chunk) ∈ list.chunks.toList) :
    list.chunks.get? start = some chunk :=
  h.sequence.get?_eq_some_iff.2 hmem

/-- The machine says nothing about blocks, as long as the chunks stay mapped. -/
theorem of_machine (h : Sound machine list) (held : list.StaysMapped machine machine') :
    Sound machine' list := by
  refine { h with laid := fun address chunk hmem => ?_ }
  have hlaid := h.laid address chunk hmem
  have hheld := held (address, chunk) hmem
  rw [hlaid.size] at hheld
  exact { hlaid with held := hheld hlaid.held }

/-- The log says nothing about blocks. -/
theorem of_log (h : Sound machine list) (log : List Event) :
    Sound { machine with log := log } list :=
  h.of_machine fun _ _ hheld => hheld

/-- Chunks that overlap are the same one. -/
theorem eq_of_overlap (h : Sound machine list) {p q : Nat × FixedChunk}
    (hp : p ∈ list.chunks.toList) (hq : q ∈ list.chunks.toList) {x : Nat}
    (hxp : p.1 ≤ x ∧ x < p.1 + list.chunkSize) (hxq : q.1 ≤ x ∧ x < q.1 + list.chunkSize) :
    p = q := by
  have hapart := h.apart p hp q hq
  obtain ⟨first, chunk⟩ := p
  obtain ⟨second, other⟩ := q
  obtain rfl : first = second := by
    simp only at *
    omega
  rw [h.sequence.mem_unique hp hq]

/-- A block lies in its chunk, behind the header of the chunk. -/
theorem block_inside (h : Sound machine list) (hlt : index < list.blocksPerChunk) :
    headerSize ≤ blockOffset list.blockSize index ∧
      blockOffset list.blockSize index + list.blockSize ≤
        headerSize + list.blocksPerChunk * list.blockSize ∧
      headerSize + list.blocksPerChunk * list.blockSize ≤ list.chunkSize := by
  refine ⟨Nat.le_add_right .., ?_, h.room⟩
  rw [← blockOffset_succ]
  exact blockOffset_le _ hlt

/-- An address among the blocks of a chunk leads to the chunk. -/
theorem chunkOf?_eq (h : Sound machine list) (hmem : (start, chunk) ∈ list.chunks.toList)
    (hlt : index < list.blocksPerChunk) :
    list.chunkOf? (start + blockOffset list.blockSize index) = some (start, chunk) := by
  have hlarge := h.large
  have hroom := h.room
  obtain ⟨hfirst, hlast, hend⟩ := h.block_inside hlt
  rw [linkSize] at hlarge
  refine find?_eq_some_of_unique hmem ?_ ?_
  · simp only [Bool.and_eq_true, decide_eq_true_eq]
    omega
  · rintro ⟨place, other⟩ hother htest
    simp only [Bool.and_eq_true, decide_eq_true_eq] at htest
    exact h.eq_of_overlap hother hmem (x := start + blockOffset list.blockSize index)
      (by simp only; omega) (by simp only; omega)

/-- An address in the mapping of a chunk leads to the chunk. -/
theorem chunkHolding?_eq (h : Sound machine list) (hmem : (start, chunk) ∈ list.chunks.toList)
    (hlt : index < list.blocksPerChunk) :
    list.chunkHolding? (start + blockOffset list.blockSize index) = some (start, chunk) := by
  have hlarge := h.large
  obtain ⟨hfirst, hlast, hend⟩ := h.block_inside hlt
  have hsize : chunk.size = list.chunkSize := (h.laid _ _ hmem).size
  rw [linkSize] at hlarge
  refine find?_eq_some_of_unique hmem ?_ ?_
  · simp only [Bool.and_eq_true, decide_eq_true_eq]
    omega
  · rintro ⟨place, other⟩ hother htest
    have hsize' : other.size = list.chunkSize := (h.laid _ _ hother).size
    simp only [Bool.and_eq_true, decide_eq_true_eq] at htest
    exact h.eq_of_overlap hother hmem (x := start + blockOffset list.blockSize index)
      (by simp only; omega) (by simp only; omega)

/-- What a block holds is read from its chunk. -/
theorem contents_eq (h : Sound machine list) (hmem : (start, chunk) ∈ list.chunks.toList)
    (hlt : index < list.blocksPerChunk) :
    list.contents (start + blockOffset list.blockSize index) =
      .ok ((List.range list.blockSize).map fun count =>
        chunk.memory.cell (blockOffset list.blockSize index + count)) := by
  rw [contents, read, h.chunkHolding?_eq hmem hlt]
  simp only [Except.map, Memory.cells_read, Nat.add_sub_cancel_left, Nat.add_zero]

/-- A block of a chunk is in use if the stock of the chunk does not name it. -/
theorem uses_iff (h : Sound machine list) (hmem : (start, chunk) ∈ list.chunks.toList)
    (stocked : chunk.Stocked list.blockSize list.blocksPerChunk stock)
    (hlt : index < list.blocksPerChunk) :
    list.Uses (start + blockOffset list.blockSize index) ↔ stock.Uses index := by
  constructor
  · rintro ⟨place, other, found, spot, hother, hfound, huses, heq⟩
    have hspot := hfound.index_lt huses
    have hsame := h.chunkOf?_eq hmem hlt
    rw [heq, h.chunkOf?_eq hother hspot] at hsame
    obtain ⟨rfl, rfl⟩ := Prod.mk.inj (Option.some.inj hsame)
    obtain rfl := stocked.unique hfound
    obtain rfl := blockOffset_injective h.large (Nat.add_left_cancel heq)
    exact huses
  · intro huses
    exact ⟨start, chunk, stock, index, hmem, stocked, huses, rfl⟩

end Sound

namespace Evolves

theorem refl (touched : Nat → Prop) (list : FixedList) : Evolves touched list list :=
  ⟨rfl, rfl, fun _ _ => Iff.rfl, fun _ _ _ => rfl⟩

/-- What two steps leave alone is left alone by both together. -/
theorem trans {middle : FixedList} (h : Evolves touched before middle)
    (h' : Evolves touched middle after) : Evolves touched before after where
  blockSize := h'.blockSize.trans h.blockSize
  blocksPerChunk := h'.blocksPerChunk.trans h.blocksPerChunk
  uses address hother := (h'.uses address hother).trans (h.uses address hother)
  contents address hother huses :=
    (h'.contents address hother ((h.uses address hother).2 huses)).trans
      (h.contents address hother huses)

theorem mono {more : Nat → Prop} (h : Evolves touched before after)
    (sub : ∀ address, touched address → more address) : Evolves more before after where
  blockSize := h.blockSize
  blocksPerChunk := h.blocksPerChunk
  uses address hother := h.uses address fun htouched => hother (sub address htouched)
  contents address hother := h.contents address fun htouched => hother (sub address htouched)

end Evolves

/-! ## Replacing a chunk -/

/-- A list in which one chunk and the counter were replaced. -/
def changed (list : FixedList) (address : Nat) (chunk : FixedChunk) (inUse : Nat) : FixedList :=
  { list with chunks := list.chunks.put address chunk, inUse := inUse }

namespace Sound

section Change

variable {inUse : Nat}

/-- The chunk that was put in is in the list. -/
theorem mem_changed (h : Sound machine list) (hmem : (start, chunk) ∈ list.chunks.toList)
    (chunk' : FixedChunk) (inUse : Nat) :
    (start, chunk') ∈ (list.changed start chunk' inUse).chunks.toList :=
  (h.sequence.mem_put_iff hmem).2 (Or.inl rfl)

/-- Where a changed chunk is put in, every chunk has an address that a chunk had. -/
theorem mem_of_mem_changed (h : Sound machine list)
    (hmem : (start, chunk) ∈ list.chunks.toList) {entry : Nat × FixedChunk}
    (hentry : entry ∈ (list.changed start chunk' inUse).chunks.toList) :
    ∃ old, (entry.1, old) ∈ list.chunks.toList := by
  rcases (h.sequence.mem_put_iff hmem).1 hentry with rfl | ⟨-, hold⟩
  · exact ⟨chunk, hmem⟩
  · exact ⟨entry.2, hold⟩

variable (h : Sound machine list) (hmem : (start, chunk) ∈ list.chunks.toList)
  (hevolves : FixedChunk.Evolves index list.blockSize list.blocksPerChunk chunk stock chunk' stock')

include h hmem hevolves

/-- A chunk may be replaced by one that differs in one block, if the list counts what the chunk
counts. -/
theorem change (counted : inUse + chunk.inUse = list.inUse + chunk'.inUse) :
    Sound machine (list.changed start chunk' inUse) where
  sequence := by
    have hsequence := h.sequence.put start chunk'
    rwa [← h.sequence.toList_put] at hsequence
  large := h.large
  positive := h.positive
  room := h.room
  full := h.full
  whole := h.whole
  laid place other hentry := by
    rcases (h.sequence.mem_put_iff hmem).1 hentry with heq | ⟨-, hold⟩
    · obtain ⟨rfl, rfl⟩ := Prod.mk.inj heq
      have hlaid := h.laid _ _ hmem
      exact ⟨hevolves.size.trans hlaid.size, hlaid.held, stock', hevolves.stocked⟩
    · exact { h.laid place other hold with }
  apart p hp q hq := by
    obtain ⟨oldp, hp⟩ := h.mem_of_mem_changed hmem hp
    obtain ⟨oldq, hq⟩ := h.mem_of_mem_changed hmem hq
    exact h.apart (p.1, oldp) hp (q.1, oldq) hq
  counted := by
    -- the chunk stays in its place, so the sum changes by what its counter does
    obtain ⟨front, back, hold, hnew⟩ := h.sequence.toList_put_middle hmem chunk'
    have hcounted := h.counted
    rw [hold] at hcounted
    simp only [changed, hnew, List.map_append, List.map_cons, List.sum_append, List.sum_cons]
      at hcounted ⊢
    omega

/-- Replacing one chunk touches no block but the one that changed in it. -/
theorem evolves_change (stocked : chunk.Stocked list.blockSize list.blocksPerChunk stock)
    (counted : inUse + chunk.inUse = list.inUse + chunk'.inUse) :
    Evolves (· = start + blockOffset list.blockSize index) list
      (list.changed start chunk' inUse) := by
  have hafter : Sound machine (list.changed start chunk' inUse) := h.change hmem hevolves counted
  have hnew := h.mem_changed hmem chunk' inUse
  have hother : ∀ {place : Nat} {other : FixedChunk}, place ≠ start →
      (place, other) ∈ list.chunks.toList →
        (place, other) ∈ (list.changed start chunk' inUse).chunks.toList := fun hplace hold =>
    (h.sequence.mem_put_iff hmem).2 (Or.inr ⟨hplace, hold⟩)
  refine ⟨rfl, rfl, ?_, ?_⟩
  · intro address huntouched
    constructor
    · rintro ⟨place, other, found, spot, hin, hfound, huses, rfl⟩
      rcases (h.sequence.mem_put_iff hmem).1 hin with heq | ⟨-, hold⟩
      · obtain ⟨rfl, rfl⟩ := Prod.mk.inj heq
        obtain rfl := hevolves.stocked.unique hfound
        have hne : spot ≠ index := fun heq => huntouched (heq ▸ rfl)
        exact ⟨place, chunk, stock, spot, hmem, stocked, (hevolves.uses spot hne).1 huses, rfl⟩
      · exact ⟨place, other, found, spot, hold, hfound, huses, rfl⟩
    · rintro ⟨place, other, found, spot, hin, hfound, huses, rfl⟩
      by_cases hplace : place = start
      · subst hplace
        obtain rfl := h.sequence.mem_unique hin hmem
        obtain rfl := stocked.unique hfound
        have hne : spot ≠ index := fun heq => huntouched (heq ▸ rfl)
        exact ⟨place, chunk', stock', spot, hnew, hevolves.stocked,
          (hevolves.uses spot hne).2 huses, rfl⟩
      · exact ⟨place, other, found, spot, hother hplace hin, hfound, huses, rfl⟩
  · rintro _ huntouched ⟨place, other, found, spot, hin, hfound, huses, rfl⟩
    have hlt := hfound.index_lt huses
    rw [h.contents_eq hin hlt]
    by_cases hplace : place = start
    · subst hplace
      obtain rfl := h.sequence.mem_unique hin hmem
      obtain rfl := stocked.unique hfound
      have hne : spot ≠ index := fun heq => huntouched (heq ▸ rfl)
      -- the cells of this block are those of the chunk before
      refine (hafter.contents_eq hnew hlt).trans (congrArg _ (List.map_congr_left ?_))
      intro count hcount
      refine hevolves.cells spot hne huses _ (Nat.le_add_right ..) ?_
      rw [blockOffset_succ]
      exact Nat.add_lt_add_left (List.mem_range.1 hcount) _
    · exact hafter.contents_eq (hother hplace hin) hlt

end Change

end Sound

end FixedList

end PagedAlloc
