import Mathlib.Algebra.GroupWithZero.Nat
import Mathlib.Data.Set.Insert
import PagedAlloc.Proofs.Chain
import PagedAlloc.Proofs.Procedures
import PagedAlloc.Proofs.Settled
import PagedAlloc.Segregated.Category

/-!
# States of a category

`Category.Sound` gathers what holds of a category between two operations: its chain is a sequence of
settled chunks, each of them a mapping in the books of the machine, no two chunks share an address,
and the bytes in use are those of the used blocks. `Category.Evolves` relates two states: used
blocks stay where they are and keep their payloads, and mappings of others stay in the books.

Main statements: `Sound.change` and `Sound.evolves_change`, one chunk may be replaced by a settled
one that keeps its blocks.
-/

namespace PagedAlloc

variable {paging : Size.Paging}

/-- Two chunks share no address. -/
def Chunk.Apart (p q : Nat × Chunk) : Prop := p.1 + p.2.size ≤ q.1 ∨ q.1 + q.2.size ≤ p.1

namespace Category

open Layout

/-- Bytes of some chunks together. -/
def totalSize (entries : List (Nat × Chunk)) : Nat := (entries.map fun entry => entry.2.size).sum

/-- Payload bytes in use in some chunks together. -/
def totalUsed (entries : List (Nat × Chunk)) : Nat :=
  (entries.map fun entry => Layout.used (entry.2.slots entry.1)).sum

/-- A block of the category is in use and has this payload size. -/
def Uses (category : Category) (ref : BlockRef) (size : Nat) : Prop :=
  ∃ chunk, (ref.chunk, chunk) ∈ category.chunks.toList ∧
    (ref.offset, ⟨size, false⟩) ∈ spots Chunk.headerSize (chunk.slots ref.chunk)

/-- The cell at an offset of the chunk at an address, if there is such a chunk. -/
def cell? (category : Category) (address offset : Nat) : Option (Cell BlockHeader) :=
  (category.chunks.get? address).map fun chunk => chunk.memory.cell offset

/-- The first bytes of the payload of a block are the same in two states. -/
def SameCells (before after : Category) (ref : BlockRef) (count : Nat) : Prop :=
  ∀ x, ref.payloadOffset ≤ x → x < ref.payloadOffset + count →
    after.cell? ref.chunk x = before.cell? ref.chunk x

/-- A chunk of a category is at rest and is a mapping of whole pages in the books. -/
structure Laid [Size.Paging] (machine : Machine) (category : Category) (address : Nat)
    (chunk : Chunk) : Prop where
  settled : chunk.Settled category.chunkSize.isSome address (chunk.slots address)
  category : chunk.category = category.index
  aligned : Size.pageSize ∣ address
  whole : Size.pageSize ∣ chunk.size
  held : ⟨address, chunk.size, .pages false⟩ ∈ machine.ledger

/-- What holds of a category between two operations. -/
structure Sound [Size.Paging] (machine : Machine) (category : Category) : Prop where
  sequence : category.chunks.IsSequence category.chunks.toList
  lengths : ∀ length ∈ category.chunkSize, 0 < length ∧ Size.pageSize ∣ length ∧ length < Size.limit
  laid : ∀ address chunk, (address, chunk) ∈ category.chunks.toList →
    Laid machine category address chunk
  apart : ∀ p ∈ category.chunks.toList, ∀ q ∈ category.chunks.toList,
    p.1 = q.1 ∨ Chunk.Apart p q
  bounded : totalSize category.chunks.toList < Size.limit
  counted : category.used = totalUsed category.chunks.toList

/-- The mapped bytes of a category are those of its chunks. -/
def Exact (category : Category) : Prop := category.mapped = totalSize category.chunks.toList

/-- From one state of a category to another, the chunks stay mapped as they are, and the bytes in use
change by those that were lost and those that were gained. -/
structure Balances (lost gained : Nat) (before after : Category) : Prop where
  used : after.used + lost = before.used + gained
  mapped : after.mapped = before.mapped
  sizes : totalSize after.chunks.toList = totalSize before.chunks.toList

/-- The chunks of a category stay in the books. -/
def StaysMapped (category : Category) (before after : Machine) : Prop :=
  category.chunks.StaysMapped Chunk.size before.ledger after.ledger

/-- No chunk of a category has an address of a live region. -/
def Avoids (category : Category) (holding : Holding) : Prop :=
  ∀ entry ∈ category.chunks.toList,
    holding.stop ≤ entry.1 ∨ entry.1 + entry.2.size ≤ holding.address

/-- From one state of a category to another, all used blocks but the touched ones stay and keep
their payloads, and what others have stays in the books, and beside the chunks. -/
structure Evolves (touched : Set BlockRef) (before after : Machine × Category) : Prop where
  index : after.2.index = before.2.index
  chunkSize : after.2.chunkSize = before.2.chunkSize
  others : ∀ holding ∈ before.1.ledger, before.2.Avoids holding →
    holding ∈ after.1.ledger ∧ after.2.Avoids holding
  stays : ∀ ref size, before.2.Uses ref size → ref ∉ touched → after.2.Uses ref size
  cells : ∀ ref size, before.2.Uses ref size → ref ∉ touched →
    SameCells before.2 after.2 ref size

variable {machine machine' : Machine} {category category' : Category} {address : Nat}
  {chunk chunk' : Chunk} {touched : Set BlockRef}

section Totals

variable (entry : Nat × Chunk) (before after rest : List (Nat × Chunk))

@[simp]
theorem totalSize_append : totalSize (before ++ after) = totalSize before + totalSize after := by
  simp [totalSize]

@[simp]
theorem totalSize_cons : totalSize (entry :: rest) = entry.2.size + totalSize rest := rfl

@[simp]
theorem totalUsed_append : totalUsed (before ++ after) = totalUsed before + totalUsed after := by
  simp [totalUsed]

@[simp]
theorem totalUsed_cons :
    totalUsed (entry :: rest) = Layout.used (entry.2.slots entry.1) + totalUsed rest := rfl

end Totals

namespace Evolves

variable {first second third : Machine × Category}

theorem refl (touched : Set BlockRef) (state : Machine × Category) :
    Evolves touched state state where
  index := rfl
  chunkSize := rfl
  others _ hmem hclear := ⟨hmem, hclear⟩
  stays _ _ huses _ := huses
  cells _ _ _ _ _ _ _ := rfl

/-- What two steps leave alone is left alone by both together. -/
theorem trans (h : Evolves touched first second) (h' : Evolves touched second third) :
    Evolves touched first third where
  index := h'.index.trans h.index
  chunkSize := h'.chunkSize.trans h.chunkSize
  others holding hmem hclear :=
    have hmiddle := h.others holding hmem hclear
    h'.others holding hmiddle.1 hmiddle.2
  stays ref size huses hother := h'.stays ref size (h.stays ref size huses hother) hother
  cells ref size huses hother x hle hlt :=
    (h'.cells ref size (h.stays ref size huses hother) hother x hle hlt).trans
      (h.cells ref size huses hother x hle hlt)

/-- A step may be said to touch more blocks than it does. -/
theorem mono {more : Set BlockRef} (h : Evolves touched first second) (sub : touched ⊆ more) :
    Evolves more first second :=
  { h with
    stays := fun ref size huses hother => h.stays ref size huses fun hin => hother (sub hin)
    cells := fun ref size huses hother => h.cells ref size huses fun hin => hother (sub hin) }

/-- The books may change beside the category. -/
theorem of_machine (hheld : ∀ holding ∈ machine.ledger, holding ∈ machine'.ledger)
    (category : Category) : Evolves touched (machine, category) (machine', category) :=
  { refl touched (machine, category) with
    others := fun holding hmem hclear => ⟨hheld holding hmem, hclear⟩ }

end Evolves

/-- Where every chunk has the place and the size of an old one, the chunks avoid what these did. -/
theorem Avoids.of_sizes {holding : Holding} (h : category.Avoids holding)
    (hsizes : ∀ entry ∈ category'.chunks.toList,
      ∃ old, (entry.1, old) ∈ category.chunks.toList ∧ entry.2.size = old.size) :
    category'.Avoids holding := by
  intro entry hentry
  obtain ⟨old, hold, hsize⟩ := hsizes entry hentry
  rw [hsize]
  exact h (entry.1, old) hold

/-- Counters that were exact stay so if bytes and chunks move together. -/
theorem Balances.exact {lost gained : Nat} (h : Balances lost gained category category')
    (exact : category.Exact) : category'.Exact := by
  rw [Exact, h.mapped, h.sizes]
  exact exact

/-! ## Replacing one chunk -/

/-- The category after the chunk at an address was replaced and the bytes in use were counted
again. -/
def changed (category : Category) (address : Nat) (chunk : Chunk) (used : Nat) : Category :=
  { category with chunks := category.chunks.put address chunk, used := used }

/-- Of two changes of a chunk the second one counts. -/
theorem changed_changed (category : Category) (address : Nat) (first second : Chunk)
    (used used' : Nat) :
    (category.changed address first used).changed address second used' =
      category.changed address second used' := by
  simp [changed, Chain.put_put]

/-- A settled chunk of the same size may take the place of a chunk. -/
theorem Laid.replace {slots : List Slot} (h : Laid machine category address chunk)
    (settled : chunk'.Settled category.chunkSize.isSome address slots)
    (hsize : chunk'.size = chunk.size) (hcategory : chunk'.category = chunk.category) :
    Laid machine category address chunk' where
  settled := settled.slots_eq.symm ▸ settled
  category := hcategory.trans h.category
  aligned := h.aligned
  whole := hsize ▸ h.whole
  held := hsize ▸ h.held

namespace Sound

/-- A category without chunks is sound on every machine. -/
theorem empty (machine : Machine) (index : Nat) {chunkSize : Option Nat}
    (lengths : ∀ length ∈ chunkSize, 0 < length ∧ Size.pageSize ∣ length ∧ length < Size.limit) :
    Sound machine (Category.empty index chunkSize) := by
  have hlist : (Category.empty index chunkSize).chunks.toList = [] := rfl
  refine ⟨hlist ▸ Chain.isSequence_empty, lengths, ?_, ?_, ?_, ?_⟩
  all_goals rw [hlist]
  · simp
  · simp
  · decide
  · rfl

/-- A chunk is found at its address. -/
theorem get?_eq (h : Sound machine category) (hmem : (address, chunk) ∈ category.chunks.toList) :
    category.chunks.get? address = some chunk :=
  h.sequence.get?_eq_some_iff.2 hmem

theorem settled (h : Sound machine category) (hmem : (address, chunk) ∈ category.chunks.toList) :
    chunk.Settled category.chunkSize.isSome address (chunk.slots address) :=
  (h.laid address chunk hmem).settled

theorem size_pos (h : Sound machine category) (hmem : (address, chunk) ∈ category.chunks.toList) :
    0 < chunk.size :=
  (h.settled hmem).tiled.ends ▸ Nat.lt_of_lt_of_le (by decide) (le_stop Chunk.headerSize _)

/-- The books may change as long as the chunks stay in them. -/
theorem of_machine (h : Sound machine category)
    (held : category.StaysMapped machine machine') : Sound machine' category :=
  { h with
    laid := fun address chunk hmem =>
      { h.laid address chunk hmem with
        held := held (address, chunk) hmem (h.laid address chunk hmem).held } }

/-- Chunks of the sizes that the old ones have lie apart as these do. -/
theorem apart_of_sizes (h : Sound machine category) {entries : List (Nat × Chunk)}
    (hsizes : ∀ entry ∈ entries,
      ∃ old, (entry.1, old) ∈ category.chunks.toList ∧ entry.2.size = old.size) :
    ∀ p ∈ entries, ∀ q ∈ entries, p.1 = q.1 ∨ Chunk.Apart p q := by
  intro p hp q hq
  obtain ⟨oldp, holdp, hsizep⟩ := hsizes p hp
  obtain ⟨oldq, holdq, hsizeq⟩ := hsizes q hq
  have hapart := h.apart _ holdp _ holdq
  simp only [Chunk.Apart] at hapart ⊢
  rwa [hsizep, hsizeq]

section Change

variable {slots : List Slot} {target : Option Nat} {used : Nat}

/-- What the chain of a category holds after one chunk was replaced. -/
theorem toList_changed (h : Sound machine category)
    (hmem : (address, chunk) ∈ category.chunks.toList) (chunk' : Chunk) (used : Nat) :
    ∃ before after, category.chunks.toList = before ++ (address, chunk) :: after ∧
      (category.changed address chunk' used).chunks.toList = before ++ (address, chunk') :: after :=
  h.sequence.toList_put_middle hmem chunk'

/-- After one chunk was replaced, the others are as before. -/
theorem mem_changed_iff (h : Sound machine category)
    (hmem : (address, chunk) ∈ category.chunks.toList) {entry : Nat × Chunk} :
    entry ∈ (category.changed address chunk' used).chunks.toList ↔
      entry = (address, chunk') ∨ entry.1 ≠ address ∧ entry ∈ category.chunks.toList :=
  h.sequence.mem_put_iff hmem

/-- Where a chunk of the same size is put in, every chunk has the size of an old one. -/
theorem sizes_changed (h : Sound machine category)
    (hmem : (address, chunk) ∈ category.chunks.toList) (hsize : chunk'.size = chunk.size)
    {entry : Nat × Chunk} (hentry : entry ∈ (category.changed address chunk' used).chunks.toList) :
    ∃ old, (entry.1, old) ∈ category.chunks.toList ∧ entry.2.size = old.size := by
  rcases (h.mem_changed_iff hmem).1 hentry with rfl | ⟨-, hold⟩
  · exact ⟨chunk, hmem, hsize⟩
  · exact ⟨entry.2, hold, rfl⟩

/-- One chunk may be replaced by a settled one of the same size. -/
theorem change (h : Sound machine category) (hmem : (address, chunk) ∈ category.chunks.toList)
    (settled : chunk'.Settled category.chunkSize.isSome address slots)
    (hsize : chunk'.size = chunk.size) (hcategory : chunk'.category = chunk.category)
    (counted : used + Layout.used (chunk.slots address) = category.used + Layout.used slots) :
    Sound machine (category.changed address chunk' used) where
  sequence := by
    have hsequence := h.sequence.put address chunk'
    rwa [← h.sequence.toList_put] at hsequence
  lengths := h.lengths
  laid place entry hentry := by
    have hlaid := h.laid address chunk hmem
    rcases (h.mem_changed_iff hmem).1 hentry with heq | ⟨-, hold⟩
    · obtain ⟨rfl, rfl⟩ := Prod.mk.inj heq
      exact { hlaid.replace settled hsize hcategory with }
    · exact { h.laid place entry hold with }
  apart := h.apart_of_sizes fun _ hentry => h.sizes_changed hmem hsize hentry
  bounded := by
    obtain ⟨before, after, hold, hnew⟩ := h.toList_changed hmem chunk' used
    have hbounded := h.bounded
    rw [hold] at hbounded
    rw [hnew]
    simpa [hsize] using hbounded
  -- only the part of this chunk in the sum over all chunks is another one
  counted := by
    obtain ⟨before, after, hold, hnew⟩ := h.toList_changed hmem chunk' used
    have hcounted := h.counted
    rw [hold] at hcounted
    rw [hnew]
    simp only [changed, totalUsed_append, totalUsed_cons, settled.slots_eq] at hcounted ⊢
    omega

/-- A chunk that keeps its size moves the counter of used bytes alone. -/
theorem balances_change (h : Sound machine category)
    (hmem : (address, chunk) ∈ category.chunks.toList) (hsize : chunk'.size = chunk.size)
    {lost gained : Nat} (counted : used + lost = category.used + gained) :
    Balances lost gained category (category.changed address chunk' used) := by
  obtain ⟨before, after, hold, hnew⟩ := h.toList_changed hmem chunk' used
  refine ⟨counted, rfl, ?_⟩
  rw [hold, hnew]
  simp [hsize]

/-- Replacing a chunk by one that keeps its blocks keeps the blocks of the category. -/
theorem evolves_change (h : Sound machine category)
    (hmem : (address, chunk) ∈ category.chunks.toList)
    (settled : chunk'.Settled category.chunkSize.isSome address slots)
    (keeps : Chunk.Keeps target chunk chunk' (chunk.slots address) slots) :
    Evolves { ref | ref.chunk = address ∧ target = some ref.offset } (machine, category)
      (machine, category.changed address chunk' used) where
  index := rfl
  chunkSize := rfl
  others _ hheld hclear := ⟨hheld, hclear.of_sizes fun _ => h.sizes_changed hmem keeps.size⟩
  stays := by
    rintro ⟨place, offset⟩ size ⟨old, hold, hspot⟩ huntouched
    by_cases hplace : place = address
    · subst hplace
      obtain rfl := h.sequence.mem_unique hold hmem
      refine ⟨chunk', (h.mem_changed_iff hmem).2 (Or.inl rfl), ?_⟩
      rw [settled.slots_eq]
      exact keeps.stays _ hspot rfl fun heq => huntouched ⟨rfl, heq⟩
    · exact ⟨old, (h.mem_changed_iff hmem).2 (Or.inr ⟨hplace, hold⟩), hspot⟩
  cells := by
    rintro ⟨place, offset⟩ size ⟨old, hold, hspot⟩ huntouched x hle hlt
    have hfound := h.get?_eq hold
    by_cases hplace : place = address
    · -- the chunk that was put in has the cells of the old one here
      subst hplace
      obtain rfl := h.sequence.mem_unique hold hmem
      have hcells := keeps.cells _ hspot rfl (fun heq => huntouched ⟨rfl, heq⟩) x hle
      simp only [BlockRef.payloadOffset, Slot.total] at hlt hcells
      simp only [cell?, changed, Chain.get?_put_self hfound, hfound, Option.map_some]
      rw [hcells (by omega)]
    · have hsequence := h.sequence.put address chunk'
      rw [← h.sequence.toList_put] at hsequence
      have hin : (place, old) ∈ (category.changed address chunk' used).chunks.toList :=
        (h.mem_changed_iff hmem).2 (Or.inr ⟨hplace, hold⟩)
      have hnew := hsequence.get?_eq_some_iff.2 hin
      simp only [cell?, changed, hnew, hfound]

/-- A chunk whose used blocks all stay may be replaced. -/
theorem evolves_none (h : Sound machine category)
    (hmem : (address, chunk) ∈ category.chunks.toList)
    (settled : chunk'.Settled category.chunkSize.isSome address slots)
    (keeps : Chunk.Keeps none chunk chunk' (chunk.slots address) slots) :
    Evolves ∅ (machine, category) (machine, category.changed address chunk' used) :=
  (h.evolves_change hmem settled keeps).mono fun _ hin => absurd hin.2 (by simp)

/-- A chunk whose used blocks stay but one may be replaced, and no other block is touched. -/
theorem evolves_at (h : Sound machine category)
    (hmem : (address, chunk) ∈ category.chunks.toList) {offset : Nat}
    (settled : chunk'.Settled category.chunkSize.isSome address slots)
    (keeps : Chunk.Keeps (some offset) chunk chunk' (chunk.slots address) slots) :
    Evolves {⟨address, offset⟩} (machine, category)
      (machine, category.changed address chunk' used) := by
  apply (h.evolves_change hmem settled keeps).mono
  intro ref hin
  obtain ⟨rfl, hoffset⟩ := hin
  rw [Option.some.inj hoffset]
  rfl

end Change

end Sound

end Category

end PagedAlloc
