import Mathlib.Data.Finset.Card
import PagedAlloc.Fixed.Chunk
import PagedAlloc.Proofs.Records

/-!
# Free chains

The free blocks of a chunk of fixed blocks are held in two ways: some are linked one by one, and all
from some block on are free without being linked, which the last link of the chain says. The stock
of a chunk names both. `FixedChunk.Stocked` says that the memory of a chunk holds a stock, and that
all other blocks are counted as in use.

Main statements: taking a block, giving one back, writing into one and freeing all of them give a
stocked chunk again and keep every other block in use with its cells (`Stocked.take`,
`Stocked.give`, `Stocked.write`, `stocked_freeAll`).
-/

namespace PagedAlloc

/-- The free chain of a chunk, from the link at an offset on: the blocks that are linked one by one,
and behind them, if there is one, the block that is marked as free with all that follow. -/
inductive FreeChain (memory : Memory FreeLink) : Option Nat → List Nat → Option Nat → Prop where
  | done : FreeChain memory none [] none
  | mark {offset : Nat} (found : memory.record? offset FixedChunk.linkSize = some ⟨none, true⟩) :
      FreeChain memory (some offset) [] (some offset)
  | link {offset : Nat} {next rest : Option Nat} {linked : List Nat}
      (found : memory.record? offset FixedChunk.linkSize = some ⟨next, false⟩)
      (tail : FreeChain memory next linked rest) :
      FreeChain memory (some offset) (offset :: linked) rest

/-- The free blocks of a chunk: those that are linked, in the order of the chain, and all from
`rest` on. -/
structure FixedChunk.Stock where
  linked : List Nat
  rest : Nat

namespace FixedChunk

variable {memory memory' : Memory FreeLink} {chunk chunk' : FixedChunk}
  {blockSize count index other : Nat} {stock stock' : Stock}

/-- Offset of a block in its chunk. -/
def blockOffset (blockSize index : Nat) : Nat := headerSize + index * blockSize

/-- A block is neither linked nor one of the rest. -/
def Stock.Uses (stock : Stock) (index : Nat) : Prop :=
  index < stock.rest ∧ index ∉ stock.linked

/-- The offset of the block that is marked, if there are blocks in the rest. -/
def Stock.mark (stock : Stock) (blockSize count : Nat) : Option Nat :=
  if stock.rest < count then some (blockOffset blockSize stock.rest) else none

/-- The blocks that are free among `count`, in the order in which they will be taken. -/
def Stock.free (stock : Stock) (count : Nat) : List Nat :=
  stock.linked ++ List.range' stock.rest (count - stock.rest)

/-- The blocks that are in use. -/
def Stock.used (stock : Stock) : Finset Nat := Finset.range stock.rest \ stock.linked.toFinset

/-- A chunk of `count` blocks holds a stock of free ones, and counts all others as in use. -/
structure Stocked (chunk : FixedChunk) (blockSize count : Nat) (stock : Stock) : Prop where
  length : chunk.memory.length = chunk.size
  large : linkSize ≤ blockSize
  room : blockOffset blockSize count ≤ chunk.size
  full : chunk.size < blockOffset blockSize (count + 1)
  chain : FreeChain chunk.memory chunk.free (stock.linked.map (blockOffset blockSize))
    (stock.mark blockSize count)
  distinct : stock.linked.Nodup
  below : ∀ index ∈ stock.linked, index < stock.rest
  bounded : stock.rest ≤ count
  counted : chunk.inUse + stock.linked.length = stock.rest

/-- A chunk after something was done about one of its blocks: all other blocks are as they were, and
those in use hold what they held. -/
structure Evolves (index blockSize count : Nat) (chunk : FixedChunk) (stock : Stock)
    (chunk' : FixedChunk) (stock' : Stock) : Prop where
  stocked : chunk'.Stocked blockSize count stock'
  size : chunk'.size = chunk.size
  uses : ∀ other, other ≠ index → (stock'.Uses other ↔ stock.Uses other)
  cells : ∀ other, other ≠ index → stock.Uses other → ∀ x, blockOffset blockSize other ≤ x →
    x < blockOffset blockSize (other + 1) → chunk'.memory.cell x = chunk.memory.cell x

/-! ## Offsets of blocks -/

/-- Blocks follow each other without a gap. -/
theorem blockOffset_succ (blockSize index : Nat) :
    blockOffset blockSize (index + 1) = blockOffset blockSize index + blockSize := by
  rw [blockOffset, blockOffset, Nat.succ_mul, Nat.add_assoc]

theorem blockOffset_le (blockSize : Nat) (h : index ≤ other) :
    blockOffset blockSize index ≤ blockOffset blockSize other :=
  Nat.add_le_add_left (Nat.mul_le_mul_right _ h) _

/-- Of two blocks one lies behind the other. -/
theorem blocks_apart (blockSize : Nat) (h : index ≠ other) :
    blockOffset blockSize (index + 1) ≤ blockOffset blockSize other ∨
      blockOffset blockSize (other + 1) ≤ blockOffset blockSize index := by
  rcases Nat.lt_or_gt_of_ne h with hlt | hgt
  · exact Or.inl (blockOffset_le blockSize hlt)
  · exact Or.inr (blockOffset_le blockSize hgt)

/-- Two blocks that begin at one place are the same. -/
theorem blockOffset_injective (large : linkSize ≤ blockSize)
    (h : blockOffset blockSize index = blockOffset blockSize other) : index = other := by
  by_contra hne
  have hapart := blocks_apart blockSize hne
  simp only [blockOffset_succ, linkSize] at hapart large
  omega

/-- A change within one block keeps the link of every other block. -/
theorem record?_other (h : memory.ChangesWithin (blockOffset blockSize index)
      (blockOffset blockSize (index + 1)) memory') (large : linkSize ≤ blockSize)
    (hne : other ≠ index) :
    memory'.record? (blockOffset blockSize other) linkSize =
      memory.record? (blockOffset blockSize other) linkSize := by
  apply h.record?_eq (by decide)
  have hapart := blocks_apart blockSize hne
  simp only [blockOffset_succ] at hapart
  rw [blockOffset_succ]
  omega

end FixedChunk

/-! ## Chains -/

namespace FreeChain

open FixedChunk

variable {memory memory' : Memory FreeLink} {start : Option Nat} {linked : List Nat}
  {rest : Option Nat}

/-- A chain depends on the links of its blocks only. -/
theorem congr (h : FreeChain memory start linked rest)
    (same : ∀ offset ∈ linked ++ rest.toList,
      memory'.record? offset linkSize = memory.record? offset linkSize) :
    FreeChain memory' start linked rest := by
  induction h with
  | done => exact done
  | mark found => exact mark ((same _ (by simp)).trans found)
  | link found tail ih =>
    refine link ((same _ (by simp)).trans found) (ih fun offset hmem => ?_)
    exact same offset (List.mem_cons_of_mem _ hmem)

/-- There is one chain from a link. -/
theorem unique {linked' : List Nat} {rest' : Option Nat} (h : FreeChain memory start linked rest)
    (h' : FreeChain memory start linked' rest') : linked = linked' ∧ rest = rest' := by
  induction h generalizing linked' rest' with
  | done =>
    cases h'
    exact ⟨rfl, rfl⟩
  | mark found =>
    cases h' with
    | mark => exact ⟨rfl, rfl⟩
    | link found' => cases found.symm.trans found'
  | link found tail ih =>
    cases h' with
    | mark found' => cases found.symm.trans found'
    | link found' tail' =>
      cases found.symm.trans found'
      obtain ⟨rfl, rfl⟩ := ih tail'
      exact ⟨rfl, rfl⟩

end FreeChain

namespace FixedChunk

variable {memory memory' : Memory FreeLink} {chunk chunk' : FixedChunk}
  {blockSize count index other offset : Nat} {stock stock' : Stock}

theorem Stocked.index_lt (h : chunk.Stocked blockSize count stock) (uses : stock.Uses index) :
    index < count :=
  Nat.lt_of_lt_of_le uses.1 h.bounded

/-- Every block ends in its chunk. -/
theorem Stocked.block_le (h : chunk.Stocked blockSize count stock) (hlt : index < count) :
    blockOffset blockSize (index + 1) ≤ chunk.size :=
  Nat.le_trans (blockOffset_le blockSize hlt) h.room

/-- The blocks in use are those that no stock names. -/
theorem Stock.mem_used : index ∈ stock.used ↔ stock.Uses index := by
  simp [Stock.used, Stock.Uses]

/-- A chunk counts the blocks that its stock does not name. -/
theorem Stocked.card_used (h : chunk.Stocked blockSize count stock) :
    stock.used.card = chunk.inUse := by
  have hsub : stock.linked.toFinset ⊆ Finset.range stock.rest := fun other hmem =>
    Finset.mem_range.2 (h.below other (List.mem_toFinset.1 hmem))
  have hcounted := h.counted
  rw [Stock.used, Finset.card_sdiff_of_subset hsub, Finset.card_range,
    List.toFinset_card_of_nodup h.distinct]
  omega

/-- A chunk holds one stock. -/
theorem Stocked.unique (h : chunk.Stocked blockSize count stock)
    (h' : chunk.Stocked blockSize count stock') : stock = stock' := by
  obtain ⟨hlinked, hmark⟩ := h.chain.unique h'.chain
  have hinjective : Function.Injective (blockOffset blockSize) := fun _ _ heq =>
    blockOffset_injective h.large heq
  obtain ⟨linked, rest⟩ := stock
  obtain ⟨linked', rest'⟩ := stock'
  obtain rfl : linked = linked' := List.map_injective_iff.2 hinjective hlinked
  have hbounded := h.bounded
  have hbounded' := h'.bounded
  simp only [Stock.mark] at hmark hbounded hbounded'
  suffices rest = rest' by rw [this]
  split at hmark <;> split at hmark
  · exact hinjective (Option.some.inj hmark)
  · cases hmark
  · cases hmark
  · omega

/-- A chain whose blocks are other ones than a changed block stays. -/
theorem chain_kept {start : Option Nat} (stock : Stock)
    (h : FreeChain memory start (stock.linked.map (blockOffset blockSize))
      (stock.mark blockSize count))
    (changed : memory.ChangesWithin (blockOffset blockSize index)
      (blockOffset blockSize (index + 1)) memory')
    (large : linkSize ≤ blockSize) (unlinked : index ∉ stock.linked)
    (unmarked : index ≠ stock.rest) :
    FreeChain memory' start (stock.linked.map (blockOffset blockSize))
      (stock.mark blockSize count) := by
  refine h.congr fun place hmem => ?_
  rcases List.mem_append.1 hmem with hlinked | hmark
  · obtain ⟨other, hother, rfl⟩ := List.mem_map.1 hlinked
    exact record?_other changed large fun heq => unlinked (heq ▸ hother)
  · rw [Stock.mark] at hmark
    split at hmark
    · obtain rfl : place = blockOffset blockSize stock.rest := by simpa using hmark
      exact record?_other changed large (Ne.symm unmarked)
    · simp at hmark

/-- The cells of other blocks are outside of a change within one block. -/
theorem cells_kept (changed : memory.ChangesWithin (blockOffset blockSize index)
      (blockOffset blockSize (index + 1)) memory') (hne : other ≠ index)
    (inside : blockOffset blockSize (other + 1) ≤ memory.length) {x : Nat}
    (hle : blockOffset blockSize other ≤ x) (hlt : x < blockOffset blockSize (other + 1)) :
    memory'.cell x = memory.cell x := by
  have hapart := blocks_apart blockSize hne
  exact changed.cells x (by omega) (by omega)

/-! ## Freeing all blocks -/

/-- A chunk whose blocks are all free holds no linked block. -/
theorem stocked_freeAll (length : chunk.memory.length = chunk.size) (large : linkSize ≤ blockSize)
    (positive : 0 < count) (room : blockOffset blockSize count ≤ chunk.size)
    (full : chunk.size < blockOffset blockSize (count + 1)) :
    chunk.freeAll.Stocked blockSize count ⟨[], 0⟩ where
  length := (Memory.length_store ..).trans length
  large := large
  room := room
  full := full
  chain := by
    have hfirst : blockOffset blockSize 0 = headerSize := by simp [blockOffset]
    have hblock := blockOffset_le blockSize positive
    rw [blockOffset_succ, hfirst] at hblock
    rw [Stock.mark, if_pos positive, hfirst]
    refine .mark (Memory.record?_store _ _ (by decide) ?_)
    omega
  distinct := List.nodup_nil
  below := by simp
  bounded := Nat.zero_le _
  counted := rfl

/-! ## Taking a block -/

/-- A chunk after one of its free blocks was taken: the block is in use and holds zeros. -/
structure Takes (index blockSize count : Nat) (chunk : FixedChunk) (stock : Stock)
    (chunk' : FixedChunk) (stock' : Stock) : Prop extends
    Evolves index blockSize count chunk stock chunk' stock' where
  unused : ¬ stock.Uses index
  used : stock'.Uses index
  inUse : chunk'.inUse = chunk.inUse + 1
  zero : ∀ x, blockOffset blockSize index ≤ x → x < blockOffset blockSize (index + 1) →
    chunk'.memory.cell x = .byte 0

/-- Every byte of a block that is taken is zero. -/
theorem cell_fill_block (memory : Memory FreeLink) {x : Nat}
    (inside : blockOffset blockSize (index + 1) ≤ memory.length)
    (hle : blockOffset blockSize index ≤ x) (hlt : x < blockOffset blockSize (index + 1)) :
    (memory.fill (blockOffset blockSize index) blockSize (Run.constant 0)).cell x = .byte 0 := by
  rw [Memory.cell_fill _ _ _ _ (by omega), if_pos ⟨hle, blockOffset_succ blockSize index ▸ hlt⟩,
    Run.cell_constant]

/-- Taking a linked block: the chain goes on behind it. -/
theorem Stocked.take_linked {linked : List Nat} {rest : Nat}
    (h : chunk.Stocked blockSize count ⟨index :: linked, rest⟩) (address : Nat) :
    ∃ chunk', chunk.take address (blockOffset blockSize index) blockSize = .ok chunk' ∧
      Takes index blockSize count chunk ⟨index :: linked, rest⟩ chunk' ⟨linked, rest⟩ := by
  obtain ⟨hnew, hdistinct⟩ := List.nodup_cons.1 h.distinct
  have hbelow : index < rest := h.below index (List.mem_cons_self ..)
  have hblock := h.block_le (Nat.lt_of_lt_of_le hbelow h.bounded)
  have hlength := h.length
  generalize hstart : chunk.free = start
  have hchain := h.chain
  rw [hstart] at hchain
  -- the first block of the chain is linked, so its link names the next one
  cases hchain with
  | link found tail =>
    have hchanged : chunk.memory.ChangesWithin (blockOffset blockSize index)
        (blockOffset blockSize (index + 1)) (chunk.memory.fill _ blockSize (Run.constant 0)) :=
      .fill _ _ _ (Nat.le_of_eq (blockOffset_succ blockSize index).symm)
    refine ⟨_, by simp only [FixedChunk.take, found]; rfl, ?_⟩
    refine ⟨⟨⟨?_, h.large, h.room, h.full, ?_, hdistinct, ?_, h.bounded, ?_⟩, rfl, ?_, ?_⟩,
      ?_, ⟨hbelow, hnew⟩, rfl, ?_⟩
    · exact (Memory.length_fill ..).trans hlength
    · exact chain_kept ⟨linked, rest⟩ tail hchanged h.large hnew (Nat.ne_of_lt hbelow)
    · exact fun other hmem => h.below other (List.mem_cons_of_mem _ hmem)
    · have hcounted := h.counted
      simp only [List.length_cons] at hcounted ⊢
      omega
    · intro other hne
      simp [Stock.Uses, hne]
    · intro other hne huses x hle hlt
      exact cells_kept hchanged hne (hlength ▸ h.block_le (h.index_lt huses)) hle hlt
    · exact fun huses => huses.2 (List.mem_cons_self ..)
    · intro x hle hlt
      exact cell_fill_block _ (hlength ▸ hblock) hle hlt

/-- The first block of the rest is taken, after at most the link of the block behind it was
written. -/
theorem Stocked.takes_rest {rest : Nat} {free : Option Nat}
    (h : chunk.Stocked blockSize count ⟨[], rest⟩) (hrest : rest < count)
    (changed : chunk.memory.ChangesWithin (blockOffset blockSize (rest + 1))
      (blockOffset blockSize (rest + 1 + 1)) memory)
    (chain : FreeChain memory free [] (Stock.mark ⟨[], rest + 1⟩ blockSize count)) :
    Takes rest blockSize count chunk ⟨[], rest⟩
      { chunk with
        free := free
        inUse := chunk.inUse + 1
        memory := memory.fill (blockOffset blockSize rest) blockSize (Run.constant 0) }
      ⟨[], rest + 1⟩ := by
  have hblock := h.block_le hrest
  have hlength : memory.length = chunk.size := changed.length.trans h.length
  have hfilled : memory.ChangesWithin (blockOffset blockSize rest)
      (blockOffset blockSize (rest + 1)) (memory.fill _ blockSize (Run.constant 0)) :=
    .fill _ _ _ (Nat.le_of_eq (blockOffset_succ blockSize rest).symm)
  refine ⟨⟨⟨?_, h.large, h.room, h.full, ?_, List.nodup_nil, by simp, hrest, ?_⟩, rfl, ?_, ?_⟩,
    ?_, ⟨Nat.lt_succ_self rest, by simp⟩, rfl, ?_⟩
  · exact (Memory.length_fill ..).trans hlength
  · exact chain_kept ⟨[], rest + 1⟩ chain hfilled h.large (by simp) (by simp)
  · have hcounted := h.counted
    simp only [List.length_nil] at hcounted ⊢
    omega
  · intro other hne
    simp only [Stock.Uses, List.not_mem_nil, not_false_eq_true, and_true]
    omega
  · -- blocks in use lie in front of both blocks that were written
    intro other hne huses x hle hlt
    have hend := h.block_le (h.index_lt huses)
    rw [cells_kept hfilled hne (by omega) hle hlt]
    exact cells_kept changed (Nat.ne_of_lt (Nat.lt_succ_of_lt huses.1)) (h.length ▸ hend) hle hlt
  · exact fun huses => Nat.lt_irrefl _ huses.1
  · intro x hle hlt
    exact cell_fill_block _ (hlength ▸ hblock) hle hlt

/-- Taking the first block of the rest: the mark goes on to the block behind it. -/
theorem Stocked.take_rest {rest : Nat} (h : chunk.Stocked blockSize count ⟨[], rest⟩)
    (hrest : rest < count) (address : Nat) :
    ∃ chunk', chunk.take address (blockOffset blockSize rest) blockSize = .ok chunk' ∧
      Takes rest blockSize count chunk ⟨[], rest⟩ chunk' ⟨[], rest + 1⟩ := by
  have hlarge := h.large
  have hnext := blockOffset_succ blockSize (rest + 1)
  have hchain := h.chain
  generalize chunk.free = start at hchain
  rw [Stock.mark, if_pos hrest] at hchain
  cases hchain with
  | mark found =>
    rw [FixedChunk.take, found]
    simp only [Bool.true_and, ← blockOffset_succ, if_true, decide_eq_true_eq]
    by_cases hmore : rest + 1 < count
    · have hfits := h.block_le hmore
      have hstored : chunk.memory.ChangesWithin (blockOffset blockSize (rest + 1))
          (blockOffset blockSize (rest + 1 + 1)) (chunk.memory.store _ linkSize ⟨none, true⟩) :=
        .store _ _ _ (by omega)
      rw [if_pos hfits, if_pos hfits]
      refine ⟨_, rfl, h.takes_rest hrest hstored ?_⟩
      rw [Stock.mark, if_pos hmore]
      exact .mark (Memory.record?_store _ _ (by decide) (by rw [h.length]; omega))
    · -- behind the last block there is no room for another one, so there is no mark to write
      have hpast : ¬ blockOffset blockSize (rest + 1 + 1) ≤ chunk.size := by
        have hend := blockOffset_le blockSize (show count + 1 ≤ rest + 1 + 1 by omega)
        have hfull := h.full
        omega
      rw [if_neg hpast, if_neg hpast]
      refine ⟨_, rfl, h.takes_rest hrest ⟨rfl, fun _ _ _ => rfl⟩ ?_⟩
      rw [Stock.mark, if_neg hmore]
      exact .done

/-- Taking the first block of the chain. -/
theorem Stocked.take (h : chunk.Stocked blockSize count stock) (hfree : chunk.free = some offset)
    (address : Nat) :
    ∃ index chunk' stock', offset = blockOffset blockSize index ∧
      chunk.take address offset blockSize = .ok chunk' ∧
      Takes index blockSize count chunk stock chunk' stock' ∧
      stock.free count = index :: stock'.free count := by
  obtain ⟨linked, rest⟩ := stock
  have hchain := h.chain
  rw [hfree] at hchain
  -- blocks that were given back are taken first, then those that were never taken
  cases linked with
  | cons index linked =>
    obtain ⟨chunk', htake, htakes⟩ := h.take_linked address
    obtain rfl : offset = blockOffset blockSize index := by
      cases hchain
      rfl
    exact ⟨index, chunk', _, rfl, htake, htakes, rfl⟩
  | nil =>
    rw [Stock.mark] at hchain
    split at hchain
    · rename_i hrest
      obtain ⟨chunk', htake, htakes⟩ := h.take_rest hrest address
      obtain rfl : offset = blockOffset blockSize rest := by
        cases hchain
        rfl
      refine ⟨rest, chunk', _, rfl, htake, htakes, ?_⟩
      obtain ⟨more, hmore⟩ : ∃ more, count = rest + more + 1 := Nat.exists_eq_add_of_lt hrest
      simp only [Stock.free, List.nil_append]
      rw [show count - rest = more + 1 by omega, show count - (rest + 1) = more by omega,
        List.range'_succ]
    · cases hchain

/-! ## Giving a block back -/

/-- A block that is given back goes in front of the chain. -/
theorem Stocked.give (h : chunk.Stocked blockSize count stock) (uses : stock.Uses index) :
    Evolves index blockSize count chunk stock (chunk.give (blockOffset blockSize index))
        ⟨index :: stock.linked, stock.rest⟩ ∧ 0 < chunk.inUse := by
  have hlarge := h.large
  have hnext := blockOffset_succ blockSize index
  have hblock := h.block_le (h.index_lt uses)
  have hstored : chunk.memory.ChangesWithin (blockOffset blockSize index)
      (blockOffset blockSize (index + 1)) (chunk.memory.store _ linkSize ⟨chunk.free, false⟩) :=
    .store _ _ _ (by omega)
  have hpositive : 0 < chunk.inUse := by
    rw [← h.card_used]
    exact Finset.card_pos.2 ⟨index, Stock.mem_used.2 uses⟩
  refine ⟨⟨⟨?_, h.large, h.room, h.full, ?_, List.nodup_cons.2 ⟨uses.2, h.distinct⟩, ?_, h.bounded,
    ?_⟩, rfl, ?_, ?_⟩, hpositive⟩
  · exact (Memory.length_store ..).trans h.length
  · -- the block that is given back is linked in front of all the others
    refine .link (Memory.record?_store _ _ (by decide) (by rw [h.length]; omega)) ?_
    exact chain_kept stock h.chain hstored h.large uses.2 (Nat.ne_of_lt uses.1)
  · intro other hmem
    rcases List.mem_cons.1 hmem with rfl | hlinked
    · exact uses.1
    · exact h.below other hlinked
  · have hcounted := h.counted
    simp only [FixedChunk.give, List.length_cons]
    omega
  · intro other hne
    simp [Stock.Uses, hne]
  · intro other hne huses x hle hlt
    exact cells_kept hstored hne (h.length ▸ h.block_le (h.index_lt huses)) hle hlt

/-! ## Writing into a block -/

/-- Writing within a block in use changes nothing else. -/
theorem Stocked.write {place : Nat} {content : Stretch FreeLink}
    (h : chunk.Stocked blockSize count stock) (uses : stock.Uses index)
    (fits : place + content.length ≤ blockSize) :
    Evolves index blockSize count chunk stock
      { chunk with memory := chunk.memory.write (blockOffset blockSize index + place) content }
      stock := by
  have hnext := blockOffset_succ blockSize index
  have hwritten : chunk.memory.ChangesWithin (blockOffset blockSize index)
      (blockOffset blockSize (index + 1))
        (chunk.memory.write (blockOffset blockSize index + place) content) :=
    .write _ _ (Nat.le_add_right ..) (by omega)
  refine ⟨⟨?_, h.large, h.room, h.full, ?_, h.distinct, h.below, h.bounded, h.counted⟩, rfl,
    fun _ _ => Iff.rfl, ?_⟩
  · exact (Memory.length_write ..).trans h.length
  · exact chain_kept stock h.chain hwritten h.large uses.2 (Nat.ne_of_lt uses.1)
  · intro other hne huses x hle hlt
    exact cells_kept hwritten hne (h.length ▸ h.block_le (h.index_lt huses)) hle hlt

end FixedChunk

end PagedAlloc
