import PagedAlloc.Proofs.FixedSessions

/-!
# Free blocks of a session

Free blocks are represented in two ways, by links that are written into them one by one and by the
mark of the block from which on all are free. In every reachable session each block of a chunk is
just one of three things: live, linked, or at or behind the mark of its chunk. So the counters of
the chunks and of the list are exact, and blocks are neither lost nor handed out twice
(`FixedList.Session.Reachable.free_partition`).
-/

namespace PagedAlloc.FixedList

variable {paging : Size.Paging}

open FixedChunk

/-- The block at an address is free: it is linked in the chain of its chunk, or is at or behind the
block that is marked there. -/
def IsFree (list : FixedList) (address : Nat) : Prop :=
  ∃ start chunk linked rest index, (start, chunk) ∈ list.chunks.toList ∧
    FreeChain chunk.memory chunk.free linked rest ∧ index < list.blocksPerChunk ∧
    address = start + blockOffset list.blockSize index ∧
    (blockOffset list.blockSize index ∈ linked ∨
      ∃ mark ∈ rest, mark ≤ blockOffset list.blockSize index)

/-- A chunk is divided by its free chain: the chain runs over different blocks of the chunk, each
block is live, linked or at or behind the mark, and the live ones are counted. -/
structure Session.Divided (session : Session) (start : Nat) (chunk : FixedChunk)
    (linked : List Nat) (rest : Option Nat) : Prop where
  chain : FreeChain chunk.memory chunk.free linked rest
  distinct : (linked ++ rest.toList).Nodup
  starts : ∀ offset ∈ linked ++ rest.toList, ∃ index < session.list.blocksPerChunk,
    offset = blockOffset session.list.blockSize index
  exactlyOne : ∀ index < session.list.blocksPerChunk,
    let offset := blockOffset session.list.blockSize index
    let isLive := start + offset ∈ session.live
    let isLinked := offset ∈ linked
    let isRest := ∃ mark ∈ rest, mark ≤ offset
    (isLive ∨ isLinked ∨ isRest) ∧ ¬ (isLive ∧ isLinked) ∧ ¬ (isLive ∧ isRest) ∧
      ¬ (isLinked ∧ isRest)
  inUse : chunk.inUse = (List.range session.list.blocksPerChunk).countP fun index =>
    start + blockOffset session.list.blockSize index ∈ session.live

/-- Every block of a list is live or free, and the counters say how many are live. -/
structure Session.Partition (session : Session) : Prop where
  chunks : ∀ start chunk, (start, chunk) ∈ session.list.chunks.toList →
    ∃ linked rest, session.Divided start chunk linked rest
  live : ∀ address ∈ session.live, ∃ start chunk index, (start, chunk) ∈ session.list.chunks.toList ∧
    index < session.list.blocksPerChunk ∧
      address = start + blockOffset session.list.blockSize index
  inUse : session.list.inUse = (session.list.chunks.toList.map fun entry => entry.2.inUse).sum
  free : ∃ free : List Nat, free.Nodup ∧ (∀ address, address ∈ free ↔ session.list.IsFree address) ∧
    session.list.inUse + free.length =
      session.list.chunks.length * session.list.blocksPerChunk

variable {session : Session} {start index : Nat} {chunk : FixedChunk} {stock : Stock}
  {blockSize count : Nat}

/-! ## Stocks and chains -/

theorem mem_mark_iff {offset : Nat} :
    offset ∈ stock.mark blockSize count ↔
      stock.rest < count ∧ offset = blockOffset blockSize stock.rest := by
  rw [Stock.mark]
  split
  · rename_i hmore
    simp [hmore, eq_comm]
  · rename_i hnone
    simp [hnone]

theorem mem_linked_iff (large : linkSize ≤ blockSize) :
    blockOffset blockSize index ∈ stock.linked.map (blockOffset blockSize) ↔
      index ∈ stock.linked := by
  constructor
  · intro hmem
    obtain ⟨other, hother, heq⟩ := List.mem_map.1 hmem
    exact blockOffset_injective large heq ▸ hother
  · exact List.mem_map_of_mem

/-- The blocks at or behind the mark are those of the rest. -/
theorem mark_le_iff (large : linkSize ≤ blockSize) (hlt : index < count) :
    (∃ mark ∈ stock.mark blockSize count, mark ≤ blockOffset blockSize index) ↔
      stock.rest ≤ index := by
  constructor
  · rintro ⟨mark, hmark, hle⟩
    obtain ⟨-, rfl⟩ := mem_mark_iff.1 hmark
    by_contra hbefore
    have hnext := blockOffset_le blockSize (Nat.lt_of_not_le hbefore)
    rw [blockOffset_succ] at hnext
    rw [linkSize] at large
    omega
  · intro hle
    exact ⟨_, mem_mark_iff.2 ⟨Nat.lt_of_le_of_lt hle hlt, rfl⟩, blockOffset_le blockSize hle⟩

/-- A block is free just if its stock names it. -/
theorem named_iff (large : linkSize ≤ blockSize) (hlt : index < count) :
    (blockOffset blockSize index ∈ stock.linked.map (blockOffset blockSize) ∨
        ∃ mark ∈ stock.mark blockSize count, mark ≤ blockOffset blockSize index) ↔
      ¬ stock.Uses index := by
  rw [mem_linked_iff large, mark_le_iff large hlt, Stock.Uses, not_and_or, Nat.not_lt,
    Decidable.not_not, or_comm]

/-- The live addresses are those of the blocks that no stock names. -/
theorem Session.Sound.live_iff (h : session.Sound)
    (hmem : (start, chunk) ∈ session.list.chunks.toList)
    (stocked : chunk.Stocked session.list.blockSize session.list.blocksPerChunk stock)
    (hlt : index < session.list.blocksPerChunk) :
    start + blockOffset session.list.blockSize index ∈ session.live ↔ stock.Uses index :=
  (h.live _).trans (h.list.uses_iff hmem stocked hlt)

/-- The stock of a chunk divides it. -/
theorem Session.Sound.divided (h : session.Sound)
    (hmem : (start, chunk) ∈ session.list.chunks.toList)
    (stocked : chunk.Stocked session.list.blockSize session.list.blocksPerChunk stock) :
    session.Divided start chunk (stock.linked.map (blockOffset session.list.blockSize))
      (stock.mark session.list.blockSize session.list.blocksPerChunk) := by
  have hlarge := h.list.large
  refine ⟨stocked.chain, ?_, ?_, ?_, ?_⟩
  · refine List.nodup_append.2
      ⟨stocked.distinct.map fun _ _ => blockOffset_injective hlarge, ?_, ?_⟩
    · rw [Stock.mark]
      split <;> simp
    · rintro _ hlinked _ hmark rfl
      obtain ⟨-, heq⟩ := mem_mark_iff.1 (Option.mem_toList.1 hmark)
      obtain ⟨index, hindex, hsame⟩ := List.mem_map.1 hlinked
      have hbelow := stocked.below index hindex
      rw [blockOffset_injective hlarge (hsame.trans heq)] at hbelow
      exact Nat.lt_irrefl _ hbelow
  · intro offset hoffset
    rcases List.mem_append.1 hoffset with hlinked | hmark
    · obtain ⟨index, hindex, rfl⟩ := List.mem_map.1 hlinked
      exact ⟨index, Nat.lt_of_lt_of_le (stocked.below index hindex) stocked.bounded, rfl⟩
    · obtain ⟨hmore, rfl⟩ := mem_mark_iff.1 (Option.mem_toList.1 hmark)
      exact ⟨stock.rest, hmore, rfl⟩
  · intro index hlt
    have hbelow := stocked.below index
    simp only [h.live_iff hmem stocked hlt, mem_linked_iff hlarge, mark_le_iff hlarge hlt,
      Stock.Uses]
    by_cases hlinked : index ∈ stock.linked
    · have hin := hbelow hlinked
      simp [hlinked, Nat.not_le.2 hin]
    · simp only [hlinked, not_false_eq_true, and_true, false_and, and_false, false_or]
      exact ⟨Nat.lt_or_ge .., trivial, fun hboth => Nat.not_lt.2 hboth.2 hboth.1⟩
  · -- the live addresses and the used blocks of the chunk are counted by the same indices
    rw [← stocked.card_used, List.countP_eq_length_filter,
      ← List.toFinset_card_of_nodup (List.nodup_range.filter _)]
    congr 1
    ext index
    rw [Stock.mem_used]
    simp only [List.mem_toFinset, List.mem_filter, List.mem_range, decide_eq_true_eq]
    constructor
    · intro huses
      have hlt := stocked.index_lt huses
      exact ⟨hlt, (h.live_iff hmem stocked hlt).2 huses⟩
    · rintro ⟨hlt, hlive⟩
      exact (h.live_iff hmem stocked hlt).1 hlive

/-! ## Counting free blocks -/

/-- The blocks of a chunk that are not live. -/
def Session.unusedAt (session : Session) (start : Nat) : List Nat :=
  ((List.range session.list.blocksPerChunk).filter fun index =>
    start + blockOffset session.list.blockSize index ∉ session.live).map fun index =>
      start + blockOffset session.list.blockSize index

/-- The unused blocks of a chunk are those whose address is not live. -/
theorem Session.mem_unusedAt {address : Nat} :
    address ∈ session.unusedAt start ↔ ∃ index < session.list.blocksPerChunk,
      address = start + blockOffset session.list.blockSize index ∧ address ∉ session.live := by
  simp only [unusedAt, List.mem_map, List.mem_filter, List.mem_range, decide_eq_true_eq]
  constructor
  · rintro ⟨index, ⟨hlt, hnot⟩, rfl⟩
    exact ⟨index, hlt, rfl, hnot⟩
  · rintro ⟨index, hlt, rfl, hnot⟩
    exact ⟨index, ⟨hlt, hnot⟩, rfl⟩

/-- The blocks of a chunk that are not live are those that its chain names. -/
theorem Session.Sound.isFree_iff (h : session.Sound) {address : Nat} :
    session.list.IsFree address ↔
      ∃ entry ∈ session.list.chunks.toList, address ∈ session.unusedAt entry.1 := by
  have hlarge := h.list.large
  constructor
  · rintro ⟨start, chunk, linked, rest, index, hmem, hchain, hlt, rfl, hnamed⟩
    obtain ⟨stock, stocked⟩ := (h.list.laid _ _ hmem).stocked
    obtain ⟨rfl, rfl⟩ := hchain.unique stocked.chain
    refine ⟨_, hmem, mem_unusedAt.2 ⟨index, hlt, rfl, fun hlive => ?_⟩⟩
    exact (named_iff hlarge hlt).1 hnamed ((h.live_iff hmem stocked hlt).1 hlive)
  · rintro ⟨⟨start, chunk⟩, hmem, hunused⟩
    obtain ⟨index, hlt, rfl, hnot⟩ := mem_unusedAt.1 hunused
    obtain ⟨stock, stocked⟩ := (h.list.laid _ _ hmem).stocked
    refine ⟨start, chunk, _, _, index, hmem, stocked.chain, hlt, rfl, (named_iff hlarge hlt).2 ?_⟩
    exact fun huses => hnot ((h.live_iff hmem stocked hlt).2 huses)

/-- Different chunks have no block in common. -/
theorem Session.Sound.nodup_unused (h : session.Sound) :
    (session.list.chunks.toList.flatMap fun entry => session.unusedAt entry.1).Nodup := by
  refine List.nodup_flatMap.2 ⟨fun entry _ => ?_, ?_⟩
  · refine (List.nodup_range.filter _).map fun _ _ heq => ?_
    exact blockOffset_injective h.list.large (Nat.add_left_cancel heq)
  · refine (List.pairwise_map.1 h.list.sequence.distinct).imp_of_mem ?_
    intro p q hp hq hne address hinp hinq
    obtain ⟨index, hlt, rfl, -⟩ := mem_unusedAt.1 hinp
    obtain ⟨other, hlt', heq, -⟩ := mem_unusedAt.1 hinq
    have hfound := h.list.chunkOf?_eq hp hlt
    rw [heq, h.list.chunkOf?_eq hq hlt'] at hfound
    exact hne (congrArg Prod.fst (Option.some.inj hfound)).symm

/-- Blocks in use and unused ones make up all blocks. -/
theorem Session.Sound.length_unused (h : session.Sound) :
    session.list.inUse +
        (session.list.chunks.toList.flatMap fun entry => session.unusedAt entry.1).length =
      session.list.chunks.length * session.list.blocksPerChunk := by
  have hchunk : ∀ entry ∈ session.list.chunks.toList,
      entry.2.inUse + (session.unusedAt entry.1).length = session.list.blocksPerChunk := by
    rintro ⟨start, chunk⟩ hmem
    obtain ⟨stock, stocked⟩ := (h.list.laid _ _ hmem).stocked
    have hsplit := List.length_eq_countP_add_countP (l := List.range session.list.blocksPerChunk)
      fun index => decide (start + blockOffset session.list.blockSize index ∈ session.live)
    rw [List.length_range] at hsplit
    rw [(h.divided hmem stocked).inUse, unusedAt, List.length_map, ← List.countP_eq_length_filter]
    simpa using hsplit.symm
  rw [h.list.counted, List.length_flatMap, ← List.sum_map_add, List.map_congr_left hchunk,
    List.map_const', List.sum_replicate_nat, h.list.sequence.length]

/-! ## Every block is live or free -/

/-- Every sound session divides its blocks. -/
theorem Session.Sound.partition (h : session.Sound) : session.Partition where
  chunks start chunk hmem := by
    obtain ⟨stock, stocked⟩ := (h.list.laid _ _ hmem).stocked
    exact ⟨_, _, h.divided hmem stocked⟩
  live address hlive := by
    obtain ⟨start, chunk, stock, index, hmem, stocked, huses, rfl⟩ := (h.live address).1 hlive
    exact ⟨start, chunk, index, hmem, stocked.index_lt huses, rfl⟩
  inUse := h.list.counted
  free := by
    refine ⟨_, h.nodup_unused, fun address => ?_, h.length_unused⟩
    rw [List.mem_flatMap, h.isFree_iff]

/-- In every reachable session the free chains and the live addresses divide the blocks of the list
among each other. -/
theorem Session.Reachable.free_partition (h : session.Reachable) : session.Partition :=
  h.sound.partition

end PagedAlloc.FixedList

namespace PagedAlloc.FixedList

open FixedChunk

attribute [local instance] Size.Paging.common

theorem free_partition_after_free :
    ∃ session, Session.start ⟨24, 200, true⟩ .ordinary .fresh = .ok session ∧
      let after := ((session.after .ordinary (.allocate 24)).after .ordinary (.allocate 8)).after
        .ordinary (.free 65584)
      after.live = [65608] ∧ after.Partition := by
  have hstart : Session.start ⟨24, 200, true⟩ .ordinary .fresh = .ok _ := rfl
  refine ⟨_, hstart, by decide +kernel, ?_⟩
  have first := (Session.Reachable.of_start hstart).step .ordinary (.allocate 24) trivial
  have second := first.step .ordinary (.allocate 8) trivial
  have third := second.step .ordinary (.free 65584) (show 65584 ∈ _ by decide +kernel)
  exact third.free_partition

end PagedAlloc.FixedList
