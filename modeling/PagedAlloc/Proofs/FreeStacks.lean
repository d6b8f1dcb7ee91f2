import PagedAlloc.Proofs.FixedSessions
import PagedAlloc.Proofs.Mirrors

/-!
# Free blocks on stacks

A fixed list does not link the blocks that were never used: a mark says that all blocks from one on
are free, and moves on as they are taken. A stack list does without it. Each of its chunks has a stack
of the offsets of all its free blocks, which holds every block in ascending order when the chunk is
chained or cleared. A block is taken from the first stack that is not empty, and is given back to the
top of the stack of its chunk.

Unfolding the free chains of a fixed list gives a stack list (`FixedList.unfolded`). Every operation
of the fixed list is mirrored by the one on stacks (`Procedure.Mirrored`), so that in all runs both
answer the same and go on in step (`FixedList.unfolded_agrees`).
-/

namespace PagedAlloc

variable {paging : Size.Paging}

/-! ## Unfolding a chain -/

namespace FixedChunk

/-- The offsets of all blocks of a chunk, in ascending order. -/
def offsets (blockSize count : Nat) : List Nat := (List.range count).map (blockOffset blockSize)

/-- The offsets of the free blocks from a link on, over at most `bound` links. The mark stands for
its block and all behind it. -/
def follow (memory : Memory FreeLink) (blockSize count : Nat) : (bound : Nat) → Option Nat → List Nat
  | 0, _ => []
  | _, none => []
  | bound + 1, some offset =>
    match memory.record? offset linkSize with
    | none => []
    | some link =>
      if link.restFree then (offsets blockSize count).filter (offset ≤ ·)
      else offset :: follow memory blockSize count bound link.next

/-- The offsets of the free blocks of a chunk, beginning with the one that is taken first. -/
def stack (chunk : FixedChunk) (blockSize count : Nat) : List Nat :=
  follow chunk.memory blockSize count (count + 1) chunk.free

variable {memory : Memory FreeLink} {chunk chunk' : FixedChunk} {stock stock' : Stock}
  {blockSize count index bound offset : Nat} {start rest : Option Nat} {linked : List Nat}

theorem follow_none (bound : Nat) : follow memory blockSize count bound none = [] := by
  cases bound <;> rfl

/-- A chain unfolds to its links and all blocks from its mark on. -/
theorem follow_eq (h : FreeChain memory start linked rest) (enough : linked.length < bound) :
    follow memory blockSize count bound start =
      linked ++ rest.toList.flatMap fun offset => (offsets blockSize count).filter (offset ≤ ·) := by
  induction h generalizing bound with
  | done => exact follow_none bound
  | mark found =>
    obtain ⟨more, rfl⟩ := Nat.exists_eq_succ_of_ne_zero (Nat.ne_zero_of_lt enough)
    simp [follow, found]
  | link found tail ih =>
    obtain ⟨more, rfl⟩ := Nat.exists_eq_succ_of_ne_zero (Nat.ne_zero_of_lt enough)
    rw [follow, found]
    simp only [Bool.false_eq_true, if_false, List.cons_append]
    rw [ih (Nat.lt_of_succ_lt_succ enough)]

/-- The blocks that do not lie in front of a block are those from its number on. -/
theorem filter_offsets (large : linkSize ≤ blockSize) (hlt : index < count) :
    (offsets blockSize count).filter (blockOffset blockSize index ≤ ·) =
      (List.range' index (count - index)).map (blockOffset blockSize) := by
  -- blocks are ordered by their indices, since each takes at least the bytes of a link
  have hordered : ∀ other, blockOffset blockSize index ≤ blockOffset blockSize other ↔
      index ≤ other := by
    intro other
    refine ⟨fun hle => Nat.le_of_not_lt fun hless => ?_, blockOffset_le blockSize⟩
    have hnext := blockOffset_le blockSize (Nat.succ_le_of_lt hless)
    rw [blockOffset_succ] at hnext
    simp only [linkSize] at large
    omega
  have hsplit : List.range count = List.range index ++ List.range' index (count - index) := by
    have happend := List.range'_append_1 (s := 0) (m := index) (n := count - index)
    rw [Nat.zero_add, Nat.add_sub_cancel' (Nat.le_of_lt hlt)] at happend
    rw [List.range_eq_range', List.range_eq_range', happend]
  rw [offsets, hsplit, List.map_append, List.filter_append, List.filter_eq_nil_iff.2,
    List.filter_eq_self.2, List.nil_append]
  · intro place hmem
    obtain ⟨other, hother, rfl⟩ := List.mem_map.1 hmem
    exact decide_eq_true ((hordered other).2 (List.mem_range'_1.1 hother).1)
  · intro place hmem
    obtain ⟨other, hother, rfl⟩ := List.mem_map.1 hmem
    have hless := List.mem_range.1 hother
    simp only [decide_eq_true_eq, hordered]
    omega

/-- The stack of a chunk holds what its stock names. -/
theorem Stocked.stack_eq (h : chunk.Stocked blockSize count stock) :
    chunk.stack blockSize count = (stock.free count).map (blockOffset blockSize) := by
  have hbounded := h.bounded
  have hcounted := h.counted
  rw [stack, follow_eq h.chain (by rw [List.length_map]; omega), Stock.free, List.map_append,
    Stock.mark]
  congr 1
  split
  · rename_i hlt
    rw [Option.toList_some, List.flatMap_singleton, filter_offsets h.large hlt]
  · rename_i hge
    rw [Nat.sub_eq_zero_of_le (Nat.le_of_not_lt hge)]
    rfl

/-- The chunk counts the blocks that are not on its stack. -/
theorem Stocked.inUse_eq (h : chunk.Stocked blockSize count stock) :
    chunk.inUse = count - (chunk.stack blockSize count).length := by
  have hbounded := h.bounded
  have hcounted := h.counted
  rw [h.stack_eq, List.length_map, Stock.free, List.length_append, List.length_range']
  omega

/-- A fresh chunk unfolds to the stack of all its blocks. -/
theorem Stocked.stack_fresh (h : chunk.Stocked blockSize count ⟨[], 0⟩) :
    chunk.stack blockSize count = offsets blockSize count := by
  rw [h.stack_eq, Stock.free, List.nil_append, Nat.sub_zero, ← List.range_eq_range', offsets]

end FixedChunk

/-! ## Stack lists -/

/-- A list of fixed blocks that keeps its free ones on stacks. -/
structure StackList where
  /-- The addresses of the chunks, each with the offsets of its free blocks, the top one first. -/
  chunks : List (Nat × List Nat)
  /-- Bytes of a block. -/
  blockSize : Nat
  /-- Bytes of a chunk. -/
  chunkSize : Nat
  /-- Blocks of a chunk. -/
  blocksPerChunk : Nat
  /-- Whether another chunk is chained when all blocks are in use. -/
  mayExtend : Bool
  deriving DecidableEq, Repr

namespace StackList

open Procedure

/-- The stack of a chunk whose blocks are all free. -/
def full (list : StackList) : List Nat := FixedChunk.offsets list.blockSize list.blocksPerChunk

/-- Number of blocks that are on no stack. -/
def inUse (list : StackList) : Nat :=
  (list.chunks.map fun entry => list.blocksPerChunk - entry.2.length).sum

/-- The address of the block on top of the first stack that has one, and the stacks without it. -/
def pop : List (Nat × List Nat) → Option (Nat × List (Nat × List Nat))
  | [] => none
  | (start, []) :: rest => (pop rest).map fun (address, left) => (address, (start, []) :: left)
  | (start, offset :: stack) :: rest => some (start + offset, (start, stack) :: rest)

/-- Chains another chunk. -/
def extend [Size.Paging] : Procedure (Machine × StackList) Unit := do
  let list ← own
  let address ← orFail (.outOfMemory list.chunkSize) (← ask (Pages.map list.chunkSize))
  modifyOwn fun list => { list with chunks := list.chunks ++ [(address, list.full)] }
  note (.fixedChained (← own).chunks.length address list.blocksPerChunk list.blockSize)

/-- Takes the block on top of the first stack that has one, and gives its address. -/
def take : Procedure (Machine × StackList) Nat := do
  let list ← own
  match pop list.chunks with
  | some (address, chunks) =>
    modifyOwn fun list => { list with chunks := chunks }
    note (.fixedTaken address)
    return address
  | none =>
    note (.fixedExhausted list.inUse list.blockSize)
    fail .exhausted

/-- Hands out the address of a block for `size` bytes. -/
def allocate [Size.Paging] (size : Nat) : Procedure (Machine × StackList) Nat := do
  let list ← own
  if list.blockSize < size then
    fail (.blockTooLarge size list.blockSize)
  else if pop list.chunks = none ∧ list.mayExtend = true then
    extend
    take
  else
    take

/-- Gives a block back to the chunk that it lies in. -/
def free (address : Nat) : Procedure (Machine × StackList) Unit := do
  let list ← own
  match list.chunks.find? fun (start, _) =>
    start + FixedChunk.headerSize ≤ address &&
      address < start + FixedChunk.headerSize + list.blocksPerChunk * list.blockSize with
  | none => crash (.foreignBlock address)
  | some (owner, _) =>
    modifyOwn fun list => { list with chunks := list.chunks.map fun (start, stack) =>
      (start, if start = owner then (address - owner) :: stack else stack) }
    note (.fixedReturned address)

/-- Makes every block free. -/
def clear : Procedure (Machine × StackList) Unit :=
  modifyOwn fun list => { list with chunks := list.chunks.map fun (start, _) => (start, list.full) }

/-- Makes a list with one chunk. -/
def ofConfig [Size.Paging] (config : FixedConfig) : Procedure Machine StackList :=
  match FixedList.plan config with
  | .error failure => fail failure
  | .ok list =>
    making ⟨[], list.blockSize, list.chunkSize, list.blocksPerChunk, list.mayExtend⟩ extend

/-- Nothing is popped where all stacks are empty. -/
theorem pop_eq_none {chunks : List (Nat × List Nat)} (empty : ∀ entry ∈ chunks, entry.2 = []) :
    pop chunks = none := by
  induction chunks with
  | nil => rfl
  | cons entry rest ih =>
    obtain ⟨start, stack⟩ := entry
    obtain rfl : stack = [] := empty _ (List.mem_cons_self ..)
    rw [pop, ih fun other hother => empty other (List.mem_cons_of_mem _ hother)]
    rfl

/-- The block that is taken is on top of the first stack behind empty ones. -/
theorem pop_append {front : List (Nat × List Nat)} (empty : ∀ entry ∈ front, entry.2 = [])
    (start offset : Nat) (stack : List Nat) (back : List (Nat × List Nat)) :
    pop (front ++ (start, offset :: stack) :: back) =
      some (start + offset, front ++ (start, stack) :: back) := by
  induction front with
  | nil => rfl
  | cons entry rest ih =>
    obtain ⟨place, other⟩ := entry
    obtain rfl : other = [] := empty _ (List.mem_cons_self ..)
    rw [List.cons_append, pop, ih fun entry hentry => empty entry (List.mem_cons_of_mem _ hentry)]
    rfl

end StackList

namespace FixedList

open FixedChunk Procedure

/-- The address of a chunk of fixed blocks, with its stack. -/
def unfoldedChunk (blockSize count : Nat) (entry : Nat × FixedChunk) : Nat × List Nat :=
  (entry.1, entry.2.stack blockSize count)

/-- The stack list that a fixed list stands for. -/
def unfolded (list : FixedList) : StackList where
  chunks := list.chunks.toList.map (unfoldedChunk list.blockSize list.blocksPerChunk)
  blockSize := list.blockSize
  chunkSize := list.chunkSize
  blocksPerChunk := list.blocksPerChunk
  mayExtend := list.mayExtend

/-- What a call does on stacks. Writing into a block does not reach them. -/
def Call.onStacks [Size.Paging] : Call → Procedure (Machine × StackList) (Option Nat)
  | allocate size => some <$> StackList.allocate size
  | free address => (fun _ => none) <$> StackList.free address
  | clear => (fun _ => none) <$> StackList.clear
  | write .. => (fun _ => none) <$> (pure () : Procedure (Machine × StackList) Unit)

variable {environment : Environment} {machine machine' : Machine} {list after : FixedList}
  {start address offset index : Nat} {chunk chunk' : FixedChunk} {stock stock' : Stock}
  {front back : List (Nat × FixedChunk)}

/-! ## Operations on stacks -/

/-- Stacks after one chunk was replaced. -/
theorem Sound.unfolded_changed (h : Sound machine list)
    (hlist : list.chunks.toList = front ++ (start, chunk) :: back) (chunk' : FixedChunk)
    (inUse : Nat) :
    (list.changed start chunk' inUse).unfolded =
      { list.unfolded with
        chunks := front.map (unfoldedChunk list.blockSize list.blocksPerChunk) ++
          (start, chunk'.stack list.blockSize list.blocksPerChunk) ::
            back.map (unfoldedChunk list.blockSize list.blocksPerChunk) } := by
  have hput := h.sequence.toList_put start chunk'
  have hdistinct := h.sequence.distinct
  rw [hlist] at hput hdistinct
  rw [Chain.replaced_middle hdistinct] at hput
  simp only [unfolded, changed, hput, List.map_append, List.map_cons]
  rfl

/-- Unfolding a list unfolds each chunk at its place. -/
theorem unfolded_chunks (hlist : list.chunks.toList = front ++ (start, chunk) :: back) :
    list.unfolded.chunks = front.map (unfoldedChunk list.blockSize list.blocksPerChunk) ++
      (start, chunk.stack list.blockSize list.blocksPerChunk) ::
        back.map (unfoldedChunk list.blockSize list.blocksPerChunk) := by
  rw [unfolded, hlist, List.map_append, List.map_cons]
  rfl

/-- A chunk without a first free block has an empty stack. -/
theorem stack_of_idle {entry : Nat × FixedChunk} {blockSize count : Nat}
    (idle : entry.2.free = none) : (unfoldedChunk blockSize count entry).2 = [] := by
  rw [unfoldedChunk, stack, idle, follow_none]

/-- The list counts the blocks that are on no stack. -/
theorem Sound.inUse_unfolded (h : Sound machine list) : list.unfolded.inUse = list.inUse := by
  rw [h.counted, StackList.inUse, unfolded, List.map_map]
  congr 1
  refine List.map_congr_left fun entry hentry => ?_
  obtain ⟨stock, stocked⟩ := (h.laid entry.1 entry.2 hentry).stocked
  exact stocked.inUse_eq.symm

/-- The chunk in which a free block is found is the first one whose stack is not empty. -/
theorem available?_split (list : FixedList) :
    list.available? = none ∧ (∀ entry ∈ list.unfolded.chunks, entry.2 = []) ∨
      ∃ front start chunk back offset, list.available? = some (start, offset) ∧
        list.chunks.toList = front ++ (start, chunk) :: back ∧ chunk.free = some offset ∧
        ∀ entry ∈ front.map (unfoldedChunk list.blockSize list.blocksPerChunk), entry.2 = [] := by
  cases hfound : list.available? with
  | none =>
    refine Or.inl ⟨rfl, fun entry hentry => ?_⟩
    obtain ⟨old, hold, rfl⟩ := List.mem_map.1 hentry
    exact stack_of_idle (Option.map_eq_none_iff.1 (List.findSome?_eq_none_iff.1 hfound old hold))
  | some found =>
    obtain ⟨front, ⟨start, chunk⟩, back, hlist, hmap, hnone⟩ :=
      List.findSome?_eq_some_iff.1 hfound
    obtain ⟨offset, hfree, rfl⟩ := Option.map_eq_some_iff.1 hmap
    refine Or.inr ⟨front, start, chunk, back, offset, rfl, hlist, hfree, fun entry hentry => ?_⟩
    obtain ⟨old, hold, rfl⟩ := List.mem_map.1 hentry
    exact stack_of_idle (Option.map_eq_none_iff.1 (hnone old hold))

section Taking

variable (h : Sound machine list) (hlist : list.chunks.toList = front ++ (start, chunk) :: back)
  (hfree : chunk.free = some offset)
  (empty : ∀ entry ∈ front.map (unfoldedChunk list.blockSize list.blocksPerChunk), entry.2 = [])

include h hlist hfree empty

/-- The first free block of a chunk behind chunks without any is the one that is popped. -/
theorem Sound.pop_unfolded :
    ∃ chunk', chunk.take start offset list.blockSize = .ok chunk' ∧
      StackList.pop list.unfolded.chunks =
        some (start + offset, (list.changed start chunk' (list.inUse + 1)).unfolded.chunks) := by
  have hmem : (start, chunk) ∈ list.chunks.toList := hlist ▸ List.mem_append_cons_self
  obtain ⟨stock, stocked⟩ := (h.laid _ _ hmem).stocked
  obtain ⟨index, chunk', stock', rfl, htake, htakes, hstock⟩ := stocked.take hfree start
  refine ⟨chunk', htake, ?_⟩
  rw [unfolded_chunks hlist, h.unfolded_changed hlist, stocked.stack_eq, htakes.stocked.stack_eq,
    hstock]
  exact StackList.pop_append empty ..

/-- Both lists take that block. -/
theorem Sound.take_unfolded :
    Mirrored unfolded environment machine list
      (do
        let address ← FixedList.take start offset
        note (.fixedTaken address)
        return address) StackList.take := by
  have hmem : (start, chunk) ∈ list.chunks.toList := hlist ▸ List.mem_append_cons_self
  obtain ⟨chunk', htake, hpop⟩ := h.pop_unfolded hlist hfree empty
  refine ⟨.ok (start + offset), { machine with log := .fixedTaken (start + offset) :: machine.log },
    list.changed start chunk' (list.inUse + 1), ?_, ?_⟩
  · rw [bind_apply_ok _ _ (take_apply (h.get?_eq hmem) htake _ _),
      bind_apply_ok _ _ (note_apply ..)]
    rfl
  · rw [StackList.take, bind_apply_ok _ _ (own_apply ..)]
    simp only [hpop]
    rw [bind_apply_ok _ _ (modifyOwn_apply ..), bind_apply_ok _ _ (note_apply ..)]
    rfl

end Taking

/-- Both lists chain a chunk that is all free behind the others, or neither does. -/
theorem Sound.extend_unfolded (h : Sound machine list) (environment : Environment) :
    (∃ reason machine', FixedList.extend environment (machine, list) =
        (.error reason, machine', list) ∧
      StackList.extend environment (machine, list.unfolded) =
        (.error reason, machine', list.unfolded)) ∨
    ∃ start chunk machine' after, FixedList.extend environment (machine, list) =
        (.ok start, machine', after) ∧
      StackList.extend environment (machine, list.unfolded) = (.ok (), machine', after.unfolded) ∧
      Sound machine' after ∧ after.chunks.toList = list.chunks.toList ++ [(start, chunk)] ∧
      chunk.free = some headerSize ∧ after.blockSize = list.blockSize ∧
      after.blocksPerChunk = list.blocksPerChunk := by
  obtain ⟨result, middle, hmap, hcases⟩ := extend_cases h.whole environment machine
  have hmap' : Pages.map list.unfolded.chunkSize environment machine = (.ok result, middle) := hmap
  rw [StackList.extend, bind_apply_ok _ _ (own_apply ..), bind_apply_ok _ _ (ask_apply _ hmap' _)]
  rcases hcases with ⟨rfl, -, hrun⟩ | ⟨start, rfl, hgranted, hrun⟩
  · rw [bind_apply_error _ _ (orFail_none ..)]
    exact Or.inl ⟨_, _, hrun, rfl⟩
  have stocked : list.fresh.Stocked list.blockSize list.blocksPerChunk ⟨[], 0⟩ :=
    stocked_freeAll rfl h.large h.positive h.room h.full
  obtain ⟨hsound, -, -⟩ := h.append hgranted rfl rfl stocked
  have hlist : (list.chunks.append start list.fresh).toList =
      list.chunks.toList ++ [(start, list.fresh)] :=
    (h.sequence.append (h.absent hgranted) _).toList_eq
  refine Or.inr ⟨start, list.fresh, _, _, hrun, ?_, hsound.of_log _, hlist, rfl, rfl, rfl⟩
  have hchunks : ({ list with chunks := list.chunks.append start list.fresh } : FixedList).unfolded =
      { list.unfolded with chunks := list.unfolded.chunks ++ [(start, list.unfolded.full)] } := by
    simp only [unfolded, hlist, List.map_append, List.map_singleton, unfoldedChunk]
    rw [show list.fresh.stack _ _ = _ from stocked.stack_fresh]
    rfl
  -- the event counts the chunks, of which both have as many
  have hlength : (list.unfolded.chunks ++ [(start, list.unfolded.full)]).length =
      list.chunks.length + 1 := by
    rw [List.length_append, unfolded, List.length_map, h.sequence.length]
    rfl
  rw [bind_apply_ok _ _ (orFail_some ..), bind_apply_ok _ _ (modifyOwn_apply ..),
    bind_apply_ok _ _ (own_apply ..), note_apply, hchunks]
  simp only [hlength]
  rfl

/-- A block comes from the same place. -/
theorem Sound.allocate_unfolded (h : Sound machine list) (size : Nat) :
    Mirrored unfolded environment machine list (FixedList.allocate size)
      (StackList.allocate size) := by
  by_cases hlarge : list.blockSize < size
  · refine (Mirrored.of_stop environment machine list
      (.failure (.blockTooLarge size list.blockSize))).of_eq ?_ ?_
    · rw [FixedList.allocate, bind_apply_ok _ _ (own_apply ..), if_pos hlarge]
      rfl
    · rw [StackList.allocate, bind_apply_ok _ _ (own_apply ..),
        if_pos (show list.unfolded.blockSize < size from hlarge)]
      rfl
  have hsmall : ¬ list.unfolded.blockSize < size := hlarge
  rcases available?_split list with ⟨hnone, hempty⟩ | ⟨front, start, chunk, back, offset, hsome,
    hlist, hfree, hempty⟩
  · have hpop := StackList.pop_eq_none hempty
    by_cases hmore : list.mayExtend = true
    · rcases h.extend_unfolded environment with ⟨reason, middle, hrun, hmirror⟩ |
        ⟨start, chunk, middle, between, hrun, hmirror, hsound, hlist, hfree, hblock, hcount⟩
      · refine (Mirrored.of_stop environment middle list reason).of_eq ?_ ?_
        · rw [FixedList.allocate, bind_apply_ok _ _ (own_apply ..), if_neg hlarge]
          simp only [hnone, if_pos hmore]
          rw [bind_apply_error _ _ hrun]
          rfl
        · rw [StackList.allocate, bind_apply_ok _ _ (own_apply ..), if_neg hsmall,
            if_pos ⟨hpop, hmore⟩, bind_apply_error _ _ hmirror]
          rfl
      · -- the new chunk stands behind chunks whose stacks were found empty
        rw [unfolded, ← hblock, ← hcount] at hempty
        refine (hsound.take_unfolded hlist hfree hempty).of_eq ?_ ?_
        · rw [FixedList.allocate, bind_apply_ok _ _ (own_apply ..), if_neg hlarge]
          simp only [hnone, if_pos hmore]
          rw [bind_apply_ok _ _ hrun]
          rfl
        · rw [StackList.allocate, bind_apply_ok _ _ (own_apply ..), if_neg hsmall,
            if_pos ⟨hpop, hmore⟩, bind_apply_ok _ _ hmirror]
    · let noted : Machine :=
        { machine with log := .fixedExhausted list.inUse list.blockSize :: machine.log }
      refine (Mirrored.of_stop environment noted list (.failure .exhausted)).of_eq ?_ ?_
      · rw [FixedList.allocate, bind_apply_ok _ _ (own_apply ..), if_neg hlarge]
        simp only [hnone, if_neg hmore]
        rw [bind_apply_ok _ _ (note_apply ..)]
        rfl
      · rw [StackList.allocate, bind_apply_ok _ _ (own_apply ..), if_neg hsmall,
          if_neg fun hboth => hmore hboth.2, StackList.take, bind_apply_ok _ _ (own_apply ..)]
        simp only [hpop]
        rw [bind_apply_ok _ _ (note_apply ..), h.inUse_unfolded]
        rfl
  · obtain ⟨chunk', -, hpop⟩ := h.pop_unfolded hlist hfree hempty
    have hfull : ¬ (StackList.pop list.unfolded.chunks = none ∧ list.unfolded.mayExtend = true) := by
      rw [hpop]
      simp
    refine (h.take_unfolded hlist hfree hempty).of_eq ?_ ?_
    · rw [FixedList.allocate, bind_apply_ok _ _ (own_apply ..), if_neg hlarge]
      simp only [hsome]
      rfl
    · rw [StackList.allocate, bind_apply_ok _ _ (own_apply ..), if_neg hsmall, if_neg hfull]

/-- A block goes back onto the same stack. -/
theorem Sound.free_unfolded (h : Sound machine list) (huses : list.Uses address) :
    Mirrored unfolded environment machine list (FixedList.free address) (StackList.free address) := by
  obtain ⟨start, chunk, stock, index, hmem, stocked, hindex, rfl⟩ := huses
  obtain ⟨hevolves, -⟩ := stocked.give hindex
  obtain ⟨hrun, -⟩ := h.free_apply hmem stocked hindex environment
  refine ⟨_, _, _, hrun, ?_⟩
  have hstack : (chunk.give (blockOffset list.blockSize index)).stack list.blockSize
      list.blocksPerChunk = blockOffset list.blockSize index ::
        chunk.stack list.blockSize list.blocksPerChunk := by
    rw [hevolves.stocked.stack_eq, stocked.stack_eq]
    rfl
  -- the search by address ends at the same chunk in both
  have hfind : list.unfolded.chunks.find? (fun (start', _) =>
      start' + headerSize ≤ start + blockOffset list.blockSize index &&
        start + blockOffset list.blockSize index <
          start' + headerSize + list.unfolded.blocksPerChunk * list.unfolded.blockSize) =
      some (start, chunk.stack list.blockSize list.blocksPerChunk) := by
    rw [unfolded, List.find?_map]
    exact congrArg (Option.map _) (h.chunkOf?_eq hmem (stocked.index_lt hindex))
  have hchunks : (list.unfolded.chunks.map fun (place, stack) =>
      (place, if place = start then blockOffset list.blockSize index :: stack else stack)) =
        (list.changed start (chunk.give (blockOffset list.blockSize index))
          (list.inUse - 1)).unfolded.chunks := by
    simp only [unfolded, changed, h.sequence.toList_put, Chain.replaced, List.map_map]
    refine List.map_congr_left fun entry hentry => ?_
    obtain ⟨place, other⟩ := entry
    simp only [Function.comp_apply, unfoldedChunk]
    by_cases heq : place = start
    · subst heq
      simp [hstack, h.sequence.mem_unique hentry hmem]
    · simp [heq]
  rw [StackList.free, bind_apply_ok _ _ (own_apply ..)]
  simp only [hfind]
  rw [bind_apply_ok _ _ (modifyOwn_apply ..), note_apply, Nat.add_sub_cancel_left, hchunks]
  rfl

/-- Both lists make every block free. -/
theorem Sound.clear_unfolded (h : Sound machine list) :
    Mirrored unfolded environment machine list FixedList.clear StackList.clear := by
  obtain ⟨chunks, hrun, hsequence⟩ := h.clear_apply environment
  refine ⟨_, _, _, hrun, ?_⟩
  have hchunks : (list.unfolded.chunks.map fun (place, _) => (place, list.unfolded.full)) =
      ({ list with chunks := chunks, inUse := 0 } : FixedList).unfolded.chunks := by
    simp only [unfolded, hsequence.toList_eq, List.map_map]
    refine List.map_congr_left fun entry hentry => ?_
    obtain ⟨stock, stocked⟩ := (h.laid entry.1 entry.2 hentry).stocked
    exact congrArg (Prod.mk entry.1)
      (stocked_freeAll stocked.length h.large h.positive stocked.room stocked.full).stack_fresh.symm
  rw [StackList.clear, modifyOwn_apply, hchunks]
  rfl

/-- Writing into a block reaches no stack. -/
theorem Sound.write_unfolded (h : Sound machine list) (huses : list.Uses address)
    {content : Stretch FreeLink} (fits : offset + content.length ≤ list.blockSize) :
    Mirrored unfolded environment machine list (FixedList.write address offset content) (pure ()) := by
  obtain ⟨start, chunk, stock, index, hmem, stocked, hindex, rfl⟩ := huses
  obtain ⟨front, back, hlist⟩ := List.append_of_mem hmem
  refine ⟨_, _, _, h.write_apply hmem (stocked.index_lt hindex) offset content environment, ?_⟩
  rw [h.unfolded_changed hlist, (stocked.write hindex fits).stocked.stack_eq, ← stocked.stack_eq,
    ← unfolded_chunks hlist]
  rfl

/-- Making a list gives the same result in both forms, and the same machine if it succeeds. -/
theorem ofConfig_unfolded (config : FixedConfig) (environment : Environment) (machine : Machine) :
    (StackList.ofConfig config environment machine).1 =
        (FixedList.ofConfig config environment machine).1.map unfolded ∧
      ∀ list machine', FixedList.ofConfig config environment machine = (.ok list, machine') →
        (StackList.ofConfig config environment machine).2 = machine' := by
  rw [FixedList.ofConfig, StackList.ofConfig]
  cases hplan : plan config with
  | error failure => exact ⟨rfl, fun _ _ hrun => by cases hrun⟩
  | ok planned =>
    have hsound := sound_plan hplan machine
    obtain ⟨-, -, -, -, hchunks, -⟩ := plan_cases hplan
    have hstart : (⟨[], planned.blockSize, planned.chunkSize, planned.blocksPerChunk,
        planned.mayExtend⟩ : StackList) = planned.unfolded := by
      rw [unfolded, hchunks, Chain.isSequence_empty.toList_eq]
      rfl
    simp only [making, cleanedBy, hstart]
    rcases hsound.extend_unfolded environment with
      ⟨reason, middle, hrun, hmirror⟩ | ⟨start, chunk, middle, after, hrun, hmirror, -⟩
    · rw [hrun, hmirror]
      exact ⟨rfl, fun _ _ hmade => by cases hmade⟩
    · rw [hrun, hmirror]
      exact ⟨rfl, fun _ _ hmade => (Prod.mk.inj hmade).2⟩

/-! ## Runs on stacks -/

namespace Session

variable {session : Session}

/-- What the caller promises and others keep to at each of some moves: calls are allowed, and the
chunks of the list stay mapped. -/
def Permits [Size.Paging] (session : Session) : List (Move Call) → Prop
  | [] => True
  | .call environment call :: rest =>
    call.Allowed session ∧ (session.after environment call).Permits rest
  | .others machine :: rest =>
    session.list.StaysMapped session.machine machine ∧ Permits { session with machine := machine } rest

/-- A call that is allowed does the same on stacks. -/
theorem Sound.call_unfolded {call : Call} (h : session.Sound) (allowed : call.Allowed session)
    (environment : Environment) :
    Mirrored unfolded environment session.machine session.list call.run call.onStacks := by
  cases call with
  | allocate size => exact (h.list.allocate_unfolded size).map some
  | free address =>
    exact (h.list.free_unfolded ((h.live address).1 allowed)).map fun _ => none
  | clear => exact h.list.clear_unfolded.map fun _ => none
  | write address offset content =>
    exact (h.list.write_unfolded ((h.live address).1 allowed.1) allowed.2).map fun _ => none

/-- Runs on the list and on its stacks go on in step. -/
theorem Sound.moves_unfolded (h : session.Sound) {steps : List (Move Call)}
    (permitted : session.Permits steps) :
    moves Call.onStacks steps (session.machine, session.list.unfolded) =
      match moves Call.run steps (session.machine, session.list) with
      | (answers, machine, list) => (answers, machine, list.unfolded) := by
  induction steps generalizing session with
  | nil => rfl
  | cons step rest ih =>
    cases step with
    | call environment call =>
      obtain ⟨result, machine', after, hrun, hmirror⟩ := h.call_unfolded permitted.1 environment
      have hafter : ((session.after environment call).machine,
          (session.after environment call).list) = _ :=
        session.turn_state call.run (call.record session.live) environment
      rw [hrun] at hafter
      obtain ⟨rfl, rfl⟩ := Prod.mk.inj hafter
      simp only [moves, hrun, hmirror, ih (h.step permitted.1 environment).sound permitted.2]
    | others machine => exact ih (h.of_machine permitted.1) permitted.2

end Session

/-- A fixed list and the stack list that it unfolds to are made alike, and whatever they are asked
for, they give the same answers and go on as each other. -/
theorem unfolded_agrees (config : FixedConfig) (environment : Environment) (machine : Machine) :
    (StackList.ofConfig config environment machine).1 =
        (FixedList.ofConfig config environment machine).1.map unfolded ∧
      ∀ session, Session.start config environment machine = .ok session →
        StackList.ofConfig config environment machine =
            (.ok session.list.unfolded, session.machine) ∧
          ∀ steps, session.Permits steps →
            moves Call.onStacks steps (session.machine, session.list.unfolded) =
              match moves Call.run steps (session.machine, session.list) with
              | (answers, machine, list) => (answers, machine, list.unfolded) := by
  obtain ⟨hresult, hmachine⟩ := ofConfig_unfolded config environment machine
  refine ⟨hresult, fun session hstart => ⟨?_, fun steps permitted =>
    (Session.Sound.of_start hstart).moves_unfolded permitted⟩⟩
  rw [Session.start] at hstart
  cases hmade : FixedList.ofConfig config environment machine with
  | mk result machine' =>
    rw [hmade] at hstart hresult
    cases result with
    | error reason => cases hstart
    | ok list =>
      obtain rfl := Except.ok.inj hstart
      exact Prod.ext hresult (hmachine list machine' hmade)

end FixedList

end PagedAlloc

namespace PagedAlloc.FixedList

open Procedure
open FixedChunk Procedure

attribute [local instance] Size.Paging.common

theorem unfolded_agrees_after_free :
    ∃ session, Session.start ⟨1500, 4096, true⟩ .ordinary .fresh = .ok session ∧
      let steps : List (Move Call) := [.call .ordinary (.allocate 1500),
        .call .ordinary (.allocate 8), .call .ordinary (.free 65584),
        .call .ordinary (.allocate 1), .call .ordinary (.allocate 1)]
      session.Permits steps ∧
        (moves Call.onStacks steps (session.machine, session.list.unfolded)).1 =
          [.ok (some 65584), .ok (some 67088), .ok none, .ok (some 65584), .ok (some 69680)] := by
  have hstart : Session.start ⟨1500, 4096, true⟩ .ordinary .fresh = .ok _ := rfl
  have agrees := ((unfolded_agrees _ _ _).2 _ hstart).2
  refine ⟨_, hstart, ?permitted, (congrArg Prod.fst (agrees _ ?permitted)).trans ?answers⟩
  case permitted =>
    exact ⟨trivial, trivial, show 65584 ∈ _ by decide +kernel, trivial, trivial, trivial⟩
  case answers => decide +kernel

end PagedAlloc.FixedList
