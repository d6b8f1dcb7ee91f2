import PagedAlloc.Proofs.FreePartition

/-!
# Answers of a fixed list

What a fixed list does with a request for a block of any size (`Sound.allocate_cases`) and with any
address that is given back, be it that of a block or not (`Sound.free_cases`). A list has no free
block just if no chunk offers one (`Sound.full_iff_idle`), which is when all blocks are counted as
in use (`Session.Sound.full_iff`). No call changes what blocks and chunks are like
(`Session.Sound.step_sameShape`).
-/

namespace PagedAlloc

variable {paging : Size.Paging}

namespace FixedChunk

variable {chunk : FixedChunk} {blockSize count : Nat} {stock : Stock}

/-- A chunk without a first free block has no free block at all, and the other way round. -/
theorem Stocked.free_eq_none_iff (h : chunk.Stocked blockSize count stock) :
    chunk.free = none ↔ ∀ index < count, stock.Uses index := by
  constructor
  · intro hnone index hlt
    have hchain := h.chain
    rw [hnone] at hchain
    obtain ⟨linked, rest⟩ := stock
    cases linked with
    | cons first linked => cases hchain
    | nil =>
      generalize hmark : Stock.mark ⟨[], rest⟩ blockSize count = mark at hchain
      cases hchain
      rw [Stock.mark] at hmark
      split at hmark
      · cases hmark
      · rename_i hend
        exact ⟨Nat.lt_of_lt_of_le hlt (Nat.le_of_not_lt hend), List.not_mem_nil⟩
  · intro hall
    cases hfree : chunk.free with
    | none => rfl
    | some offset =>
      obtain ⟨index, chunk', stock', rfl, -, htakes, -⟩ := h.take hfree 0
      exact absurd (hall index (htakes.stocked.index_lt htakes.used)) htakes.unused

end FixedChunk

namespace FixedList

open FixedChunk Procedure

/-- No block is free. -/
def Full (list : FixedList) : Prop := ∀ address, ¬ list.IsFree address

/-- Lists whose chunks and blocks are of the same kind. -/
structure SameShape (before after : FixedList) : Prop where
  blockSize : after.blockSize = before.blockSize
  chunkSize : after.chunkSize = before.chunkSize
  blocksPerChunk : after.blocksPerChunk = before.blocksPerChunk
  mayExtend : after.mayExtend = before.mayExtend

/-- An address is among the blocks of the chunk at `start`: neither in its header nor behind its
last whole block. -/
def InBlocks (list : FixedList) (start address : Nat) : Prop :=
  start + headerSize ≤ address ∧
    address < start + headerSize + list.blocksPerChunk * list.blockSize

/-- An address is in the mapping of the chunk at `start` but not among its blocks: in its header, or
in the slack behind its last whole block. -/
def InMargin (list : FixedList) (start address : Nat) : Prop :=
  start ≤ address ∧ address < start + headerSize ∨
    start + headerSize + list.blocksPerChunk * list.blockSize ≤ address ∧
      address < start + list.chunkSize

/-- What a request for `size` bytes comes to. -/
inductive Allocates [Size.Paging] (environment : Environment) (machine : Machine) (list : FixedList)
    (size : Nat) : Except Stop Nat → Machine → FixedList → Prop where
  | tooLarge (large : list.blockSize < size) :
    Allocates environment machine list size
      (.error (.failure (.blockTooLarge size list.blockSize))) machine list
  | taken {start offset : Nat} {chunk chunk' : FixedChunk} (small : size ≤ list.blockSize)
      (mem : (start, chunk) ∈ list.chunks.toList) (free : chunk.free = some offset)
      (takes : chunk.take start offset list.blockSize = .ok chunk') :
    Allocates environment machine list size (.ok (start + offset))
      { machine with log := .fixedTaken (start + offset) :: machine.log }
      (list.changed start chunk' (list.inUse + 1))
  | chained {start : Nat} {chunk' : FixedChunk} {machine' : Machine}
      (small : size ≤ list.blockSize) (full : list.Full) (growing : list.mayExtend = true)
      (granted : Pages.Granted environment machine machine' start list.chunkSize)
      (takes : list.fresh.take start headerSize list.blockSize = .ok chunk') :
    Allocates environment machine list size (.ok (start + headerSize))
      { machine' with
        log := .fixedTaken (start + headerSize) ::
          .fixedChained (list.chunks.length + 1) start list.blocksPerChunk list.blockSize ::
            machine'.log }
      (({ list with chunks := list.chunks.append start list.fresh } : FixedList).changed start
        chunk' (list.inUse + 1))
  | exhausted (small : size ≤ list.blockSize) (full : list.Full)
      (fixed : list.mayExtend = false) :
    Allocates environment machine list size (.error (.failure .exhausted))
      { machine with log := .fixedExhausted list.inUse list.blockSize :: machine.log } list
  | refused {machine' : Machine} (small : size ≤ list.blockSize) (full : list.Full)
      (growing : list.mayExtend = true)
      (unmapped : Pages.map list.chunkSize environment machine = (.ok none, machine'))
      (refused : Pages.Refused machine machine' list.chunkSize) :
    Allocates environment machine list size (.error (.failure (.outOfMemory list.chunkSize)))
      machine' list

variable {environment : Environment} {machine machine' : Machine} {list after : FixedList}
  {start address size : Nat} {chunk : FixedChunk}

/-! ## Lists without a free block -/

/-- No block is free just if no chunk has a first free one. -/
theorem Sound.full_iff_idle (h : Sound machine list) :
    list.Full ↔ ∀ entry ∈ list.chunks.toList, entry.2.free = none := by
  constructor
  · rintro hfull ⟨start, chunk⟩ hmem
    obtain ⟨stock, stocked⟩ := (h.laid _ _ hmem).stocked
    refine stocked.free_eq_none_iff.2 fun index hlt => ?_
    by_contra hunused
    exact hfull _ ⟨start, chunk, _, _, index, hmem, stocked.chain, hlt, rfl,
      (named_iff h.large hlt).2 hunused⟩
  · rintro hidle address ⟨start, chunk, linked, rest, index, hmem, hchain, -, -, hnamed⟩
    rw [hidle _ hmem] at hchain
    cases hchain
    simp at hnamed

/-- No chunk offers a block just if all are in use. -/
theorem Sound.available?_eq_none_iff (h : Sound machine list) :
    list.available? = none ↔ list.Full := by
  rw [h.full_iff_idle]
  simp only [available?, List.findSome?_eq_none_iff, Option.map_eq_none_iff]

/-- No block is free just if all are in use. -/
theorem Session.Sound.full_iff {session : Session} (h : session.Sound) :
    session.list.Full ↔
      session.list.inUse = session.list.chunks.length * session.list.blocksPerChunk := by
  obtain ⟨free, -, hfree, hlength⟩ := h.partition.free
  have hnil : session.list.Full ↔ free = [] := by
    rw [List.eq_nil_iff_forall_not_mem]
    exact forall_congr' fun address => not_congr (hfree address).symm
  rw [hnil, ← List.length_eq_zero_iff]
  omega

/-- No more blocks are in use than the chunks have. -/
theorem Session.Sound.inUse_le {session : Session} (h : session.Sound) :
    session.list.inUse ≤ session.list.chunks.length * session.list.blocksPerChunk := by
  obtain ⟨free, -, -, hlength⟩ := h.partition.free
  omega

/-! ## Requests -/

/-- The first block of a chunk that was just mapped can be taken. -/
theorem Sound.fresh_takes (h : Sound machine list) (start : Nat) :
    ∃ chunk', list.fresh.take start headerSize list.blockSize = .ok chunk' := by
  have stocked : list.fresh.Stocked list.blockSize list.blocksPerChunk ⟨[], 0⟩ :=
    stocked_freeAll rfl h.large h.positive h.room h.full
  obtain ⟨-, chunk', -, -, htake, -⟩ := stocked.take rfl start
  exact ⟨chunk', htake⟩

/-- A block is taken and reported. -/
theorem take_noted {offset : Nat} {chunk' : FixedChunk}
    (hget : list.chunks.get? start = some chunk)
    (htake : chunk.take start offset list.blockSize = .ok chunk') (environment : Environment)
    (machine : Machine) :
    (do
        let address ← FixedList.take start offset
        note (.fixedTaken address)
        return address : Procedure (Machine × FixedList) Nat) environment (machine, list) =
      (.ok (start + offset),
        { machine with log := .fixedTaken (start + offset) :: machine.log },
        list.changed start chunk' (list.inUse + 1)) := by
  rw [bind_apply_ok _ _ (take_apply hget htake _ _), bind_apply_ok _ _ (note_apply ..)]
  rfl

/-- A request has one of five outcomes. -/
theorem Sound.allocate_cases (h : Sound machine list) (environment : Environment) (size : Nat) :
    ∃ result machine' after, FixedList.allocate size environment (machine, list) =
        (result, machine', after) ∧
      Allocates environment machine list size result machine' after := by
  rw [FixedList.allocate, bind_apply_ok _ _ (own_apply ..)]
  by_cases hlarge : list.blockSize < size
  · rw [if_pos hlarge]
    exact ⟨_, _, _, rfl, .tooLarge hlarge⟩
  have hsmall := Nat.le_of_not_lt hlarge
  rw [if_neg hlarge]
  rcases available?_cases list with hnone | ⟨start, chunk, offset, hsome, hmem, hfree⟩
  · have hfull := h.available?_eq_none_iff.1 hnone
    simp only [hnone]
    cases hextend : list.mayExtend with
    | false => exact ⟨_, _, _, rfl, .exhausted hsmall hfull hextend⟩
    | true =>
      obtain ⟨result, middle, hmap, ⟨rfl, hrefused, hrun⟩ | ⟨start, rfl, hgranted, hrun⟩⟩ :=
        extend_cases h.whole environment machine
      · rw [if_pos rfl, bind_apply_error _ _ hrun]
        exact ⟨_, _, _, rfl, .refused hsmall hfull hextend hmap hrefused⟩
      · obtain ⟨chunk', htake⟩ := h.fresh_takes start
        -- the list with one more chunk, whose first block is free
        let chained : FixedList :=
          { list with chunks := list.chunks.append start list.fresh }
        have hget : chained.chunks.get? start = some list.fresh := by
          show (list.chunks.append start list.fresh).get? start = _
          rw [Chain.get?, Chain.find?_append, if_pos rfl]
          rfl
        rw [if_pos rfl, bind_apply_ok _ _ hrun]
        exact ⟨_, _, _, take_noted hget htake _ _,
          .chained hsmall hfull hextend hgranted htake⟩
  · obtain ⟨stock, stocked⟩ := (h.laid _ _ hmem).stocked
    obtain ⟨index, chunk', stock', rfl, htake, -⟩ := stocked.take hfree start
    simp only [hsome]
    exact ⟨_, _, _, take_noted (h.get?_eq hmem) htake _ _, .taken hsmall hmem hfree htake⟩

/-- A request changes neither the sizes of a list nor whether it may extend. -/
theorem Allocates.sameShape {result : Except Stop Nat}
    (h : Allocates environment machine list size result machine' after) :
    SameShape list after := by
  cases h <;> exact ⟨rfl, rfl, rfl, rfl⟩

/-! ## Giving back -/

/-- Whatever address is given back, it is refused before anything was done, or goes on top of the
free blocks of the chunk that it lies in. -/
theorem Sound.free_cases (h : Sound machine list) (environment : Environment) (address : Nat) :
    (∀ entry ∈ list.chunks.toList, ¬ list.InBlocks entry.1 address) ∧
        FixedList.free address environment (machine, list) =
          (.error (.fault (.foreignBlock address)), machine, list) ∨
      ∃ start chunk, (start, chunk) ∈ list.chunks.toList ∧ list.InBlocks start address ∧
        (¬ list.blockSize ∣ address - (start + headerSize) ∧
            FixedList.free address environment (machine, list) =
              (.error (.fault (.notBlockStart address)), machine, list) ∨
          list.blockSize ∣ address - (start + headerSize) ∧ chunk.inUse = 0 ∧
            FixedList.free address environment (machine, list) =
              (.error (.fault (.idleChunk address)), machine, list) ∨
          list.blockSize ∣ address - (start + headerSize) ∧ 0 < chunk.inUse ∧
            FixedList.free address environment (machine, list) =
              (.ok (), { machine with log := .fixedReturned address :: machine.log },
                list.changed start (chunk.give (address - start)) (list.inUse - 1))) := by
  rw [FixedList.free, bind_apply_ok _ _ (own_apply ..)]
  cases hfound : list.chunkOf? address with
  | none =>
    refine Or.inl ⟨fun entry hentry hin => ?_, rfl⟩
    simpa [hin.1, hin.2] using List.find?_eq_none.1 hfound entry hentry
  | some found =>
    obtain ⟨start, chunk⟩ := found
    have hmem := List.mem_of_find?_eq_some hfound
    have hin := List.find?_some hfound
    simp only [Bool.and_eq_true, decide_eq_true_eq] at hin
    refine Or.inr ⟨start, chunk, hmem, hin, ?_⟩
    rw [← Nat.sub_sub, Nat.dvd_iff_mod_eq_zero]
    dsimp only
    by_cases hstart : (address - start - headerSize) % list.blockSize = 0
    · rw [bind_apply_ok _ _ (ensure_apply _ hstart _ _)]
      by_cases hbusy : 0 < chunk.inUse
      · -- the chunk counts a block in use, so the list does
        have htotal : 1 ≤ list.inUse := by
          rw [h.counted]
          exact Nat.le_trans hbusy (List.single_le_sum (fun _ _ => Nat.zero_le _) _
            (List.mem_map.2 ⟨(start, chunk), hmem, rfl⟩))
        have hless : Size.sub list.inUse 1 = .ok (list.inUse - 1) := by
          rw [Size.sub, if_pos htotal]
        rw [bind_apply_ok _ _ (ensure_apply _ hbusy _ _),
          bind_apply_ok _ _ (updateChunk_eq (.ok <| ·.give (address - start)) (h.get?_eq hmem) rfl
            environment machine), hless, bind_apply_ok _ _ (checked_ok ..),
          bind_apply_ok _ _ (modifyOwn_apply ..)]
        exact Or.inr (Or.inr ⟨hstart, hbusy, rfl⟩)
      · rw [bind_apply_error _ _ (ensure_apply_not _ hbusy _ _)]
        exact Or.inr (Or.inl ⟨hstart, Nat.eq_zero_of_not_pos hbusy, rfl⟩)
    · rw [bind_apply_error _ _ (ensure_apply_not _ hstart _ _)]
      exact Or.inl ⟨hstart, rfl⟩

/-! ## Shapes -/

namespace SameShape

theorem refl (list : FixedList) : SameShape list list := ⟨rfl, rfl, rfl, rfl⟩

theorem trans {before middle : FixedList} (h : SameShape before middle)
    (h' : SameShape middle after) : SameShape before after :=
  ⟨h'.blockSize.trans h.blockSize, h'.chunkSize.trans h.chunkSize,
    h'.blocksPerChunk.trans h.blocksPerChunk, h'.mayExtend.trans h.mayExtend⟩

end SameShape

namespace Session

variable {session first : Session} {call : Call}

/-- No call changes the sizes of a list or whether it may extend. -/
theorem Sound.step_sameShape (h : session.Sound) (allowed : call.Allowed session)
    (environment : Environment) :
    SameShape session.list (session.after environment call).list := by
  cases call with
  | allocate size =>
    obtain ⟨result, machine', after, hrun, houtcome⟩ := h.list.allocate_cases environment size
    rw [Session.after, Call.run, Session.turn_list, hrun]
    exact houtcome.sameShape
  | free address =>
    obtain ⟨-, hrun⟩ | ⟨start, chunk, -, -, ⟨-, hrun⟩ | ⟨-, -, hrun⟩ | ⟨-, -, hrun⟩⟩ :=
      h.list.free_cases environment address
    all_goals
      rw [Session.after, Call.run, Session.turn_list, hrun]
      exact ⟨rfl, rfl, rfl, rfl⟩
  | clear =>
    obtain ⟨chunks, hrun, -⟩ := h.list.clear_apply environment
    rw [Session.after, Call.run, Session.turn_list, hrun]
    exact ⟨rfl, rfl, rfl, rfl⟩
  | write address offset content =>
    obtain ⟨start, chunk, stock, index, hmem, stocked, hindex, rfl⟩ := (h.live address).1 allowed.1
    have hrun := h.list.write_apply hmem (stocked.index_lt hindex) offset content environment
    rw [Session.after, Call.run, Session.turn_list, hrun]
    exact ⟨rfl, rfl, rfl, rfl⟩

/-- Lists keep their shape for their whole life. -/
theorem Leads.sameShape {excluded : Call → Prop} (h : Leads excluded first session)
    (hfirst : first.Sound) : SameShape first.list session.list := by
  induction h with
  | refl => exact .refl _
  | step before environment call allowed other ih =>
    exact ih.trans ((before.sound hfirst).step_sameShape allowed environment)
  | others before held ih => exact ih

end Session

end FixedList

end PagedAlloc
