import Mathlib.Algebra.Order.BigOperators.Group.List
import Mathlib.Algebra.Order.Group.Nat
import PagedAlloc.Proofs.FixedState

/-!
# Operations of a fixed list

Whatever the kernel decides, every operation of a sound fixed list gives a sound list again. A block
that is handed out was not in use and holds zeros (`Sound.allocate`), a block in use is taken back
(`Sound.free`), and nothing but the block that an operation is about changes. A list that was made
from any configuration is sound (`sound_ofConfig`).
-/

namespace PagedAlloc.FixedList

variable {paging : Size.Paging}

open FixedChunk Procedure

variable {environment : Environment} {machine machine' : Machine} {list after : FixedList}
  {start address offset index : Nat} {chunk chunk' : FixedChunk} {stock : Stock}

/-- A block was handed out: it was not in use, is so now, and holds zeros. -/
structure Provides [Size.Paging] (machine : Machine) (list : FixedList) (address : Nat)
    (after : FixedList) : Prop where
  sound : Sound machine after
  evolves : Evolves (· = address) list after
  unused : ¬ list.Uses address
  used : after.Uses address
  zero : after.contents address = .ok (List.replicate list.blockSize (.byte 0))

/-- A step on a chunk replaces it. -/
theorem updateChunk_eq (step : FixedChunk → Except Fault FixedChunk)
    (hget : list.chunks.get? start = some chunk) (hstep : step chunk = .ok chunk')
    (environment : Environment) (machine : Machine) :
    updateChunk start step environment (machine, list) =
      (.ok (), machine, list.changed start chunk' list.inUse) := by
  rw [updateChunk, bind_apply_ok _ _ (own_apply ..)]
  simp only [hget, hstep]
  rfl

/-! ## Handing out a block -/

/-- Taking a block replaces its chunk and counts the block. -/
theorem take_apply (hget : list.chunks.get? start = some chunk)
    (htake : chunk.take start offset list.blockSize = .ok chunk') (environment : Environment)
    (machine : Machine) :
    FixedList.take start offset environment (machine, list) =
      (.ok (start + offset), machine, list.changed start chunk' (list.inUse + 1)) := by
  rw [FixedList.take, bind_apply_ok _ _ (own_apply ..),
    bind_apply_ok _ _ (updateChunk_eq _ hget htake _ _)]
  rfl

/-- The free block of a chunk is handed out. -/
theorem Sound.take (h : Sound machine list) (hmem : (start, chunk) ∈ list.chunks.toList)
    (hfree : chunk.free = some offset) (environment : Environment) :
    ∃ after, FixedList.take start offset environment (machine, list) =
        (.ok (start + offset), machine, after) ∧
      Provides machine list (start + offset) after := by
  obtain ⟨stock, stocked⟩ := (h.laid _ _ hmem).stocked
  obtain ⟨index, chunk', stock', rfl, htake, htakes, -⟩ := stocked.take hfree start
  have hcounted : list.inUse + 1 + chunk.inUse = list.inUse + chunk'.inUse := by
    rw [htakes.inUse]
    omega
  have hsound := h.change hmem htakes.toEvolves hcounted
  have hnew := h.mem_changed hmem chunk' (list.inUse + 1)
  have hlt := htakes.stocked.index_lt htakes.used
  refine ⟨_, take_apply (h.get?_eq hmem) htake environment machine, hsound,
    h.evolves_change hmem htakes.toEvolves stocked hcounted,
    fun huses => htakes.unused ((h.uses_iff hmem stocked hlt).1 huses),
    (hsound.uses_iff hnew htakes.stocked hlt).2 htakes.used, ?_⟩
  rw [show blockOffset list.blockSize index =
      blockOffset (list.changed start chunk' (list.inUse + 1)).blockSize index from rfl,
    hsound.contents_eq hnew hlt, List.map_eq_replicate_iff.2, List.length_range]
  · rfl
  · intro count hcount
    refine htakes.zero _ (Nat.le_add_right ..) ?_
    rw [blockOffset_succ]
    exact Nat.add_lt_add_left (List.mem_range.1 hcount) _

/-! ## Chaining a chunk -/

/-- Pages that were just granted are not those of a chunk. -/
theorem Sound.absent (h : Sound machine list)
    (hgranted : Pages.Granted environment machine machine' start list.chunkSize) :
    start ∉ list.chunks.toList.map Prod.fst := by
  intro hmem
  obtain ⟨entry, hentry, rfl⟩ := List.mem_map.1 hmem
  have hapart := hgranted.vacant _ (h.laid entry.1 entry.2 hentry).held
  have hpositive := hgranted.positive
  simp only [Holding.stop] at hapart
  omega

/-- A chunk of free blocks at an address that nobody had may be chained. -/
theorem Sound.append (h : Sound machine list)
    (hgranted : Pages.Granted environment machine machine' start list.chunkSize)
    (hsize : chunk.size = list.chunkSize) (hidle : chunk.inUse = 0)
    (stocked : chunk.Stocked list.blockSize list.blocksPerChunk ⟨[], 0⟩) :
    let after := { list with chunks := list.chunks.append start chunk }
    Sound machine' after ∧ Evolves (fun _ => False) list after ∧
      (start, chunk) ∈ after.chunks.toList := by
  have hapart : ∀ entry ∈ list.chunks.toList,
      entry.1 + list.chunkSize ≤ start ∨ start + list.chunkSize ≤ entry.1 :=
    fun entry hentry => hgranted.vacant _ (h.laid entry.1 entry.2 hentry).held
  have hsequence := h.sequence.append (h.absent hgranted) chunk
  have hlist := hsequence.toList_eq
  have hmem : ∀ entry, entry ∈ (list.chunks.append start chunk).toList ↔
      entry ∈ list.chunks.toList ∨ entry = (start, chunk) := by
    intro entry
    rw [hlist, List.mem_append, List.mem_singleton]
  have hsound : Sound machine' { list with chunks := list.chunks.append start chunk } := by
    refine ⟨hlist ▸ hsequence, h.large, h.positive, h.room, h.full, h.whole, ?_, ?_, ?_⟩
    · intro place other hentry
      rcases (hmem _).1 hentry with hold | heq
      · have hlaid := h.laid place other hold
        exact ⟨hlaid.size, hgranted.ledger ▸ List.mem_cons_of_mem _ hlaid.held, hlaid.stocked⟩
      · obtain ⟨rfl, rfl⟩ := Prod.mk.inj heq
        exact ⟨hsize, hgranted.ledger ▸ List.mem_cons_self .., _, stocked⟩
    · intro p hp q hq
      rcases (hmem p).1 hp with hp | rfl <;> rcases (hmem q).1 hq with hq | rfl
      · exact h.apart p hp q hq
      · exact Or.inr (hapart p hp)
      · exact Or.inr (hapart q hq).symm
      · exact Or.inl rfl
    · simp [hlist, hidle, ← h.counted]
  refine ⟨hsound, ⟨rfl, rfl, ?_, ?_⟩, (hmem _).2 (Or.inr rfl)⟩
  · intro address _
    constructor
    · rintro ⟨place, other, stock, spot, hin, hstocked, huses, rfl⟩
      rcases (hmem _).1 hin with hold | heq
      · exact ⟨place, other, stock, spot, hold, hstocked, huses, rfl⟩
      · -- no block of the new chunk is in use
        obtain ⟨rfl, rfl⟩ := Prod.mk.inj heq
        obtain rfl := stocked.unique hstocked
        exact absurd huses.1 (Nat.not_lt_zero _)
    · rintro ⟨place, other, stock, spot, hin, hstocked, huses, rfl⟩
      exact ⟨place, other, stock, spot, (hmem _).2 (Or.inl hin), hstocked, huses, rfl⟩
  · rintro _ - ⟨place, other, stock, spot, hin, hstocked, huses, rfl⟩
    have hlt := hstocked.index_lt huses
    rw [h.contents_eq hin hlt]
    exact hsound.contents_eq ((hmem _).2 (Or.inl hin)) hlt

/-- A chunk that was just mapped. -/
def fresh (list : FixedList) : FixedChunk :=
  (⟨none, list.chunkSize, 0, Memory.zeroed list.chunkSize⟩ : FixedChunk).freeAll

/-- Chaining a chunk fails with the request for pages, or puts a fresh chunk at the end. -/
theorem extend_cases (whole : Size.pageSize ∣ list.chunkSize) (environment : Environment)
    (machine : Machine) :
    ∃ result machine', Pages.map list.chunkSize environment machine = (.ok result, machine') ∧
      (result = none ∧ Pages.Refused machine machine' list.chunkSize ∧
          FixedList.extend environment (machine, list) =
            (.error (.failure (.outOfMemory list.chunkSize)), machine', list) ∨
        ∃ start, result = some start ∧
          Pages.Granted environment machine machine' start list.chunkSize ∧
          FixedList.extend environment (machine, list) =
            (.ok start,
              { machine' with
                log := .fixedChained (list.chunks.length + 1) start list.blocksPerChunk
                  list.blockSize :: machine'.log },
              { list with chunks := list.chunks.append start list.fresh })) := by
  obtain ⟨result, middle, hmap, hcases⟩ := Pages.map_cases environment machine whole
  refine ⟨result, middle, hmap, ?_⟩
  rw [FixedList.extend, bind_apply_ok _ _ (own_apply ..), bind_apply_ok _ _ (ask_apply _ hmap _)]
  rcases hcases with ⟨rfl, hrefused⟩ | ⟨start, rfl, hgranted⟩
  · rw [bind_apply_error _ _ (orFail_none ..)]
    exact Or.inl ⟨rfl, hrefused, rfl⟩
  -- the mapped chunk before its blocks are freed
  let mapped : FixedChunk := ⟨none, list.chunkSize, 0, Memory.zeroed list.chunkSize⟩
  let chained : FixedList := { list with chunks := list.chunks.append start mapped }
  have hget : chained.chunks.get? start = some mapped := by
    show (list.chunks.append start mapped).get? start = _
    rw [Chain.get?, Chain.find?_append, if_pos rfl]
    rfl
  have hupdate := updateChunk_eq (.ok ·.freeAll) hget rfl environment middle
  rw [changed, Chain.append_put] at hupdate
  rw [bind_apply_ok _ _ (orFail_some ..), bind_apply_ok _ _ (modifyOwn_apply ..),
    bind_apply_ok _ _ hupdate, bind_apply_ok _ _ (own_apply ..), bind_apply_ok _ _ (note_apply ..)]
  exact Or.inr ⟨start, rfl, hgranted, rfl⟩

/-- Chaining gives a chunk of free blocks, or fails and changes nothing. -/
theorem Sound.extend (h : Sound machine list) (environment : Environment) :
    ∃ result machine' after, FixedList.extend environment (machine, list) =
        (result, machine', after) ∧
      Sound machine' after ∧ Evolves (fun _ => False) list after ∧
      (result = .error (.failure (.outOfMemory list.chunkSize)) ∨
        ∃ start chunk, result = .ok start ∧ (start, chunk) ∈ after.chunks.toList ∧
          chunk.free = some headerSize) := by
  obtain ⟨_, middle, -, ⟨-, hrefused, hrun⟩ | ⟨start, -, hgranted, hrun⟩⟩ :=
    extend_cases h.whole environment machine
  · exact ⟨_, _, _, hrun, h.of_machine fun _ _ hheld => hrefused.ledger ▸ hheld,
      Evolves.refl .., Or.inl rfl⟩
  have hsize : list.fresh.size = list.chunkSize := rfl
  obtain ⟨hsound, hevolves, hmem⟩ := h.append hgranted hsize rfl
    (stocked_freeAll rfl h.large h.positive h.room h.full)
  exact ⟨_, _, _, hrun, hsound.of_log _, hevolves,
    Or.inr ⟨start, list.fresh, rfl, hmem, rfl⟩⟩

/-! ## Allocating -/

/-- The chunk in which a free block is found, or that is chained for one. -/
theorem available?_cases (list : FixedList) :
    list.available? = none ∨ ∃ start chunk offset, list.available? = some (start, offset) ∧
      (start, chunk) ∈ list.chunks.toList ∧ chunk.free = some offset := by
  cases hfound : list.available? with
  | none => exact Or.inl rfl
  | some found =>
    obtain ⟨⟨start, chunk⟩, hmem, hmap⟩ := List.exists_of_findSome?_eq_some hfound
    obtain ⟨offset, hfree, rfl⟩ := Option.map_eq_some_iff.1 hmap
    exact Or.inr ⟨start, chunk, offset, rfl, hmem, hfree⟩

/-- Allocating either fails and keeps all blocks, or hands out a block that nobody had. -/
theorem Sound.allocate (h : Sound machine list) (environment : Environment) (size : Nat) :
    ∃ result machine' after, FixedList.allocate size environment (machine, list) =
        (result, machine', after) ∧ Sound machine' after ∧
      ((∃ failure, result = .error (.failure failure)) ∧ Evolves (fun _ => False) list after ∨
        ∃ address, result = .ok address ∧ Provides machine' list address after) := by
  rw [FixedList.allocate, bind_apply_ok _ _ (own_apply ..)]
  simp only
  split
  · exact ⟨_, _, _, rfl, h, Or.inl ⟨⟨_, rfl⟩, Evolves.refl ..⟩⟩
  -- whichever chunk the block is in, it is taken in the same way
  have hgive : ∀ {middle : Machine} {between : FixedList} {start : Nat} {chunk : FixedChunk}
      {offset : Nat}, Sound middle between → Evolves (fun _ => False) list between →
      (start, chunk) ∈ between.chunks.toList → chunk.free = some offset →
      ∃ result machine' after, (do
          let address ← FixedList.take start offset
          note (.fixedTaken address)
          return address : Procedure (Machine × FixedList) Nat) environment (middle, between) =
            (result, machine', after) ∧ Sound machine' after ∧
          ((∃ failure, result = .error (.failure failure)) ∧ Evolves (fun _ => False) list after ∨
            ∃ address, result = .ok address ∧ Provides machine' list address after) := by
    intro middle between start chunk offset hsound hevolves hmem hfree
    obtain ⟨after, htake, hprovides⟩ := hsound.take hmem hfree environment
    rw [bind_apply_ok _ _ htake, bind_apply_ok _ _ (note_apply ..)]
    let noted : Machine := { middle with log := .fixedTaken (start + offset) :: middle.log }
    have hafter : Sound noted after := hprovides.sound.of_log _
    refine ⟨_, _, _, rfl, hafter, Or.inr ⟨_, rfl, hafter, ?_, ?_, hprovides.used, ?_⟩⟩
    · exact (hevolves.mono fun _ hnever => hnever.elim).trans hprovides.evolves
    · exact fun huses => hprovides.unused ((hevolves.uses _ not_false).2 huses)
    · rw [hprovides.zero, hevolves.blockSize]
  rcases available?_cases list with hnone | ⟨start, chunk, offset, hsome, hmem, hfree⟩
  · rw [hnone]
    simp only
    split
    · obtain ⟨result, middle, between, hextend, hsound, hevolves, hcases⟩ :=
        h.extend environment
      rcases hcases with rfl | ⟨start, chunk, rfl, hmem, hfree⟩
      · rw [bind_apply_error _ _ hextend]
        exact ⟨_, _, _, rfl, hsound, Or.inl ⟨⟨_, rfl⟩, hevolves⟩⟩
      · rw [bind_apply_ok _ _ hextend]
        exact hgive hsound hevolves hmem hfree
    · rw [bind_apply_ok _ _ (note_apply ..)]
      exact ⟨_, _, _, rfl, h.of_log _, Or.inl ⟨⟨_, rfl⟩, Evolves.refl ..⟩⟩
  · rw [hsome]
    exact hgive h (Evolves.refl ..) hmem hfree

/-! ## Giving a block back -/

/-- A block that its chunk counts is put on top of the free ones. -/
theorem Sound.free_apply (h : Sound machine list) (hmem : (start, chunk) ∈ list.chunks.toList)
    (stocked : chunk.Stocked list.blockSize list.blocksPerChunk stock) (uses : stock.Uses index)
    (environment : Environment) :
    FixedList.free (start + blockOffset list.blockSize index) environment (machine, list) =
      (.ok (),
        { machine with
          log := .fixedReturned (start + blockOffset list.blockSize index) :: machine.log },
        list.changed start (chunk.give (blockOffset list.blockSize index)) (list.inUse - 1)) ∧
      chunk.inUse ≤ list.inUse := by
  have hlt := stocked.index_lt uses
  obtain ⟨-, hpositive⟩ := stocked.give uses
  -- the counter of the list is the sum of those of its chunks, so it is not zero either
  have htotal : chunk.inUse ≤ list.inUse := by
    rw [h.counted]
    exact List.single_le_sum (fun _ _ => Nat.zero_le _) _
      (List.mem_map.2 ⟨(start, chunk), hmem, rfl⟩)
  have hplace : start + blockOffset list.blockSize index - start =
      blockOffset list.blockSize index := Nat.add_sub_cancel_left ..
  have hstart : (start + blockOffset list.blockSize index - start - headerSize) %
      list.blockSize = 0 := by
    rw [hplace, blockOffset, Nat.add_sub_cancel_left]
    exact Nat.mul_mod_left ..
  have hupdate := updateChunk_eq (.ok <| ·.give (blockOffset list.blockSize index))
    (h.get?_eq hmem) rfl environment machine
  have hless : Size.sub list.inUse 1 = .ok (list.inUse - 1) := by
    rw [Size.sub, if_pos (by omega)]
  rw [FixedList.free, bind_apply_ok _ _ (own_apply ..)]
  simp only [h.chunkOf?_eq hmem hlt]
  rw [bind_apply_ok _ _ (ensure_apply _ hstart _ _),
    bind_apply_ok _ _ (ensure_apply _ hpositive _ _), hplace, bind_apply_ok _ _ hupdate,
    hless, bind_apply_ok _ _ (checked_ok ..),
    bind_apply_ok _ _ (modifyOwn_apply ..)]
  exact ⟨rfl, htotal⟩

/-- A block in use is taken back. -/
theorem Sound.free (h : Sound machine list) (huses : list.Uses address)
    (environment : Environment) :
    ∃ machine' after, FixedList.free address environment (machine, list) =
        (.ok (), machine', after) ∧ Sound machine' after ∧
      Evolves (· = address) list after ∧ ¬ after.Uses address := by
  obtain ⟨start, chunk, stock, index, hmem, stocked, hindex, rfl⟩ := huses
  have hlt := stocked.index_lt hindex
  obtain ⟨hevolves, hpositive⟩ := stocked.give hindex
  obtain ⟨hrun, htotal⟩ := h.free_apply hmem stocked hindex environment
  have hcounted : list.inUse - 1 + chunk.inUse =
      list.inUse + (chunk.give (blockOffset list.blockSize index)).inUse := by
    simp only [FixedChunk.give]
    omega
  have hsound := h.change hmem hevolves hcounted
  refine ⟨_, _, hrun, hsound.of_log _,
    h.evolves_change hmem hevolves stocked hcounted, ?_⟩
  intro huses
  exact ((hsound.uses_iff (h.mem_changed hmem _ _) hevolves.stocked hlt).1 huses).2
    (List.mem_cons_self ..)

/-! ## Writing into a block -/

/-- Writing into a block writes into the memory of its chunk. -/
theorem Sound.write_apply (h : Sound machine list) (hmem : (start, chunk) ∈ list.chunks.toList)
    (hlt : index < list.blocksPerChunk) (offset : Nat) (content : Stretch FreeLink)
    (environment : Environment) :
    FixedList.write (start + blockOffset list.blockSize index) offset content environment
        (machine, list) =
      (.ok (), machine, list.changed start { chunk with
        memory := chunk.memory.write (blockOffset list.blockSize index + offset) content }
        list.inUse) := by
  have hplace : start + blockOffset list.blockSize index - start =
      blockOffset list.blockSize index := Nat.add_sub_cancel_left ..
  rw [FixedList.write, bind_apply_ok _ _ (own_apply ..)]
  simp only [h.chunkHolding?_eq hmem hlt, hplace]
  exact updateChunk_eq (fun chunk => .ok { chunk with
    memory := chunk.memory.write (blockOffset list.blockSize index + offset) content })
    (h.get?_eq hmem) rfl environment machine

/-- Writing within a block in use keeps all other blocks. -/
theorem Sound.write (h : Sound machine list) (huses : list.Uses address)
    {content : Stretch FreeLink} (fits : offset + content.length ≤ list.blockSize)
    (environment : Environment) :
    ∃ after, FixedList.write address offset content environment (machine, list) =
        (.ok (), machine, after) ∧ Sound machine after ∧ Evolves (· = address) list after ∧
      after.Uses address := by
  obtain ⟨start, chunk, stock, index, hmem, stocked, hindex, rfl⟩ := huses
  have hlt := stocked.index_lt hindex
  have hevolves := stocked.write hindex fits
  have hsound : Sound machine (list.changed start _ list.inUse) := h.change hmem hevolves rfl
  exact ⟨_, h.write_apply hmem hlt offset content environment, hsound,
    h.evolves_change hmem hevolves stocked rfl,
    (hsound.uses_iff (h.mem_changed hmem _ _) hevolves.stocked hlt).2 hindex⟩

/-! ## Forgetting every block -/

/-- The loop over the chunks frees all blocks of those that are still to be visited. -/
theorem freeEach_apply (environment : Environment) (machine : Machine)
    {done todo : List (Nat × FixedChunk)} (hsequence : list.chunks.IsSequence (done ++ todo)) :
    ∃ chunks : Chain FixedChunk, freeEach (todo.map Prod.fst) environment (machine, list) =
        (.ok (), machine, { list with chunks := chunks }) ∧
      chunks.IsSequence (done ++ todo.map fun entry => (entry.1, entry.2.freeAll)) := by
  induction todo generalizing list done with
  | nil => exact ⟨list.chunks, rfl, hsequence⟩
  | cons entry rest ih =>
    obtain ⟨start, chunk⟩ := entry
    have hfound := hsequence.get?_eq_some_iff.2
      (show (start, chunk) ∈ done ++ (start, chunk) :: rest by simp)
    have hput : (list.changed start chunk.freeAll list.inUse).chunks.IsSequence
        (done ++ [(start, chunk.freeAll)] ++ rest) := by
      have hput := hsequence.put start chunk.freeAll
      rwa [Chain.replaced_middle hsequence.distinct, List.append_cons] at hput
    obtain ⟨chunks, hrun, hsequence'⟩ := ih hput
    refine ⟨chunks, ?_, by simpa using hsequence'⟩
    rw [List.map_cons, freeEach,
      bind_apply_ok _ _ (updateChunk_eq (.ok ·.freeAll) hfound rfl _ _)]
    exact hrun

/-- A list whose chunks hold free blocks only uses no block. -/
theorem Sound.freeAll (h : Sound machine list) {chunks : Chain FixedChunk}
    (hsequence : chunks.IsSequence
      (list.chunks.toList.map fun entry => (entry.1, entry.2.freeAll))) :
    Sound machine { list with chunks := chunks, inUse := 0 } ∧
      ∀ address, ¬ FixedList.Uses { list with chunks := chunks, inUse := 0 } address := by
  have hlist := hsequence.toList_eq
  -- each chunk is an old one with all of its blocks given back
  have hold : ∀ entry ∈ chunks.toList, ∃ old, (entry.1, old) ∈ list.chunks.toList ∧
      entry.2 = old.freeAll := by
    intro entry hentry
    obtain ⟨old, hmem, rfl⟩ := List.mem_map.1 (hlist ▸ hentry)
    exact ⟨old.2, hmem, rfl⟩
  have hstocked : ∀ entry ∈ chunks.toList,
      entry.2.Stocked list.blockSize list.blocksPerChunk ⟨[], 0⟩ := by
    intro entry hentry
    obtain ⟨old, hmem, heq⟩ := hold entry hentry
    obtain ⟨stock, stocked⟩ := (h.laid _ _ hmem).stocked
    exact heq ▸ stocked_freeAll stocked.length h.large h.positive stocked.room stocked.full
  refine ⟨⟨hlist ▸ hsequence, h.large, h.positive, h.room, h.full, h.whole, ?_, ?_, ?_⟩, ?_⟩
  · intro start chunk hentry
    obtain ⟨old, hmem, heq⟩ := hold _ hentry
    have hlaid := h.laid _ _ hmem
    obtain rfl : chunk = old.freeAll := heq
    exact ⟨hlaid.size, hlaid.held, _, hstocked _ hentry⟩
  · intro p hp q hq
    obtain ⟨oldp, hp, -⟩ := hold p hp
    obtain ⟨oldq, hq, -⟩ := hold q hq
    exact h.apart (p.1, oldp) hp (q.1, oldq) hq
  · have hidle : ∀ entry ∈ chunks.toList, entry.2.inUse = 0 := by
      intro entry hentry
      obtain ⟨old, -, heq⟩ := hold entry hentry
      rw [heq]
      rfl
    rw [List.map_congr_left hidle]
    simp
  · rintro _ ⟨start, chunk, stock, index, hentry, hfound, huses, rfl⟩
    obtain rfl := (hstocked _ hentry).unique hfound
    exact absurd huses.1 (Nat.not_lt_zero _)

/-- Clearing frees all blocks of every chunk. -/
theorem Sound.clear_apply (h : Sound machine list) (environment : Environment) :
    ∃ chunks : Chain FixedChunk, FixedList.clear environment (machine, list) =
        (.ok (), machine, { list with chunks := chunks, inUse := 0 }) ∧
      chunks.IsSequence (list.chunks.toList.map fun entry => (entry.1, entry.2.freeAll)) := by
  have hstart : list.chunks.IsSequence ([] ++ list.chunks.toList) := h.sequence
  obtain ⟨chunks, hrun, hsequence⟩ := freeEach_apply environment machine hstart
  refine ⟨chunks, ?_, hsequence⟩
  rw [FixedList.clear, bind_apply_ok _ _ (own_apply ..)]
  simp only [h.sequence.addresses_eq]
  rw [bind_apply_ok _ _ hrun]
  rfl

/-- Clearing succeeds and leaves no block in use. -/
theorem Sound.clear (h : Sound machine list) (environment : Environment) :
    ∃ after, FixedList.clear environment (machine, list) = (.ok (), machine, after) ∧
      Sound machine after ∧ after.blockSize = list.blockSize ∧
      after.blocksPerChunk = list.blocksPerChunk ∧ ∀ address, ¬ after.Uses address := by
  obtain ⟨chunks, hrun, hsequence⟩ := h.clear_apply environment
  obtain ⟨hsound, hnone⟩ := h.freeAll hsequence
  exact ⟨_, hrun, hsound, rfl, rfl, hnone⟩

/-! ## Making a list -/

/-- A planned list has no chunk yet. Its chunks will be whole pages that hold at least one block. -/
theorem plan_cases {config : FixedConfig} (hplan : plan config = .ok list) :
    linkSize ≤ list.blockSize ∧ headerSize + list.blockSize ≤ list.chunkSize ∧
      Size.pageSize ∣ list.chunkSize ∧
      list.blocksPerChunk = (list.chunkSize - headerSize) / list.blockSize ∧
      list.chunks = .empty ∧ list.inUse = 0 := by
  unfold plan at hplan
  split at hplan
  · split at hplan
    · rename_i chunkSize hpages
      dsimp only at hplan
      split at hplan
      · rename_i least hleast
        split at hplan
        · cases hplan
        · rename_i henough
          obtain rfl := Except.ok.inj hplan
          refine ⟨Nat.le_max_right .., ?_, Size.dvd_of_roundToPages?_eq_some hpages, rfl, rfl, rfl⟩
          obtain ⟨sum, hsum, rfl⟩ := Option.map_eq_some_iff.1 hleast
          rw [Size.add?] at hsum
          split at hsum
          · cases hsum
            exact Nat.le_trans (Nat.le_max_left ..) (Nat.le_of_not_lt henough)
          · cases hsum
      · cases hplan
    · cases hplan
  · cases hplan

theorem sound_plan {config : FixedConfig} (hplan : plan config = .ok list) (machine : Machine) :
    Sound machine list := by
  obtain ⟨hlarge, hfits, hwhole, hcount, hchunks, hidle⟩ := plan_cases hplan
  have hempty : list.chunks.toList = [] := by
    rw [hchunks]
    exact Chain.isSequence_empty.toList_eq
  have hpositive : 0 < list.blockSize := Nat.lt_of_lt_of_le (by decide) hlarge
  have hdiv := Nat.div_add_mod (list.chunkSize - headerSize) list.blockSize
  have hmod := Nat.mod_lt (list.chunkSize - headerSize) hpositive
  rw [Nat.mul_comm, ← hcount] at hdiv
  refine ⟨?_, hlarge, ?_, ?_, ?_, hwhole, ?_, ?_, ?_⟩
  · rw [hempty, hchunks]
    exact Chain.isSequence_empty
  · rw [hcount]
    exact Nat.div_pos (by omega) hpositive
  · rw [blockOffset]
    omega
  · rw [blockOffset, Nat.succ_mul]
    omega
  · simp [hempty]
  · simp [hempty]
  · simp [hempty, hidle]

/-- A list that was made has no block in use. -/
theorem sound_ofConfig {config : FixedConfig}
    (hrun : ofConfig config environment machine = (.ok list, machine')) :
    Sound machine' list ∧ ∀ address, ¬ list.Uses address := by
  rw [ofConfig] at hrun
  cases hplan : plan config with
  | error failure =>
    rw [hplan] at hrun
    cases hrun
  | ok planned =>
    have hsound := sound_plan hplan machine
    obtain ⟨-, -, -, -, hchunks, -⟩ := plan_cases hplan
    obtain ⟨result, middle, after, hextend, hafter, hevolves, hcases⟩ :=
      hsound.extend environment
    simp only [hplan, making, cleanedBy, hextend] at hrun
    rcases hcases with rfl | ⟨start, chunk, rfl, -, -⟩
    · cases hrun
    · cases hrun
      refine ⟨hafter, fun address huses => ?_⟩
      obtain ⟨place, other, -, -, hmem, -⟩ := (hevolves.uses address not_false).1 huses
      rw [hchunks, Chain.isSequence_empty.toList_eq] at hmem
      cases hmem

end PagedAlloc.FixedList
