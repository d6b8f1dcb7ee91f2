import PagedAlloc.Proofs.FixedMappings
import PagedAlloc.Proofs.Rounding

/-!
# Making a fixed list

Whatever sizes are asked for, making a fixed list comes to a list or to one of three failures, and
which one is a matter of the sizes after rounding and of the kernel (`construction`). A list that
was made has as many blocks in a chunk as fit behind its header. The end of a chunk is tested in two
places, where the mark is handed on to the next block and where the chunk of an address is looked
for, and both admit the same blocks (`Fits`).
-/

namespace PagedAlloc.FixedList

variable {paging : Size.Paging}

open FixedChunk Procedure

/-- The sizes of blocks and chunks and of a chunk with one block fit a machine word. -/
def Representable (blockSize chunkSize : Nat) : Prop :=
  blockSize < Size.limit ∧ chunkSize < Size.limit ∧ headerSize + blockSize < Size.limit

/-- A list that was just made with blocks and chunks of these sizes. -/
structure Fits (list : FixedList) (blockSize chunkSize : Nat) : Prop where
  blockSize_eq : list.blockSize = blockSize
  chunkSize_eq : list.chunkSize = chunkSize
  small : chunkSize < Size.limit
  positive : 1 ≤ list.blocksPerChunk
  greatest : IsGreatest {count | headerSize + count * blockSize ≤ chunkSize} list.blocksPerChunk
  marks : ∀ (chunk : FixedChunk) (start index : Nat) (next : Option Nat),
    chunk.size = chunkSize →
      chunk.memory.record? (blockOffset blockSize index) linkSize = some ⟨next, true⟩ →
        ∃ chunk', chunk.take start (blockOffset blockSize index) blockSize = .ok chunk' ∧
          chunk'.free = if index + 1 < list.blocksPerChunk then
            some (blockOffset blockSize (index + 1)) else none
  owns : ∃ start chunk, list.chunks.toList = [(start, chunk)] ∧ chunk.size = chunkSize ∧
    ∀ index, list.contains (start + blockOffset blockSize index) = true ↔
      index < list.blocksPerChunk

/-- What may come of making a list whose sizes are these ones after rounding. -/
structure Constructs (config : FixedConfig) (blockSize chunkSize : Nat) (grants : Bool)
    (result : Except Stop FixedList) : Prop where
  faultless : ∀ fault, result ≠ .error (.fault fault)
  fits : ∀ list, result = .ok list → list.Fits blockSize chunkSize
  chunkTooSmall : (∃ asked rounded, result = .error (.failure (.chunkTooSmall asked rounded))) ↔
    Representable blockSize chunkSize ∧ chunkSize < max (headerSize + blockSize) (2 * headerSize)
  overflow : result = .error (.failure .overflow) ↔ ¬ Representable blockSize chunkSize
  outOfMemory : ∀ size, result = .error (.failure (.outOfMemory size)) → grants = false
  failures : ∀ failure, result = .error (.failure failure) →
    failure ∈ [.overflow, .chunkTooSmall config.chunkSize blockSize, .outOfMemory chunkSize]

variable {environment : Environment} {machine machine' : Machine} {list : FixedList}
  {config : FixedConfig} {blockSize chunkSize : Nat}

/-! ## Sizes -/

/-- Every configuration has sizes after rounding, whether they fit a machine word or not. -/
theorem exists_sizes (config : FixedConfig) : ∃ blockSize chunkSize,
    IsLeast {size | Size.pointerSize ∣ size ∧ max config.blockSize linkSize ≤ size} blockSize ∧
      IsLeast {size | Size.pageSize ∣ size ∧ config.chunkSize ≤ size} chunkSize :=
  ⟨_, _, Size.isLeast_roundDown (by decide) _, Size.isLeast_roundDown Size.pageSize_pos _⟩

theorem linkSize_le_of_isLeast
    (least : IsLeast {size | Size.pointerSize ∣ size ∧ max config.blockSize linkSize ≤ size}
      blockSize) : linkSize ≤ blockSize :=
  (le_max_right ..).trans least.1.2

/-- A plan fails for one of two reasons, or has the sizes after rounding. -/
theorem plan_outcome
    (hblock : IsLeast {size | Size.pointerSize ∣ size ∧ max config.blockSize linkSize ≤ size}
      blockSize)
    (hchunk : IsLeast {size | Size.pageSize ∣ size ∧ config.chunkSize ≤ size} chunkSize) :
    ¬ Representable blockSize chunkSize ∧ plan config = .error .overflow ∨
      Representable blockSize chunkSize ∧
          chunkSize < max (headerSize + blockSize) (2 * headerSize) ∧
          plan config = .error (.chunkTooSmall config.chunkSize blockSize) ∨
      Representable blockSize chunkSize ∧
          max (headerSize + blockSize) (2 * headerSize) ≤ chunkSize ∧
          plan config = .ok ⟨.empty, blockSize, chunkSize, (chunkSize - headerSize) / blockSize,
            config.mayExtend, 0⟩ := by
  have hround := Size.isLeast_roundDown (show 0 < Size.pointerSize by decide) config.blockSize
  -- the sizes stay as they are rounded, so that each test is about one number
  generalize Size.roundDown (config.blockSize + (Size.pointerSize - 1)) Size.pointerSize =
    rounded at hround
  obtain rfl := hblock.unique (Size.isLeast_max hround (show Size.pointerSize ∣ linkSize by decide))
  have hlink : linkSize < Size.limit := by decide
  simp only [plan, Size.roundToPages?, minSize?, Size.add?,
    Size.roundUp?_eq (by decide) (by decide) hround,
    Size.roundUp?_eq Size.pageSize_pos Size.pageSize_dvd_limit hchunk]
  by_cases hrounded : rounded < Size.limit
  · have hmax : max rounded linkSize < Size.limit := max_lt hrounded hlink
    rw [if_pos hrounded]
    by_cases hpages : chunkSize < Size.limit
    · simp only [if_pos hpages]
      by_cases hsum : headerSize + max rounded linkSize < Size.limit
      · simp only [if_pos hsum, Option.map_some]
        by_cases hsmall : chunkSize < max (headerSize + max rounded linkSize) (2 * headerSize)
        · exact Or.inr (Or.inl ⟨⟨hmax, hpages, hsum⟩, hsmall, by rw [if_pos hsmall]; rfl⟩)
        · exact Or.inr (Or.inr ⟨⟨hmax, hpages, hsum⟩, Nat.le_of_not_lt hsmall,
            by rw [if_neg hsmall]; rfl⟩)
      · simp only [if_neg hsum, Option.map_none]
        exact Or.inl ⟨fun hfits => hsum hfits.2.2, rfl⟩
    · simp only [if_neg hpages]
      exact Or.inl ⟨fun hfits => hpages hfits.2.1, rfl⟩
  · rw [if_neg hrounded]
    exact Or.inl ⟨fun hfits => hrounded (Nat.lt_of_le_of_lt (le_max_left ..) hfits.1), rfl⟩

/-! ## The list that was made -/

/-- A list that was made is a plan with a chunk. -/
theorem ofConfig_cases (planned : plan config = .ok list) (environment : Environment)
    (machine : Machine) :
    ∃ result machine', Pages.map list.chunkSize environment machine = (.ok result, machine') ∧
      (result = none ∧ (ofConfig config environment machine).1 =
          .error (.failure (.outOfMemory list.chunkSize)) ∨
        ∃ start, result = some start ∧
          (ofConfig config environment machine).1 =
            .ok { list with chunks := list.chunks.append start list.fresh }) := by
  obtain ⟨-, -, hwhole, -, -, -⟩ := plan_cases planned
  obtain ⟨result, middle, hmap, hcases⟩ := extend_cases hwhole environment machine
  refine ⟨result, middle, hmap, ?_⟩
  rcases hcases with ⟨rfl, -, hrun⟩ | ⟨start, rfl, -, hrun⟩
  · exact Or.inl ⟨rfl, by simp only [ofConfig, planned, making, cleanedBy, hrun]; rfl⟩
  · exact Or.inr ⟨start, rfl, by simp only [ofConfig, planned, making, cleanedBy, hrun]; rfl⟩

/-- A list that was made has one chunk, of the planned kind. -/
theorem ofConfig_made (hmade : (ofConfig config environment machine).1 = .ok list) :
    ∃ planned start, plan config = .ok planned ∧ planned.chunks = .empty ∧ planned.inUse = 0 ∧
      planned.mayExtend = config.mayExtend ∧ planned.chunkSize < Size.limit ∧
      list = { planned with chunks := planned.chunks.append start planned.fresh } := by
  obtain ⟨blockSize, chunkSize, hblock, hchunk⟩ := exists_sizes config
  rcases plan_outcome hblock hchunk with ⟨-, hplan⟩ | ⟨-, -, hplan⟩ | ⟨hfits, -, hplan⟩
  · rw [ofConfig, hplan] at hmade
    cases hmade
  · rw [ofConfig, hplan] at hmade
    cases hmade
  · obtain ⟨result, middle, -, ⟨-, hresult⟩ | ⟨start, -, hresult⟩⟩ :=
      ofConfig_cases hplan environment machine
    · cases hmade.symm.trans hresult
    · exact ⟨_, start, hplan, rfl, rfl, rfl, hfits.2.1,
        Except.ok.inj (hmade.symm.trans hresult)⟩

/-- A session starts with one chunk, no block in use, and sizes that fit a machine word. -/
theorem Session.start_made {session : Session}
    (hstart : Session.start config environment machine = .ok session) :
    session.list.chunks.length = 1 ∧ session.list.inUse = 0 ∧
      session.list.mayExtend = config.mayExtend ∧ session.list.chunkSize < Size.limit := by
  rw [Session.start] at hstart
  rcases hmade : ofConfig config environment machine with ⟨reason | list, machine'⟩
  · rw [hmade] at hstart
    cases hstart
  · rw [hmade] at hstart
    obtain rfl := Except.ok.inj hstart
    obtain ⟨planned, start, -, hchunks, hinUse, hextend, hsmall, rfl⟩ :=
      ofConfig_made (congrArg Prod.fst hmade)
    refine ⟨?_, hinUse, hextend, hsmall⟩
    rw [hchunks]
    rfl

/-- As many blocks fit behind the header as a chunk is said to have. -/
theorem blocks_fit_iff (positive : 0 < blockSize) (room : headerSize ≤ chunkSize) {count : Nat} :
    headerSize + count * blockSize ≤ chunkSize ↔ count ≤ (chunkSize - headerSize) / blockSize := by
  rw [Nat.le_div_iff_mul_le positive, Nat.le_sub_iff_add_le' room]

/-- The mark goes on to the next block just if that is one of the blocks of the chunk. -/
theorem take_marks {chunk : FixedChunk} {start index : Nat} {next : Option Nat}
    (positive : 0 < blockSize) (room : headerSize ≤ chunk.size)
    (found : chunk.memory.record? (blockOffset blockSize index) linkSize = some ⟨next, true⟩) :
    ∃ chunk', chunk.take start (blockOffset blockSize index) blockSize = .ok chunk' ∧
      chunk'.free = if index + 1 < (chunk.size - headerSize) / blockSize then
        some (blockOffset blockSize (index + 1)) else none := by
  have hmore : blockOffset blockSize (index + 1 + 1) ≤ chunk.size ↔
      index + 1 < (chunk.size - headerSize) / blockSize :=
    blocks_fit_iff positive room
  simp only [FixedChunk.take, found, Bool.true_and, decide_eq_true_eq, if_true,
    ← blockOffset_succ, hmore]
  exact ⟨_, rfl, rfl⟩

/-- An address is looked for among the blocks of a single chunk only. -/
theorem contains_iff {start index : Nat} {chunk : FixedChunk}
    (single : list.chunks.toList = [(start, chunk)]) (positive : 0 < list.blockSize) :
    list.contains (start + blockOffset list.blockSize index) = true ↔
      index < list.blocksPerChunk := by
  rw [contains, chunkOf?, single, List.find?_isSome]
  simp only [List.mem_singleton, exists_eq_left, Bool.and_eq_true, decide_eq_true_eq, blockOffset,
    ← Nat.add_assoc, Nat.add_lt_add_iff_left, Nat.mul_lt_mul_right positive]
  exact and_iff_right (Nat.le_add_right ..)

/-- A planned list fits once its first chunk is chained. -/
theorem fits_chained {start : Nat} {mayExtend : Bool}
    (large : linkSize ≤ blockSize) (small : chunkSize < Size.limit)
    (enough : headerSize + blockSize ≤ chunkSize) :
    let planned : FixedList := ⟨.empty, blockSize, chunkSize, (chunkSize - headerSize) / blockSize,
      mayExtend, 0⟩
    Fits { planned with chunks := planned.chunks.append start planned.fresh }
      blockSize chunkSize := by
  intro planned
  have hpositive : 0 < blockSize := Nat.lt_of_lt_of_le (by decide) large
  have hroom : headerSize ≤ chunkSize := Nat.le_trans (Nat.le_add_right ..) enough
  have hsingle : (planned.chunks.append start planned.fresh).toList = [(start, planned.fresh)] :=
    (Chain.isSequence_empty.append List.not_mem_nil planned.fresh).toList_eq
  refine ⟨rfl, rfl, small, ?_, ⟨?_, fun count hcount => ?_⟩, ?_, ?_⟩
  · exact (blocks_fit_iff hpositive hroom).1 (by rwa [Nat.one_mul])
  · exact (blocks_fit_iff hpositive hroom).2 (Nat.le_refl _)
  · exact (blocks_fit_iff hpositive hroom).1 hcount
  · rintro chunk start index next rfl hfound
    exact take_marks hpositive hroom hfound
  · exact ⟨start, planned.fresh, hsingle, rfl, fun index => contains_iff hsingle hpositive⟩

/-- The cleanup after a refusal has no chunk to give back, so it does not stop. -/
theorem release_planned (planned : plan config = .ok list) (environment : Environment)
    (machine : Machine) : (release environment (machine, list)).1 = .ok () := by
  obtain ⟨-, -, -, -, hchunks, -⟩ := plan_cases planned
  rw [release_apply, hchunks]
  rfl

/-! ## Outcomes -/

/-- What comes of making a list follows from its sizes after rounding. -/
theorem constructs_ofConfig
    (hblock : IsLeast {size | Size.pointerSize ∣ size ∧ max config.blockSize linkSize ≤ size}
      blockSize)
    (hchunk : IsLeast {size | Size.pageSize ∣ size ∧ config.chunkSize ≤ size} chunkSize)
    (environment : Environment) (machine : Machine) :
    Constructs config blockSize chunkSize (environment.grantsPages machine.ledger chunkSize)
      (ofConfig config environment machine).1 := by
  rcases plan_outcome hblock hchunk with ⟨hover, hplan⟩ | ⟨hfits, hsmall, hplan⟩ |
    ⟨hfits, henough, hplan⟩
  · have hresult : (ofConfig config environment machine).1 = .error (.failure .overflow) := by
      rw [ofConfig, hplan]
      rfl
    rw [hresult]
    exact ⟨by simp, by simp, by simp [hover], by simp [hover], by simp, by simp⟩
  · have hresult : (ofConfig config environment machine).1 =
        .error (.failure (.chunkTooSmall config.chunkSize blockSize)) := by
      rw [ofConfig, hplan]
      rfl
    rw [hresult]
    exact ⟨by simp, by simp, by simp [hfits, hsmall], by simp [hfits], by simp, by simp⟩
  · have hnot := Nat.not_lt.2 henough
    have hroom : headerSize + blockSize ≤ chunkSize := (le_max_left ..).trans henough
    obtain ⟨result, middle, hmap, ⟨rfl, hresult⟩ | ⟨start, rfl, hresult⟩⟩ :=
      ofConfig_cases hplan environment machine
    all_goals rw [hresult]
    · -- the plan is good, so it is the kernel who refused
      have hrefused := Pages.grants_of_refused hchunk.1.1
        (Nat.lt_of_lt_of_le (by decide) ((Nat.le_add_right ..).trans hroom)) hfits.2.1 hmap
      exact ⟨by simp, by simp, by simp [hnot], by simp [hfits], by simp [hrefused], by simp⟩
    · refine ⟨by simp, ?_, by simp [hnot], by simp [hfits], by simp, by simp⟩
      rintro _ ⟨⟩
      exact fits_chained (linkSize_le_of_isLeast hblock) hfits.2.1 hroom

/-- What is rounded before the least chunk is computed is no less than the block that is made. -/
theorem enough_of_rounded {size rounded : Nat} (whole : Size.pointerSize ∣ rounded)
    (hle : size ≤ rounded)
    (hblock : IsLeast {other | Size.pointerSize ∣ other ∧ max size linkSize ≤ other} blockSize)
    (room : max (max (headerSize + rounded) (2 * headerSize)) FixedConfig.defaultChunkSize ≤
      chunkSize) :
    max (headerSize + blockSize) (2 * headerSize) ≤ chunkSize := by
  have hlink : Size.pointerSize ∣ linkSize := by decide
  have hblock : blockSize ≤ max rounded linkSize := by
    refine hblock.2 ⟨?_, max_le_max hle (Nat.le_refl _)⟩
    rcases Nat.le_total rounded linkSize with hless | hless
    · rwa [Nat.max_eq_right hless]
    · rwa [Nat.max_eq_left hless]
  simp only [headerSize, linkSize, FixedConfig.defaultChunkSize] at *
  omega

/-- Whatever the sizes, making a list gives a list that fits them or fails for the reason that the
rounded sizes or the kernel give. Neither the making nor the cleanup after a failure stops with a
fault. Chunks of the usual size are never too small. -/
theorem construction (environment : Environment) (machine : Machine) :
    (∀ config : FixedConfig, ∃ blockSize chunkSize,
      IsLeast {size | Size.pointerSize ∣ size ∧ max config.blockSize linkSize ≤ size} blockSize ∧
        IsLeast {size | Size.pageSize ∣ size ∧ config.chunkSize ≤ size} chunkSize ∧
          Constructs config blockSize chunkSize
            (environment.grantsPages machine.ledger chunkSize)
            (ofConfig config environment machine).1 ∧
          ∀ list machine, plan config = .ok list →
            (release environment (machine, list)).1 = .ok ()) ∧
      ∀ size asked rounded, (ofBlockSize size environment machine).1 ≠
        .error (.failure (.chunkTooSmall asked rounded)) := by
  constructor
  · intro config
    obtain ⟨blockSize, chunkSize, hblock, hchunk⟩ := exists_sizes config
    exact ⟨blockSize, chunkSize, hblock, hchunk,
      constructs_ofConfig hblock hchunk environment machine,
      fun list machine planned => release_planned planned environment machine⟩
  · intro size _ _ hresult
    obtain hlarge | ⟨rounded, hwhole, hle, hsame⟩ := ofBlockSize_cases size environment machine
    · rw [hlarge] at hresult
      cases hresult
    · rw [hsame] at hresult
      obtain ⟨blockSize, chunkSize, hblock, hchunk⟩ := exists_sizes ⟨size, _, true⟩
      -- a chunk size that was derived from the block size is never too small for it
      have hsmall := ((constructs_ofConfig hblock hchunk environment machine).chunkTooSmall.1
        ⟨_, _, hresult⟩).2
      exact Nat.not_lt.2 (enough_of_rounded hwhole hle hblock hchunk.1.2) hsmall

end PagedAlloc.FixedList

namespace PagedAlloc.FixedList

attribute [local instance] Size.Paging.common

example : (ofConfig ⟨4049, 4000, true⟩ .ordinary .fresh).1 =
    .error (.failure (.chunkTooSmall 4000 4056)) := rfl

example : (ofConfig ⟨4041, 4000, true⟩ .ordinary .fresh).1.map blocksPerChunk = .ok 1 := rfl

end PagedAlloc.FixedList
