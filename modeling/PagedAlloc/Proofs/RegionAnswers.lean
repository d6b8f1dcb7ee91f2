import PagedAlloc.Proofs.RegionContents

/-!
# Answers to requests for regions

Whoever asks for a region of some size is told its length or the reason of a refusal
(`Source.answer`). A region that may move is told the same when it is resized as a fresh request of
this size would be, whether it moves or not (`Region.answer_resize`), and the same when it is made
to move (`Region.answer_relocate`). What is left behind is given back, so only a heap that aborts
and a kernel that does not take pages back can stop a request for good.
-/

namespace PagedAlloc

variable {paging : Size.Paging}

/-- What a source answers to a request: the length of a fresh region, or why there is none. -/
def Source.answer [Size.Paging] (environment : Environment) (ledger : Ledger) (align : Nat)
    (source : Source) (size : Nat) : Except Stop Nat :=
  match source.family with
  | .pages =>
    match Size.roundToPages? size with
    | none => .error (.failure .overflow)
    | some length =>
      if environment.grantsPages ledger length then .ok length
      else .error (.failure (.outOfMemory length))
  | .heap =>
    if Heap.IsLayout size align then
      if environment.grantsHeap ledger size align then .ok size
      else .error (if source.aborts then .fault (.aborted size) else .failure (.outOfMemory size))
    else .error (.failure (.invalidLayout size align))

/-- The source that a region is resized from. -/
def Resizing.source : Resizing → Source
  | .heapOrAbort => .heapOrAbort
  | .heapOrFail => .heapOrFail
  | .noOp | .remapMayMove | .remapKeepAddress => .pageMap

/-- Sizes that regions of a family have: those that the heap can be told when they are given back,
and whole pages. -/
def Family.Suits [Size.Paging] (align : Nat) : Family → Nat → Prop
  | .heap, size => Heap.IsLayout size align
  | .pages, size => Size.pageSize ∣ size ∧ 0 < size ∧ size < Size.limit

open Procedure

variable {environment : Environment} {machine : Machine} {ledger : Ledger} {region : Region}
  {source : Source} {size newSize length align : Nat} {diagnostics : Diagnostics}

namespace Source

/-- For whole pages, only the kernel can refuse. -/
theorem answer_pages (hfamily : source.family = .pages)
    (hround : Size.roundToPages? size = some length) (environment : Environment)
    (ledger : Ledger) (align : Nat) :
    source.answer environment ledger align size =
      if environment.grantsPages ledger length then .ok length
      else .error (.failure (.outOfMemory length)) := by
  simp only [answer, hfamily, hround]

/-- What is granted is a layout just as long as was asked for, or whole pages that hold it. -/
theorem granted_of_answer (h : source.answer environment ledger align size = .ok length) :
    source.family = .heap ∧ Heap.IsLayout size align ∧ length = size ∨
      source.family = .pages ∧ Size.roundToPages? size = some length ∧
        environment.grantsPages ledger length = true := by
  cases hfamily : source.family with
  | heap =>
    simp only [answer, hfamily] at h
    split at h
    · rename_i hlayout
      split at h
      · exact Or.inl ⟨rfl, hlayout, (Except.ok.inj h).symm⟩
      · cases h
    · cases h
  | pages =>
    cases hround : Size.roundToPages? size with
    | none =>
      simp only [answer, hfamily, hround] at h
      cases h
    | some rounded =>
      rw [answer_pages hfamily hround] at h
      split at h
      · rename_i hgrants
        obtain rfl := Except.ok.inj h
        exact Or.inr ⟨rfl, rfl, hgrants⟩
      · cases h

/-- A region that was answered has a size that suits its family. -/
theorem suits_of_answer (positive : 0 < size)
    (h : source.answer environment ledger align size = .ok length) :
    source.family.Suits align length := by
  rcases granted_of_answer h with ⟨hfamily, hlayout, rfl⟩ | ⟨hfamily, hround, -⟩
  · rw [hfamily]
    exact hlayout
  · rw [hfamily]
    exact ⟨Size.dvd_of_roundToPages?_eq_some hround,
      Nat.lt_of_lt_of_le positive (Size.le_of_roundToPages?_eq_some hround),
      Size.lt_limit_of_roundToPages?_eq_some hround⟩

/-- Only a refusal of the heap ends the process. -/
theorem fault_of_answer {fault : Fault}
    (h : source.answer environment ledger align size = .error (.fault fault)) :
    source.aborts = true ∧ fault = .aborted size ∧
      environment.grantsHeap ledger size align = false := by
  cases hfamily : source.family with
  | heap =>
    simp only [answer, hfamily] at h
    split at h
    · split at h
      · cases h
      · rename_i hrefused
        split at h
        · rename_i haborts
          cases h
          exact ⟨haborts, rfl, Bool.eq_false_iff.2 hrefused⟩
        · cases h
    · cases h
  | pages =>
    cases hround : Size.roundToPages? size with
    | none =>
      simp only [answer, hfamily, hround] at h
      cases h
    | some length =>
      rw [answer_pages hfamily hround] at h
      split at h <;> cases h

end Source

/-- The kernel resizes a mapping where it is. -/
def Pages.growsHere (environment : Environment) (ledger : Ledger) (address old new : Nat) : Bool :=
  environment.grantsPages ledger new &&
    (new ≤ old || environment.growsInPlace ledger address old new &&
      ledger.Vacant (address + old) (address + new))

/-- Pages that are asked for are granted as the kernel decides. -/
theorem Pages.map_eq (environment : Environment) (machine : Machine)
    (hround : Size.roundToPages? size = some length) (positive : 0 < length) :
    ∃ found machine', Pages.map size environment machine = (.ok found, machine') ∧
      found.isSome = environment.grantsPages machine.ledger length := by
  have hwhole : (MapRequest.anonymous length).size % Size.pageSize = 0 :=
    Nat.mod_eq_zero_of_dvd (Size.dvd_of_roundToPages?_eq_some hround)
  have hpositive : ¬ (MapRequest.anonymous length).size = 0 := Nat.ne_of_gt positive
  have hgrant : ((MapRequest.anonymous length).flags.isAnonymous &&
      environment.grantsPages machine.ledger (MapRequest.anonymous length).size) =
        environment.grantsPages machine.ledger length := rfl
  unfold Pages.map
  generalize Size.roundToPages? size = rounded at hround ⊢
  subst hround
  simp only
  rw [Pages.serve, bind_apply_ok _ _ (ensure_apply _ hwhole _ _), if_neg hpositive,
    bind_apply_ok _ _ (environment_apply ..), bind_apply_ok _ _ (get_apply ..), hgrant]
  cases environment.grantsPages machine.ledger length with
  | false => exact ⟨none, _, rfl, rfl⟩
  | true => exact ⟨some _, _, rfl, rfl⟩

namespace Region

/-! ## Fresh regions -/

theorem ensureLayout_apply {σ : Type} (h : Heap.IsLayout size align) (environment : Environment)
    (state : σ) : ensureLayout size align environment state = (.ok (), state) := by
  rw [ensureLayout, if_pos h]
  rfl

theorem ensureLayout_apply_not {σ : Type} (h : ¬ Heap.IsLayout size align)
    (environment : Environment) (state : σ) :
    ensureLayout size align environment state =
      (.error (.failure (.invalidLayout size align)), state) := by
  rw [ensureLayout, if_neg h]
  rfl

/-- What a refusal comes to: the end of the process, or an error with the size that was asked for.
-/
theorem refused_apply (α : Type) (aborts : Bool) (size align : Nat) (event : Event)
    (environment : Environment) (machine : Machine) :
    ∃ machine', (refused aborts size align event : Procedure Machine α) environment machine =
      (.error (if aborts then .fault (.aborted size) else .failure (.outOfMemory size)),
        machine') := by
  cases aborts <;> exact ⟨_, rfl⟩

/-- A fresh heap region is granted or refused as its source answers. -/
theorem answer_allocateHeap [Size.Paging] (hfamily : source.family = .heap) (size align : Nat)
    (environment : Environment) (machine : Machine) :
    (allocateHeap source size align environment machine).1.map Region.length =
      source.answer environment machine.ledger align size := by
  rw [Source.answer, hfamily, allocateHeap]
  simp only
  by_cases hlayout : Heap.IsLayout size align
  · rw [if_pos hlayout, bind_apply_ok _ _ (ensureLayout_apply hlayout _ _)]
    by_cases hgrant : environment.grantsHeap machine.ledger size align = true
    · obtain ⟨address, machine', hrun⟩ : ∃ address machine',
          Heap.allocate size align environment machine = (.ok (some address), machine') := by
        rw [Heap.allocate, bind_apply_ok _ _ (environment_apply ..),
          bind_apply_ok _ _ (get_apply ..), if_pos hgrant]
        exact ⟨_, _, rfl⟩
      rw [bind_apply_ok _ _ hrun, if_pos hgrant]
      show Except.map Region.length (.ok (ofMemory address _)) = _
      cases source.zeroes <;> rfl
    · have hrun : Heap.allocate size align environment machine = (.ok none, machine) := by
        rw [Heap.allocate, bind_apply_ok _ _ (environment_apply ..),
          bind_apply_ok _ _ (get_apply ..), if_neg hgrant]
        rfl
      obtain ⟨machine', hrefused⟩ := refused_apply Region source.aborts size align
        (.heapRefused size) environment machine
      rw [bind_apply_ok _ _ hrun, if_neg hgrant]
      exact congrArg (fun run => run.1.map Region.length) hrefused
  · rw [if_neg hlayout, bind_apply_error _ _ (ensureLayout_apply_not hlayout _ _)]
    rfl

/-- A fresh mapping is answered as its source is. -/
theorem answer_allocatePages (positive : 0 < size) (power : Size.IsPowerOfTwo align)
    (small : align ≤ Size.pageSize) (environment : Environment) (machine : Machine) :
    (allocatePages size align environment machine).1.map Region.length =
      Source.pageMap.answer environment machine.ledger align size := by
  have hgood : ¬ (size = 0 ∨ ¬ Size.IsPowerOfTwo align ∨ Size.pageSize < align) := by
    simp only [not_or, Decidable.not_not, Nat.not_lt]
    exact ⟨Nat.ne_of_gt positive, power, small⟩
  rw [Source.answer, allocatePages, if_neg hgood]
  simp only [Source.family]
  cases hround : Size.roundToPages? size with
  | none => rfl
  | some length =>
    have hpositive : 0 < length :=
      Nat.lt_of_lt_of_le positive (Size.le_of_roundToPages?_eq_some hround)
    obtain ⟨found, machine', hmap, hfound⟩ := Pages.map_eq environment machine
      (Size.roundToPages?_eq_self (Size.dvd_of_roundToPages?_eq_some hround)
        (Size.lt_limit_of_roundToPages?_eq_some hround)) hpositive
    simp only [← hfound]
    rw [bind_apply_ok _ _ (orFail_some ..), bind_apply_ok _ _ hmap]
    cases found with
    | none => rfl
    | some address => rfl

/-- A fresh region is granted or refused as its source answers. -/
theorem answer_allocate (source : Source) (positive : 0 < size) (power : Size.IsPowerOfTwo align)
    (small : align ≤ Size.pageSize) (environment : Environment) (machine : Machine) :
    (allocate source size align environment machine).1.map Region.length =
      source.answer environment machine.ledger align size := by
  cases source with
  | pageMap => exact answer_allocatePages positive power small environment machine
  | heapOrAbort | heapOrFail | heapZeroedOrAbort | heapZeroedOrFail =>
    exact answer_allocateHeap rfl size align environment machine

/-! ## Giving back -/

/-- Giving a block back to the heap never fails. -/
theorem release_heap (h : Heap.IsLayout size align) (address : Nat) (environment : Environment)
    (machine : Machine) :
    ∃ machine', release .heapFree address size align environment machine = (.ok (), machine') := by
  unfold release
  dsimp only
  rw [if_pos h]
  exact ⟨_, rfl⟩

/-- Giving back a region of a size that suits its family succeeds, unless the kernel does not take
pages back. -/
theorem release_cases {disposal : Disposal} (h : disposal.family.Suits align size) (address : Nat)
    (environment : Environment) (machine : Machine) :
    ∃ result machine', release disposal address size align environment machine =
        (result, machine') ∧
      (result = .ok () ∨ result = .error (.fault (.unmapRefused size address)) ∧
        disposal = .pageUnmap ∧ environment.grantsUnmap machine.ledger address size = false) := by
  cases disposal with
  | heapFree =>
    obtain ⟨machine', hrun⟩ := release_heap h address environment machine
    exact ⟨_, machine', hrun, Or.inl rfl⟩
  | pageUnmap =>
    obtain ⟨hwhole, -, hsmall⟩ := h
    -- the length of a mapping is whole pages already, so only the kernel can refuse
    have hround := Size.roundToPages?_eq_self hwhole hsmall
    unfold release
    dsimp only
    generalize Size.roundToPages? size = rounded at hround ⊢
    subst hround
    dsimp only
    rw [Pages.unmap, bind_apply_ok _ _ (ensure_apply _ (Nat.mod_eq_zero_of_dvd hwhole) _ _),
      bind_apply_ok _ _ (emit_apply ..), bind_apply_ok _ _ (environment_apply ..),
      bind_apply_ok _ _ (get_apply ..), bind_apply_ok _ _ (Machine.countStray_apply ..)]
    by_cases hgrant : environment.grantsUnmap machine.ledger address size = true
    · rw [bind_apply_ok _ _ (ensure_apply _ hgrant _ _)]
      exact ⟨_, _, rfl, Or.inl rfl⟩
    · rw [bind_apply_error _ _ (ensure_apply_not _ hgrant _ _)]
      exact ⟨_, _, rfl, Or.inr ⟨rfl, rfl, Bool.eq_false_iff.2 hgrant⟩⟩

/-! ## Moving and resizing -/

/-- A copy has the length of the memory that it is made in. -/
theorem length_copied (region : Region) (count address : Nat) (fresh : Memory Empty) :
    (ofMemory address (region.copied count fresh)).length = fresh.length :=
  Memory.length_write ..

/-- A heap region that is moved is answered like a fresh request: the old block is given back
without fail. -/
theorem answer_moveHeap [Size.Paging] (hfamily : source.family = .heap)
    (hlayout : Heap.IsLayout size align)
    (region : Region) (newSize : Nat) (environment : Environment) (machine : Machine) :
    (moveHeap source region size newSize align environment machine).1.map Region.length =
      source.answer environment machine.ledger align newSize := by
  have hallocate : allocate source newSize align = allocateHeap source newSize align := by
    cases source <;> first | rfl | cases hfamily
  have hanswer := answer_allocateHeap hfamily newSize align environment machine
  rw [← hallocate] at hanswer
  rw [moveHeap]
  cases hrun : allocate source newSize align environment machine with
  | mk result middle =>
    rw [hrun] at hanswer
    cases result with
    | error reason =>
      rw [bind_apply_error _ _ hrun]
      exact hanswer
    | ok target =>
      obtain ⟨hwhole, -⟩ := (yields_allocate ..).holds hrun
      obtain ⟨machine', hrelease⟩ := release_heap hlayout region.address environment middle
      rw [bind_apply_ok _ _ hrun, bind_apply_ok _ _ hrelease, bind_apply_ok _ _ (emit_apply ..),
        ← hanswer]
      exact congrArg Except.ok ((length_copied ..).trans hwhole)

/-- A heap region that is resized is answered like a fresh request. -/
theorem answer_resizeHeap [Size.Paging] (hfamily : source.family = .heap)
    (hlayout : Heap.IsLayout size align)
    (region : Region) (newSize : Nat) (environment : Environment) (machine : Machine) :
    (resizeHeap source region size newSize align environment machine).1.map Region.length =
      source.answer environment machine.ledger align newSize := by
  rw [resizeHeap, Source.answer, hfamily, bind_apply_ok _ _ (ensureLayout_apply hlayout _ _)]
  simp only
  by_cases hnew : Heap.IsLayout newSize align
  · rw [if_pos hnew, bind_apply_ok _ _ (ensureLayout_apply hnew _ _)]
    -- whether the block moves makes no difference to the answer
    by_cases hgrant : environment.grantsHeap machine.ledger newSize align = true
    · obtain ⟨address, machine', hrun⟩ : ∃ address machine',
          Heap.resize region.address size newSize align environment machine =
            (.ok (some address), machine') := by
        rw [Heap.resize, bind_apply_ok _ _ (environment_apply ..),
          bind_apply_ok _ _ (get_apply ..), bind_apply_ok _ _ (Machine.countStray_apply ..),
          if_pos hgrant, bind_apply_ok _ _ (modify_apply ..)]
        split <;> exact ⟨_, _, rfl⟩
      rw [bind_apply_ok _ _ hrun, if_pos hgrant]
      exact congrArg Except.ok (Memory.length_resized ..)
    · obtain ⟨middle, hrun⟩ : ∃ middle,
          Heap.resize region.address size newSize align environment machine =
            (.ok none, middle) := by
        rw [Heap.resize, bind_apply_ok _ _ (environment_apply ..),
          bind_apply_ok _ _ (get_apply ..), bind_apply_ok _ _ (Machine.countStray_apply ..),
          if_neg hgrant]
        exact ⟨_, rfl⟩
      obtain ⟨machine', hrefused⟩ := refused_apply Region source.aborts newSize align
        (.heapGrowthRefused size newSize) environment middle
      rw [bind_apply_ok _ _ hrun, if_neg hgrant]
      exact congrArg (fun run => run.1.map Region.length) hrefused
  · rw [if_neg hnew, bind_apply_error _ _ (ensureLayout_apply_not hnew _ _)]
    rfl

/-- Taking away access gives an answer in any case. -/
theorem protect_eq (address length : Nat) (protection : Protection) (environment : Environment)
    (machine : Machine) :
    ∃ done machine', Pages.protect address length protection environment machine =
      (.ok done, machine') := by
  rw [Pages.protect, bind_apply_ok _ _ (environment_apply ..), bind_apply_ok _ _ (get_apply ..)]
  split <;> exact ⟨_, _, rfl⟩

/-- A mapping that is moved is answered like a fresh one: the old pages stay mapped, whether or not
access to them can be taken away. -/
theorem answer_moveMapping (hround : Size.roundToPages? newSize = some length)
    (positive : 0 < length) (region : Region) (old : Nat) (environment : Environment)
    (machine : Machine) :
    (moveMapping region old length environment machine).1.map Region.length =
      Source.pageMap.answer environment machine.ledger align newSize := by
  obtain ⟨found, middle, hmap, hfound⟩ := Pages.map_eq environment machine
    (Size.roundToPages?_eq_self (Size.dvd_of_roundToPages?_eq_some hround)
      (Size.lt_limit_of_roundToPages?_eq_some hround)) positive
  rw [Source.answer_pages rfl hround, ← hfound, moveMapping, bind_apply_ok _ _ hmap]
  cases found with
  | none => rfl
  | some address =>
    obtain ⟨done, machine', hprotect⟩ :=
      protect_eq region.address old .none environment middle
    rw [bind_apply_ok _ _ (orFail_some ..), bind_apply_ok _ _ hprotect]
    cases done <;> exact congrArg Except.ok (length_copied ..)

/-- A mapping of whole pages is remapped or refused. One that may move is granted whatever the
kernel grants at all. -/
theorem remap_eq (hold : Size.pageSize ∣ size) (hnew : Size.pageSize ∣ length) (mayMove : Bool)
    (address : Nat) (environment : Environment) (machine : Machine) :
    ∃ found machine', Pages.remap address size length mayMove environment machine =
        (.ok found, machine') ∧
      (mayMove = true → found.isSome = environment.grantsPages machine.ledger length) := by
  have hwhole : size % Size.pageSize = 0 ∧ length % Size.pageSize = 0 :=
    ⟨Nat.mod_eq_zero_of_dvd hold, Nat.mod_eq_zero_of_dvd hnew⟩
  rw [Pages.remap, bind_apply_ok _ _ (ensure_apply _ hwhole _ _),
    bind_apply_ok _ _ (environment_apply ..), bind_apply_ok _ _ (get_apply ..),
    bind_apply_ok _ _ (Machine.countStray_apply ..)]
  split
  · rename_i hgrant
    rw [Bool.and_eq_true] at hgrant
    split <;> exact ⟨some _, _, rfl, fun _ => hgrant.1.symm⟩
  · rename_i hgrant
    refine ⟨none, _, rfl, fun hmoves => ?_⟩
    rw [hmoves, Bool.or_true, Bool.and_true] at hgrant
    exact (Bool.eq_false_iff.2 hgrant).symm

/-- A mapping that may move is answered like a fresh one, wherever it goes. -/
theorem answer_resizeMapping (hround : Size.roundToPages? newSize = some length)
    (hold : Size.pageSize ∣ size) (region : Region) (environment : Environment)
    (machine : Machine) :
    (resizeMapping region size length true environment machine).1.map Region.length =
      Source.pageMap.answer environment machine.ledger align newSize := by
  obtain ⟨found, machine', hremap, hfound⟩ := remap_eq hold
    (Size.dvd_of_roundToPages?_eq_some hround) true region.address environment machine
  rw [Source.answer_pages rfl hround, ← hfound rfl, resizeMapping, bind_apply_ok _ _ hremap]
  cases found with
  | none => rfl
  | some address => exact congrArg Except.ok (Memory.length_resized ..)

/-- A region that may move is resized as a fresh request would be answered, with the debug layer and
without it. -/
theorem answer_resize {resizing : Resizing} (moves : resizing.mayMove = true)
    (suits : resizing.source.family.Suits align size) (positive : 0 < newSize) (region : Region)
    (diagnostics : Diagnostics) (environment : Environment) (machine : Machine) :
    (resize resizing region size newSize align diagnostics environment machine).1.map
        Region.length =
      resizing.source.answer environment machine.ledger align newSize := by
  cases resizing with
  | noOp | remapKeepAddress => cases moves
  | heapOrAbort | heapOrFail =>
    unfold resize
    dsimp only
    split
    · -- with the debug layer every resize is a move
      exact answer_moveHeap rfl suits ..
    · exact answer_resizeHeap rfl suits ..
  | remapMayMove =>
    obtain ⟨hwhole, -, hsmall⟩ := suits
    unfold resize
    dsimp only
    rw [Size.roundToPages?_eq_self hwhole hsmall, bind_apply_ok _ _ (orFail_some ..)]
    cases hround : Size.roundToPages? newSize with
    | none =>
      simp only [Source.answer, Resizing.source, Source.family, hround]
      rfl
    | some length =>
      have hpositive : 0 < length :=
        Nat.lt_of_lt_of_le positive (Size.le_of_roundToPages?_eq_some hround)
      rw [bind_apply_ok _ _ (orFail_some ..)]
      split
      · exact answer_moveMapping hround hpositive ..
      · rw [if_neg (Nat.ne_of_gt hpositive)]
        exact answer_resizeMapping hround hwhole ..

/-- A region that stays where it is gets a size that suits its family, or a failure. -/
theorem resize_fixed {resizing : Resizing} {family : Family} (stays : resizing.mayMove = false)
    (belongs : ∀ other ∈ resizing.family?, other = family) (suits : family.Suits align size)
    (positive : 0 < newSize) (region : Region) (diagnostics : Diagnostics)
    (environment : Environment) (machine : Machine) :
    ∃ result machine', resize resizing region size newSize align diagnostics environment machine =
        (result, machine') ∧
      ((∃ failure, result = .error (.failure failure)) ∨
        ∃ region', result = .ok region' ∧ family.Suits align region'.length) := by
  cases resizing with
  | heapOrAbort | heapOrFail | remapMayMove => cases stays
  | noOp =>
    unfold resize
    dsimp only
    split
    · exact ⟨_, _, rfl, Or.inr ⟨_, rfl, suits⟩⟩
    · exact ⟨_, _, rfl, Or.inl ⟨_, rfl⟩⟩
  | remapKeepAddress =>
    obtain rfl : Family.pages = family := belongs _ rfl
    obtain ⟨hwhole, -, hsmall⟩ := suits
    unfold resize
    dsimp only
    rw [Size.roundToPages?_eq_self hwhole hsmall, bind_apply_ok _ _ (orFail_some ..)]
    cases hround : Size.roundToPages? newSize with
    | none => exact ⟨_, _, rfl, Or.inl ⟨_, rfl⟩⟩
    | some length =>
      have hpositive : 0 < length :=
        Nat.lt_of_lt_of_le positive (Size.le_of_roundToPages?_eq_some hround)
      obtain ⟨found, machine', hremap, -⟩ := remap_eq hwhole
        (Size.dvd_of_roundToPages?_eq_some hround) false region.address environment machine
      have hmoves : ¬ (Resizing.remapKeepAddress.mayMove && diagnostics.debugLayer &&
          length ≠ 0) = true := Bool.false_ne_true
      rw [bind_apply_ok _ _ (orFail_some ..), if_neg hmoves, if_neg (Nat.ne_of_gt hpositive),
        resizeMapping, stays, bind_apply_ok _ _ hremap]
      cases found with
      | none => exact ⟨_, _, rfl, Or.inl ⟨_, rfl⟩⟩
      | some address =>
        refine ⟨_, _, rfl, Or.inr ⟨_, rfl, ?_⟩⟩
        rw [show (ofMemory address _).length = length from Memory.length_resized ..]
        exact ⟨Size.dvd_of_roundToPages?_eq_some hround, hpositive,
          Size.lt_limit_of_roundToPages?_eq_some hround⟩

/-- A region that is made to move is answered as a fresh request, unless the kernel does not take
its pages back. -/
theorem answer_relocate {strategies : Strategies} (moves : strategies.mayMove = true)
    (suits : strategies.disposal.family.Suits align size) (positive : 0 < newSize)
    (power : Size.IsPowerOfTwo align) (small : align ≤ Size.pageSize) (region : Region)
    (hplain : diagnostics.debugLayer = false) (environment : Environment) (machine : Machine) :
    ∃ result machine',
      relocate strategies region size newSize align diagnostics environment machine =
        (result, machine') ∧
      (result.map Region.length =
          strategies.source.answer environment machine.ledger align newSize ∨
        result = .error (.fault (.unmapRefused size region.address)) ∧
          strategies.disposal = .pageUnmap ∧
            ∃ ledger, environment.grantsUnmap ledger region.address size = false) := by
  have hanswer := answer_allocate strategies.source positive power small environment machine
  have hstays : ¬ ¬ strategies.mayMove = true := fun h => h moves
  rw [relocate, if_neg hstays, hplain, if_neg Bool.false_ne_true]
  cases hrun : allocate strategies.source newSize align environment machine with
  | mk result middle =>
    rw [hrun] at hanswer
    cases result with
    | error reason =>
      rw [bind_apply_error _ _ hrun]
      exact ⟨_, _, rfl, Or.inl hanswer⟩
    | ok target =>
      obtain ⟨hwhole, -⟩ := (yields_allocate ..).holds hrun
      obtain ⟨result, machine', hrelease, hcases⟩ :=
        release_cases suits region.address environment middle
      rw [bind_apply_ok _ _ hrun]
      rcases hcases with rfl | ⟨rfl, hdisposal, hrefused⟩
      · rw [bind_apply_ok _ _ hrelease, bind_apply_ok _ _ (emit_apply ..)]
        refine ⟨_, _, rfl, Or.inl ?_⟩
        rw [← hanswer]
        exact congrArg Except.ok ((length_copied ..).trans hwhole)
      · rw [bind_apply_error _ _ hrelease]
        exact ⟨_, _, rfl, Or.inr ⟨rfl, hdisposal, _, hrefused⟩⟩

end Region

end PagedAlloc
