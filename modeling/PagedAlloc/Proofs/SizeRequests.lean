import PagedAlloc.Proofs.GeometricGrowth
import PagedAlloc.Proofs.OwnedRequests

/-!
# Requests of any size

Sizes go through a sum, a doubling and two roundings before they are served. None of these steps is
relied on to fit a machine word but the padding of an alignment, and this one does fit: a buffer
from the heap has a layout, a mapping is granted by the kernel, and both are shorter than half of
all addresses (`Arena.Life.half`). So a request of any size is served, overflows because nothing
that fits a machine word has room for it, or is refused by the strategies. The arena has the room
that was asked for where the request is served, and is as it was where it fails
(`Arena.sizes_settled`).
-/

namespace PagedAlloc

variable {paging : Size.Paging}

/-- No mapping takes half of all addresses. -/
def Environment.Short (environment : Environment) : Prop :=
  ∀ ledger length, environment.grantsPages ledger length = true → length < 1 <<< 63

/-- What is relied on of the kernel: live mappings are unmapped on request, and no mapping takes
half of all addresses. -/
structure Environment.Usual (environment : Environment) : Prop where
  unmaps : environment.UnmapsLive
  short : environment.Short

namespace Arena

open Procedure

/-- Some whole number of units that fits a machine word has room for so many bytes. -/
def Representable (unit needed : Nat) : Prop :=
  ∃ size < Size.limit, unit ∣ size ∧ needed ≤ size

/-- What comes of a request for so many bytes in all: it is served, or nothing representable has
room for them, or the strategies refuse it and tell why, or the heap is exhausted where they say
that the process ends then. -/
inductive Settled [Size.Paging] {α : Type} (environment : Environment) (strategies : Strategies)
    (needed : Nat) (tell : Failure → Prop) : Except Stop α → Prop where
  | served (value : α) (room : Representable alignment needed) :
      Settled environment strategies needed tell (.ok value)
  | overflow (large : ¬ Representable strategies.source.family.unit needed) :
      Settled environment strategies needed tell (.error (.failure .overflow))
  | refused (failure : Failure) (told : tell failure) (other : failure ≠ .overflow)
      (room : Representable alignment needed) :
      Settled environment strategies needed tell (.error (.failure failure))
  | exhausted (size : Nat) (cause : Interruption environment strategies (.aborted size)) :
      Settled environment strategies needed tell (.error (.fault (.aborted size)))

/-- The strategies of an arena refuse the capacity that it wants for so many bytes in all. -/
def Refuses [Size.Paging] (environment : Environment) (machine : Machine) (arena : Arena)
    (needed : Nat) (failure : Failure) : Prop :=
  ∃ capacity, arena.wanted? needed = some capacity ∧
    (arena.request capacity environment machine).1 = .error (.failure failure)

/-- A source refuses the first capacity of an arena that is to have so many bytes. -/
def RefusesFirst [Size.Paging] (environment : Environment) (machine : Machine) (source : Source)
    (needed : Nat) (failure : Failure) : Prop :=
  ∃ capacity, Size.roundUp? needed alignment = some capacity ∧
    (Region.allocate source capacity alignment environment machine).1 = .error (.failure failure)

/-- A call that needs so many bytes more, and takes some of them into use, is settled. Where it is
served they have room, and where it fails the buffer and the length are as they were. -/
structure Sized [Size.Paging] {α : Type} (environment : Environment) (machine : Machine)
    (arena : Arena) (additional taken : Nat) (run : Except Stop α × Machine × Arena) : Prop where
  settled : Settled environment arena.strategies (arena.length + additional)
    (arena.Refuses environment machine (arena.length + additional)) run.1
  served : ∀ value, run.1 = .ok value →
    arena.length + additional ≤ run.2.2.capacity ∧ run.2.2.length = arena.length + taken
  kept : ∀ failure, run.1 = .error (.failure failure) →
    run.2.2.region = arena.region ∧ run.2.2.length = arena.length

/-- An addition to a build repeats the failure of the build, if there is one. -/
structure AddsSized [Size.Paging] (environment : Environment) (machine : Machine) (arena : Arena)
    (build : Build) (additional : Nat) (run : Except Stop Unit × Machine × Arena) : Prop where
  repeated : ∀ first, build.failure = some first → run = (.error (.failure first), machine, arena)
  sized : build.failure = none → Sized environment machine arena additional additional run

variable {environment : Environment} {machine first : Machine} {arena : Arena} {others : Ledger}
  {source : Source} {capacity needed length additional : Nat} {α β : Type}
  {state : Machine × Arena} {strategies : Strategies} {tell : Failure → Prop}
  {outcome : Except Stop α}

/-! ## Half of all addresses -/

/-- Whatever a source grants is shorter than half of all addresses. -/
theorem short_of_source {ledger : Ledger} (short : environment.Short)
    (h : source.answer environment ledger alignment capacity = .ok length) : length < 1 <<< 63 := by
  rcases Source.granted_of_answer h with ⟨-, ⟨-, -, hshort⟩, rfl⟩ | ⟨-, -, hgrants⟩
  · have halign : 0 < alignment := by decide
    omega
  · exact short _ _ hgrants

theorem short_of_source_verdict {ledger : Ledger} (usual : environment.Usual)
    (h : source.verdict environment ledger alignment capacity = .ok length) :
    length < 1 <<< 63 := by
  rw [Source.verdict] at h
  split at h
  · cases h
  · exact short_of_source usual.short h

theorem short_of_resizing {ledger : Ledger} {resizing : Resizing} {region : Region} {size : Nat}
    (usual : environment.Usual) (hsize : size < 1 <<< 63)
    (h : resizing.verdict environment ledger alignment region size capacity = .ok length) :
    length < 1 <<< 63 := by
  unfold Resizing.verdict at h
  cases resizing with
  | heapOrAbort | heapOrFail | remapMayMove => exact short_of_source_verdict usual h
  | noOp =>
    dsimp only at h
    split at h
    · exact Except.ok.inj h ▸ hsize
    · cases h
  | remapKeepAddress =>
    dsimp only at h
    split at h
    · cases h
    · split at h
      · cases h
      · split at h
        · rename_i hgrows
          rw [← Except.ok.inj h]
          rw [Pages.growsHere, Bool.and_eq_true] at hgrows
          exact usual.short _ _ hgrows.1
        · cases h

/-- A granted capacity is shorter than half of all addresses, if the present one is. -/
theorem short_of_verdict {ledger : Ledger} (usual : environment.Usual)
    (short : arena.capacity < 1 <<< 63)
    (h : arena.verdict environment ledger capacity = .ok length) : length < 1 <<< 63 := by
  rw [verdict, Strategies.verdict] at h
  split at h
  · split at h
    · exact short_of_source_verdict usual h
    · cases h
  · exact short_of_resizing usual short h

/-- An arena owns its buffer, and the buffer is shorter than half of all addresses. -/
def Half [Size.Paging] (state : Machine × Arena) : Prop :=
  (∃ others, Owns state others) ∧ state.2.capacity < 1 <<< 63

/-- Ownership and a buffer shorter than half of all addresses are an invariant. -/
theorem invariant_half : Invariant Environment.Usual Half where
  sits hsits holds := by
    obtain ⟨howned, hshort⟩ := holds
    exact ⟨howned.imp fun _ => hsits.owns, hsits.buffer.capacity ▸ hshort⟩
  room {environment state} usual holds additional := by
    obtain ⟨⟨others, howns⟩, hshort⟩ := holds
    obtain ⟨machine, arena⟩ := state
    refine ⟨howns.makeRoom_owns usual.unmaps additional, ?_⟩
    obtain ⟨outcome, machine', region, hrun, hmakes⟩ :=
      makeRoom_cases additional environment machine arena
    rw [hrun]
    cases hmakes with
    | present | refused | unrepresentable => exact hshort
    | granted capacity _ wanted told =>
      -- a new capacity is as short as what the kernel grants or the heap can be told
      have hverdict := howns.request_verdict usual.unmaps capacity
      rw [told] at hverdict
      exact short_of_verdict usual hshort hverdict.symm
  shrink {environment state} usual holds := by
    obtain ⟨⟨others, howns⟩, hshort⟩ := holds
    obtain ⟨machine, arena⟩ := state
    refine ⟨howns.shrink_owns, ?_⟩
    rcases shrink_cases environment machine arena with
      ⟨fault, -, hrun⟩ | ⟨target, -, -, hrun⟩ | ⟨target, -, -, -, hrun⟩ <;> rw [hrun]
    · exact hshort
    · exact hshort
    · obtain ⟨result, middle, hresize, hresizes⟩ := Region.resize_resizes howns.live
        howns.consistent.2 target arena.diagnostics environment
      have hverdict := hresizes.verdict
      cases result with
      | error reason =>
        rw [adopt_error hresize]
        exact hshort
      | ok region =>
        rw [adopt_ok_eq hresize]
        exact short_of_resizing usual hshort hverdict.symm

/-- A new buffer is shorter than half of all addresses. -/
theorem short_of_create {diagnostics : Diagnostics} (short : environment.Short)
    (made : create capacity strategies diagnostics environment first = (.ok arena, machine)) :
    arena.capacity < 1 <<< 63 := by
  obtain ⟨size, region, middle, -, hpositive, -, hrun, rfl, -⟩ := create_ok made
  have hanswer := Region.answer_allocate strategies.source hpositive alignment_power alignment_le
    environment first
  rw [hrun] at hanswer
  exact short_of_source short hanswer.symm

/-- All through its life the buffer of an arena is owned and shorter than half of all addresses. -/
theorem Life.half (h : Life Environment.Usual first state) (tidy : first.Tidy) : Half state :=
  h.keeps invariant_half fun _ usual _ _ _ _ _ made =>
    ⟨⟨_, (owns_of_create tidy made).1⟩, short_of_create usual.short made⟩

/-! ## Sizes that fit a machine word -/

theorem Representable.mono {unit : Nat} (h : Representable unit needed) (whole : alignment ∣ unit) :
    Representable alignment needed := by
  obtain ⟨size, hlimit, hunit, hle⟩ := h
  exact ⟨size, hlimit, Nat.dvd_trans whole hunit, hle⟩

/-- What is rounded up fits a machine word just if something representable has room for it. -/
theorem roundUp?_isSome_iff {unit value : Nat} (positive : 0 < unit) (whole : unit ∣ Size.limit) :
    (Size.roundUp? value unit).isSome ↔ Representable unit value := by
  rw [← Option.ne_none_iff_isSome, Ne, (Size.leastWord_roundUp? positive whole value).none_iff]
  simp only [not_forall, Nat.not_le, exists_prop, Representable]
  exact exists_congr fun size => and_comm

/-- A capacity is a whole number of units. -/
theorem Rounded.unit_dvd (h : arena.Rounded) :
    arena.strategies.source.family.unit ∣ arena.capacity := by
  have hsuits := h.backed.suits
  cases hfamily : arena.strategies.source.family with
  | heap => exact h.aligned
  | pages =>
    rw [hfamily] at hsuits
    exact hsuits.1

/-- A capacity that is shorter than half of all addresses may be doubled. -/
theorem Representable.doubled {unit : Nat} (h : Representable unit needed)
    (short : arena.capacity < 1 <<< 63) (whole : unit ∣ arena.capacity) :
    Representable unit (max (2 * arena.capacity) needed) := by
  obtain ⟨size, hlimit, hunit, hle⟩ := h
  have htwice : 2 * arena.capacity < Size.limit := by
    have hlimit : Size.limit = 2 * 1 <<< 63 := by decide
    omega
  refine ⟨max (2 * arena.capacity) size, Nat.max_lt.2 ⟨htwice, hlimit⟩, ?_, by omega⟩
  rcases Nat.le_total (2 * arena.capacity) size with hle | hle
  · rwa [Nat.max_eq_right hle]
  · rw [Nat.max_eq_left hle]
    exact Nat.dvd_mul_left_of_dvd whole 2

/-- An arena wants a capacity just if something representable has room for what is needed. -/
theorem Rounded.wanted_iff (h : arena.Rounded) (short : arena.capacity < 1 <<< 63) :
    (arena.wanted? needed).isSome ↔ Representable alignment needed := by
  have hhalf : 1 <<< 63 < Size.limit := by decide
  rw [wanted?]
  split
  · rename_i hfits
    exact ⟨fun _ => ⟨arena.capacity, Nat.lt_trans short hhalf, h.aligned, hfits⟩, fun _ => rfl⟩
  · have htwice : arena.capacity * 2 < Size.limit := by
      have hlimit : Size.limit = 1 <<< 63 * 2 := by decide
      omega
    rw [Size.mul?, if_pos htwice, Option.bind_some, Nat.mul_comm,
      roundUp?_isSome_iff (by decide) (by decide)]
    constructor
    · rintro ⟨size, hlimit, hunit, hle⟩
      exact ⟨size, hlimit, hunit, by omega⟩
    · intro hfits
      exact hfits.doubled short h.aligned

/-! ## Overflows that are told -/

/-- A source answers an overflow only if whole pages do not fit a machine word. -/
theorem overflow_of_answer {ledger : Ledger}
    (h : source.answer environment ledger alignment capacity = .error (.failure .overflow)) :
    source.family = .pages ∧ Size.roundToPages? capacity = none := by
  cases hfamily : source.family with
  | heap =>
    simp only [Source.answer, hfamily] at h
    split at h
    · split at h
      · cases h
      · split at h <;> cases h
    · cases h
  | pages =>
    cases hround : Size.roundToPages? capacity with
    | none => exact ⟨rfl, rfl⟩
    | some length =>
      rw [Source.answer_pages hfamily hround] at h
      split at h <;> cases h

theorem overflow_of_source {ledger : Ledger}
    (h : source.verdict environment ledger alignment capacity = .error (.failure .overflow)) :
    source.family = .pages ∧ Size.roundToPages? capacity = none := by
  rw [Source.verdict] at h
  split at h
  · cases h
  · exact overflow_of_answer h

theorem overflow_of_resizing {resizing : Resizing} {ledger : Ledger} {region : Region} {size : Nat}
    (h : resizing.verdict environment ledger alignment region size capacity =
      .error (.failure .overflow)) :
    resizing.family? = some .pages ∧ Size.roundToPages? capacity = none := by
  unfold Resizing.verdict at h
  cases resizing with
  | heapOrAbort | heapOrFail => cases (overflow_of_source h).1
  | remapMayMove => exact ⟨rfl, (overflow_of_source h).2⟩
  | noOp =>
    dsimp only at h
    split at h <;> cases h
  | remapKeepAddress =>
    dsimp only at h
    split at h
    · cases h
    · split at h
      · rename_i hround
        exact ⟨rfl, hround⟩
      · split at h <;> cases h

/-- Only pages overflow when they are asked for, because no whole number of them fits. -/
theorem overflow_of_verdict (consistent : arena.strategies.IsConsistent) {ledger : Ledger}
    (h : arena.verdict environment ledger capacity = .error (.failure .overflow)) :
    arena.strategies.source.family = .pages ∧ Size.roundToPages? capacity = none := by
  have hresizing {region : Region} {size : Nat}
      (h : arena.strategies.resizing.verdict environment ledger alignment region size capacity =
        .error (.failure .overflow)) :
      arena.strategies.source.family = .pages ∧ Size.roundToPages? capacity = none := by
    obtain ⟨hfamily, hround⟩ := overflow_of_resizing h
    exact ⟨(consistent.2 _ hfamily).symm, hround⟩
  rw [verdict, Strategies.verdict] at h
  split at h
  · split at h
    · rename_i hmoves
      split at h
      · rw [← Resizing.verdict_moves hmoves environment ledger alignment arena.region
          arena.capacity] at h
        exact hresizing h
      · exact overflow_of_source h
    · cases h
  · exact hresizing h

/-- Where pages have no room for the least aligned size, they have none for what is needed. -/
theorem large_of_pages {least : Nat}
    (aligned : ∀ size, alignment ∣ size → needed ≤ size → least ≤ size)
    (large : Size.roundToPages? least = none) : ¬ Representable Family.pages.unit needed := by
  rintro ⟨size, hlimit, hunit, hle⟩
  have hleast := aligned size (Nat.dvd_trans (alignment_dvd_unit .pages) hunit) hle
  have hsome : (Size.roundToPages? least).isSome :=
    (roundUp?_isSome_iff Size.pageSize_pos Size.pageSize_dvd_limit).2 ⟨size, hlimit, hunit, hleast⟩
  rw [large] at hsome
  cases hsome

/-- If the strategies tell of an overflow, nothing representable has room for what is needed. -/
theorem Rounded.large_of_overflow (h : arena.Rounded) (short : arena.capacity < 1 <<< 63)
    {ledger : Ledger} (wanted : arena.wanted? needed = some capacity)
    (told : arena.verdict environment ledger capacity = .error (.failure .overflow)) :
    ¬ Representable arena.strategies.source.family.unit needed := by
  obtain ⟨hfamily, hround⟩ := overflow_of_verdict h.backed.consistent told
  intro hfits
  -- pages are asked for the double, which has room where the need has some: it still fits a word
  have hdoubled := hfits.doubled short h.unit_dvd
  rw [hfamily] at hdoubled
  refine large_of_pages (fun size haligned hle => ?_) hround hdoubled
  by_cases hpresent : needed ≤ arena.capacity
  · rw [wanted?, if_pos hpresent] at wanted
    obtain rfl := Option.some.inj wanted
    omega
  · exact (least_of_wanted (Nat.lt_of_not_le hpresent) wanted).2 ⟨haligned, hle⟩

/-! ## Calls -/

theorem Settled.map (h : Settled environment strategies needed tell outcome) (f : α → β) :
    Settled environment strategies needed tell (outcome.map f) := by
  cases h with
  | served value room => exact .served (f value) room
  | overflow large => exact .overflow large
  | refused failure told other room => exact .refused failure told other room
  | exhausted size cause => exact .exhausted size cause

/-- Making room for any number of bytes is settled. Where it is served there is the room, and where
it fails the arena is as it was. -/
theorem Half.makeRoom (h : Half (machine, arena)) (rounded : arena.Rounded)
    (formed : arena.WellFormed) (usual : environment.Usual) (additional : Nat) :
    ∃ outcome machine' region, Arena.makeRoom additional environment (machine, arena) =
        (outcome, machine', { arena with region := region }) ∧
      Settled environment arena.strategies (arena.length + additional)
        (arena.Refuses environment machine (arena.length + additional)) outcome ∧
      (outcome = .ok () → arena.length + additional ≤ region.length) ∧
      ∀ reason, outcome = .error reason → region = arena.region := by
  obtain ⟨⟨others, howns⟩, hshort⟩ := h
  obtain ⟨outcome, machine', region, hrun, hmakes⟩ :=
    makeRoom_cases additional environment machine arena
  obtain ⟨_, _, _, hrun', -, -, -, hroom⟩ := formed.makeRoom additional environment machine
  obtain ⟨rfl, rfl, rfl⟩ : outcome = _ ∧ machine' = _ ∧ { arena with region := region } = _ := by
    simpa using hrun.symm.trans hrun'
  refine ⟨outcome, machine', region, hrun, ?_⟩
  have hwanted {capacity : Nat}
      (wanted : arena.wanted? (arena.length + additional) = some capacity) :
      Representable alignment (arena.length + additional) :=
    (rounded.wanted_iff hshort).1 (wanted ▸ rfl)
  cases hmakes with
  | present fits =>
    have hlimit : arena.capacity < Size.limit := Nat.lt_trans hshort (by decide)
    exact ⟨.served () ⟨arena.capacity, hlimit, rounded.aligned, fits⟩, hroom, nofun⟩
  | granted capacity _ wanted told => exact ⟨.served () (hwanted wanted), hroom, nofun⟩
  | unrepresentable large =>
    refine ⟨.overflow fun hfits => ?_, hroom, fun _ _ => rfl⟩
    rcases large with hlarge | hnone
    · obtain ⟨size, hlimit, -, hle⟩ := hfits
      omega
    · have hsome := (rounded.wanted_iff hshort).2 (hfits.mono (alignment_dvd_unit _))
      rw [hnone] at hsome
      cases hsome
  | refused capacity reason wanted told =>
    refine ⟨?_, hroom, fun _ _ => rfl⟩
    cases reason with
    | failure failure =>
      -- where the rounding to whole pages overflows, no other capacity would have done either
      by_cases hoverflow : failure = .overflow
      · subst hoverflow
        have hverdict := howns.request_verdict usual.unmaps capacity
        rw [told] at hverdict
        exact .overflow (rounded.large_of_overflow hshort wanted hverdict.symm)
      · exact .refused failure ⟨capacity, wanted, told⟩ hoverflow (hwanted wanted)
    | fault fault =>
      obtain rfl := howns.request_fault usual.unmaps told
      have hexpected := rounded.backed.request
        (Nat.lt_of_lt_of_le rounded.backed.positive (le_wanted wanted)) environment machine
      rw [told] at hexpected
      exact .exhausted capacity hexpected

/-- An arena of any capacity is made, or why it is not is settled. -/
theorem create_settled (consistent : strategies.IsConsistent) (environment : Environment)
    (machine : Machine) (capacity : Nat) (diagnostics : Diagnostics) :
    Settled environment strategies (max capacity firstOffset)
      (RefusesFirst environment machine strategies.source (max capacity firstOffset))
      (create capacity strategies diagnostics environment machine).1 := by
  rw [create, bind_apply_ok _ _ (ensure_apply _ consistent _ _)]
  have hrepresentable : (Size.roundUp? (max capacity firstOffset) alignment).isSome ↔ _ :=
    roundUp?_isSome_iff (by decide) (by decide)
  cases hround : Size.roundUp? (max capacity firstOffset) alignment with
  | none =>
    rw [bind_apply_error _ _ (orFail_none ..)]
    refine .overflow fun hfits => ?_
    have hsome := hrepresentable.2 (hfits.mono (alignment_dvd_unit _))
    rw [hround] at hsome
    cases hsome
  | some size =>
    have hroom := hrepresentable.1 (hround ▸ rfl)
    have hpositive : 0 < size := Nat.lt_of_lt_of_le (by decide)
      (Nat.le_trans (Nat.le_max_right ..) (Size.le_of_roundUp?_eq_some (by decide) hround))
    have hanswer := Region.answer_allocate strategies.source hpositive alignment_power
      alignment_le environment machine
    rw [bind_apply_ok _ _ (orFail_some ..)]
    cases hrun : Region.allocate strategies.source size alignment environment machine with
    | mk result middle =>
      rw [hrun] at hanswer
      cases result with
      | ok region =>
        rw [bind_apply_ok _ _ hrun, bind_apply_ok _ _ (emit_apply ..)]
        exact .served _ hroom
      | error reason =>
        rw [bind_apply_error _ _ hrun]
        cases reason with
        | failure failure =>
          by_cases hoverflow : failure = .overflow
          · -- the size fits in units of the alignment, so it is the whole pages that do not
            subst hoverflow
            obtain ⟨hfamily, hlarge⟩ := overflow_of_answer hanswer.symm
            refine .overflow (hfamily ▸ large_of_pages (fun other haligned hle => ?_) hlarge)
            exact (Size.isLeast_of_roundUp? (by decide) (by decide) hround).2 ⟨haligned, hle⟩
          · exact .refused failure ⟨size, hround, congrArg Prod.fst hrun⟩ hoverflow hroom
        | fault fault =>
          obtain ⟨haborts, rfl, hrefused⟩ := Source.fault_of_answer hanswer.symm
          exact .exhausted size (.aborted (Or.inl haborts) hrefused)

/-- A new arena has the bytes that were asked for, and only the reserved ones are in use. -/
theorem room_of_create {diagnostics : Diagnostics}
    (made : (create capacity strategies diagnostics environment machine).1 = .ok arena) :
    max capacity firstOffset ≤ arena.capacity ∧ arena.length = firstOffset := by
  obtain ⟨size, region, middle, -, -, hsize, hrun, rfl, -⟩ := create_ok (Prod.ext made rfl)
  refine ⟨?_, rfl⟩
  have hgiven := ((Region.yields_allocate strategies.source size alignment).holds hrun).2
  exact (Size.le_of_roundUp?_eq_some (by decide) hsize).trans hgiven

/-- A reservation of any size is settled. -/
theorem Half.reserve (h : Half (machine, arena)) (rounded : arena.Rounded)
    (formed : arena.WellFormed) (usual : environment.Usual) (idle : arena.build = none)
    (additional : Nat) :
    Sized environment machine arena additional 0
      (Arena.reserve additional environment (machine, arena)) := by
  obtain ⟨outcome, machine', region, hrun, hsettled, hroom, hkept⟩ :=
    h.makeRoom rounded formed usual additional
  rw [Arena.reserve, bind_apply_ok _ _ (ensureIdle_idle idle _), hrun]
  exact ⟨hsettled, fun _ hserved => ⟨hroom hserved, rfl⟩,
    fun failure hfailed => ⟨hkept _ hfailed, rfl⟩⟩

/-- Cells that are added are settled. -/
theorem Half.add (h : Half (machine, arena)) (rounded : arena.Rounded)
    (formed : arena.WellFormed) (usual : environment.Usual) {start : Nat}
    (building : arena.build = some ⟨start, none⟩) (content : Stretch Empty) :
    Sized environment machine arena content.length content.length
      (Arena.add content environment (machine, arena)) := by
  obtain ⟨outcome, machine', region, hrun, hsettled, hroom, hkept⟩ :=
    h.makeRoom rounded formed usual content.length
  rw [add_building building, hrun]
  cases outcome with
  | ok => exact ⟨hsettled, fun _ _ => ⟨hroom rfl, rfl⟩, nofun⟩
  | error reason =>
    obtain rfl := hkept reason rfl
    cases reason with
    | fault fault => exact ⟨hsettled, nofun, nofun⟩
    | failure failure => exact ⟨hsettled, nofun, fun _ _ => ⟨rfl, rfl⟩⟩

/-- An addition of any size is settled. -/
theorem Half.addZeroes (h : Half (machine, arena)) (rounded : arena.Rounded)
    (formed : arena.WellFormed) (usual : environment.Usual) {build : Build} (building : arena.build = some build)
    (count : Nat) :
    AddsSized environment machine arena build count
      (Arena.addZeroes count environment (machine, arena)) where
  repeated first hfailure := by
    obtain ⟨start, failure⟩ := build
    obtain rfl : failure = some first := hfailure
    exact add_failed building (Stretch.zeros count) environment machine
  sized hfailure := by
    obtain ⟨start, failure⟩ := build
    obtain rfl : failure = none := hfailure
    exact h.add rounded formed usual building (Stretch.zeros count)

/-- The padding of an alignment up to half of all addresses can always be computed. -/
theorem Half.addAlign (h : Half (machine, arena)) (rounded : arena.Rounded)
    (formed : arena.WellFormed) (usual : environment.Usual) {build : Build}
    (building : arena.build = some build) {align : Nat} (power : Size.IsPowerOfTwo align)
    (small : align ≤ 1 <<< 63) :
    AddsSized environment machine arena build ((align - arena.length % align) % align)
      (Arena.addAlign align environment (machine, arena)) := by
  have hlimit : Size.limit = 1 <<< 63 + 1 <<< 63 := by decide
  have haligned : (Addition.align align).Aligned := ⟨power, by omega⟩
  rcases addAlign_cases haligned environment machine arena with hrun | ⟨-, hlong⟩
  · rw [hrun]
    exact h.addZeroes rounded formed usual building _
  · -- the length is in the first half of all addresses, so rounding it up stays within a word
    have hfits := formed.fits
    have hshort : arena.capacity < 1 <<< 63 := h.2
    omega

/-- A push of zeroes is settled as adding them is, and where it fails it goes back to the arena that
there was. -/
theorem Half.pushZeroes (h : Half (machine, arena)) (reachable : arena.Reachable)
    (usual : environment.Usual) (idle : arena.build = none) (count : Nat) :
    Sized environment machine arena count count
      (Arena.push (Arena.addZeroes count) environment (machine, arena)) := by
  have hbegun := invariant_half.sits (sits_begun machine arena) h
  have hrounded : Rounded { arena with build := some ⟨arena.length, none⟩ } :=
    ⟨⟨reachable.backed.consistent, reachable.backed.suits⟩, reachable.rounded.aligned⟩
  have hadd := hbegun.add hrounded reachable.staged_begun.wellFormed usual rfl (Stretch.zeros count)
  have haligned : (Addition.zeroes count).Aligned := trivial
  obtain ⟨outcome, middle, built, last, after, hrun, hpush, hregion, hpushed, hlength⟩ :=
    reachable.push_tells idle haligned environment machine
  rw [show Arena.add (Stretch.zeros count) environment _ = _ from hrun] at hadd
  rw [show Arena.push (Arena.addZeroes count) environment (machine, arena) = _ from hpush]
  refine ⟨Settled.map hadd.settled _, fun reference hserved => ?_, fun failure hfailed => ?_⟩
  · have houtcome : outcome = .ok () := by
      cases outcome with
      | ok => rfl
      | error => cases hserved
    obtain ⟨hroom, htaken⟩ := hadd.served () houtcome
    refine ⟨?_, (hpushed houtcome).trans htaken⟩
    rwa [capacity, hregion]
  · have houtcome := error_of_map hfailed
    exact ⟨hregion.trans (hadd.kept failure houtcome).1, hlength failure houtcome⟩

/-! ## Every size is settled -/

/-- No size stops an arena. A new one of any capacity is made with that capacity, or it is not because
nothing representable is large enough or because its source refuses. Under a usual kernel, additions
and pushes of any number of zeroes, alignments up to half of all addresses and reservations of any
number of bytes are settled just so. They have their room where they are served, and leave the buffer
as it was where they fail. -/
theorem sizes_settled (environment : Environment) (machine : Machine) :
    (∀ capacity strategies diagnostics, strategies.IsConsistent →
      Settled environment strategies (max capacity firstOffset)
          (RefusesFirst environment machine strategies.source (max capacity firstOffset))
          (create capacity strategies diagnostics environment machine).1 ∧
        ∀ made, (create capacity strategies diagnostics environment machine).1 = .ok made →
          max capacity firstOffset ≤ made.capacity ∧ made.length = firstOffset) ∧
    ∀ first arena, first.Tidy → Life Environment.Usual first (machine, arena) →
      environment.Usual →
      (arena.build = none →
        (∀ additional, Sized environment machine arena additional 0
          (reserve additional environment (machine, arena))) ∧
        ∀ count, Sized environment machine arena count count
          (push (addZeroes count) environment (machine, arena))) ∧
      ∀ build, arena.build = some build →
        (∀ count, AddsSized environment machine arena build count
          (addZeroes count environment (machine, arena))) ∧
        ∀ align, Size.IsPowerOfTwo align → align ≤ 1 <<< 63 →
          AddsSized environment machine arena build ((align - arena.length % align) % align)
            (addAlign align environment (machine, arena)) := by
  refine ⟨fun capacity strategies diagnostics consistent =>
    ⟨create_settled consistent environment machine capacity diagnostics,
      fun made hmade => room_of_create hmade⟩,
    fun first arena tidy lived usual => ?_⟩
  have hhalf := lived.half tidy
  have hreachable : arena.Reachable := lived.reachable
  have hrounded := hreachable.rounded
  refine ⟨fun idle => ⟨?_, ?_⟩, fun build building => ⟨?_, ?_⟩⟩
  · exact hhalf.reserve hrounded hreachable.wellFormed usual idle
  · exact hhalf.pushZeroes hreachable usual idle
  · exact hhalf.addZeroes hrounded hreachable.wellFormed usual building
  · intro align power small
    exact hhalf.addAlign hrounded hreachable.wellFormed usual building power small

end Arena

end PagedAlloc

namespace PagedAlloc.Arena

open Procedure

attribute [local instance] Size.Paging.common

/-- Padding up to half of all addresses is refused by the kernel, and the build goes on. -/
theorem sizes_settled_of_padding :
    let kernel : Environment := { Environment.ordinary with grantsUnmap := fun _ _ _ => true }
    let made : Arena :=
      ⟨⟨65536, 4096, (Memory.zeroed 4096).fill 0 16 (Run.constant 0)⟩, 16, .pages, .off, none⟩
    ∃ machine, create 32 .pages .off kernel .fresh = (.ok made, machine) ∧
      let begun := (Operation.begin.run kernel (machine, made)).2
      let padded := addAlign (1 <<< 63) kernel begun
      padded.1 = .error (.failure (.outOfMemory (1 <<< 63))) ∧
        padded.2.2.region = begun.2.region ∧ padded.2.2.length = begun.2.length := by
  intro kernel made
  have usual : kernel.Usual := by
    refine ⟨fun _ _ _ _ => rfl, fun ledger length hgrants => ?_⟩
    simp only [kernel, Environment.ordinary, Bool.and_eq_true, decide_eq_true_eq] at hgrants
    omega
  obtain ⟨machine, hmade⟩ :
      ∃ machine, create 32 .pages .off kernel .fresh = (.ok made, machine) := ⟨_, rfl⟩
  obtain rfl := congrArg Prod.snd hmade
  refine ⟨_, hmade, ?_⟩
  intro begun padded
  have hlived : Life Environment.Usual .fresh begun :=
    (Life.start kernel usual 32 .pages .off hmade).step kernel usual .begin
  have hbuild : begun.2.build = some ⟨16, none⟩ := by decide +kernel
  have hfailed : padded.1 = .error (.failure (.outOfMemory (1 <<< 63))) := by decide +kernel
  have tidy : Machine.fresh.Tidy := by
    intro holding hlive
    cases hlive
  clear_value begun
  obtain ⟨middle, arena⟩ := begun
  obtain ⟨-, hbuilding⟩ := (sizes_settled kernel middle).2 .fresh arena tidy hlived usual
  obtain ⟨-, hsized⟩ := hbuilding _ hbuild
  have hpadded : Sized kernel middle arena _ _ padded :=
    (hsized (1 <<< 63) (by decide) (Nat.le_refl _)).sized rfl
  exact ⟨hfailed, hpadded.kept (.outOfMemory (1 <<< 63)) hfailed⟩

end PagedAlloc.Arena
