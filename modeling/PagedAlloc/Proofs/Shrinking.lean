import PagedAlloc.Proofs.Lockstep
import PagedAlloc.Proofs.Reservations

/-!
# Shrinking

Shrinking asks for the length rounded up to the alignment, but a buffer has whole units of its
family. So the request may be below the capacity although nothing can be given back, and then the
buffer is resized, or moved by the debug layer, to the capacity that it has. Whichever way is taken,
what is granted is the least capacity that has room for what is in use (`Arena.Shrinks.least`) and
holds all the bytes that this capacity has room for (`Arena.Shrinks.rehoused`). Where the capacity
is the least one already, shrinking leaves it (`Arena.Shrinks.settled`), so doing it twice is doing
it once.
-/

namespace PagedAlloc.Arena

variable {paging : Size.Paging}

open Procedure

/-- The capacities that an arena may have: whole units of its family, with room for what is in
use. -/
def admissible [Size.Paging] (arena : Arena) : Set Nat :=
  {size | arena.strategies.source.family.unit ∣ size ∧ arena.length ≤ size}

/-- The capacity that an arena asks for when it is shrunk. -/
def tight (arena : Arena) : Nat := Size.roundDown (arena.length + (alignment - 1)) alignment

/-- Nothing has changed but the buffer, and its first `count` bytes are the same. -/
structure Rehoused (count : Nat) (before after : Arena) : Prop where
  rest : after = { before with region := after.region }
  cells : ∀ offset < count, after.region.memory.cell offset = before.region.memory.cell offset

/-- Every reference finds what it found. -/
def SameFindings (before after : Arena) : Prop :=
  ∀ reference (reading : Reading), (reading.find after reference).map Answer.plain =
    (reading.find before reference).map Answer.plain

/-- What comes of shrinking an idle arena: there is nothing to give back, or the buffer may move and
a smaller one is granted or refused. -/
inductive Shrinks [Size.Paging] (environment : Environment) (machine : Machine) (arena : Arena) :
    Except Stop Unit → Machine → Region → Prop where
  | present (full : arena.strategies.mayMove = true → arena.capacity ≤ arena.tight) :
      Shrinks environment machine arena (.ok ()) machine arena.region
  | granted (machine' : Machine) (region : Region) (moves : arena.strategies.mayMove = true)
      (excess : arena.tight < arena.capacity)
      (told : arena.strategies.resizing.source.answer environment machine.ledger alignment
        arena.tight = .ok region.length)
      (cells : ∀ offset < min arena.capacity region.length,
        region.memory.cell offset = arena.region.memory.cell offset) :
      Shrinks environment machine arena (.ok ()) machine' region
  | refused (machine' : Machine) (reason : Stop) (moves : arena.strategies.mayMove = true)
      (excess : arena.tight < arena.capacity)
      (told : arena.strategies.resizing.source.answer environment machine.ledger alignment
        arena.tight = .error reason)
      (books : machine.SameBooks machine') :
      Shrinks environment machine arena (.error reason) machine' arena.region

/-- What shrinking an idle arena once does. -/
structure Shrunk [Size.Paging] (environment : Environment) (machine : Machine) (arena : Arena)
    (run : Except Stop Unit × Machine × Arena) : Prop where
  smaller : run.2.2.capacity ≤ arena.capacity
  kept : Rehoused run.2.2.capacity arena run.2.2
  findings : SameFindings arena run.2.2
  least : arena.strategies.mayMove = true → run.1 = .ok () →
    IsLeast arena.admissible run.2.2.capacity
  fixed : arena.strategies.mayMove = false → run = (.ok (), machine, arena)
  refused : ∀ reason, run.1 = .error reason → run.2.2 = arena ∧ machine.SameBooks run.2.1
  served : (∀ least, IsLeast arena.admissible least →
    arena.strategies.source.family.Grants environment machine.ledger least) → run.1 = .ok ()

/-- What shrinking an arena again does that has been shrunk. -/
structure ShrunkAgain (arena : Arena) (run : Except Stop Unit × Machine × Arena) : Prop where
  capacity : run.2.2.capacity = arena.capacity
  kept : Rehoused arena.capacity arena run.2.2
  findings : SameFindings arena run.2.2

/-- What reserving room in an arena does that has been shrunk to another one. A buffer that may move
grows if a region of the next capacity exists and is granted. -/
structure Regrown [Size.Paging] (environment : Environment) (arena : Arena)
    (state : Machine × Arena)
    (additional : Nat) (run : Except Stop Unit × Machine × Arena) : Prop where
  kept : Rehoused arena.length arena run.2.2
  findings : SameFindings arena run.2.2
  room : run.1 = .ok () → arena.length + additional ≤ run.2.2.capacity
  served : arena.strategies.mayMove = true → state.2.capacity < arena.length + additional →
    ∀ next, IsLeast {size | arena.strategies.source.family.unit ∣ size ∧
        max (2 * state.2.capacity) (arena.length + additional) ≤ size} next →
      arena.strategies.source.family.Suits alignment next →
      arena.strategies.source.family.Grants environment state.1.ledger next → run.1 = .ok ()

variable {environment : Environment} {machine machine' first : Machine}
  {arena before middle after : Arena} {source : Source} {region : Region}
  {outcome : Except Stop Unit} {count capacity value length additional : Nat}

/-! ## Contents -/

theorem Rehoused.refl (count : Nat) (arena : Arena) : Rehoused count arena arena :=
  ⟨rfl, fun _ _ => rfl⟩

/-- Bytes that are kept twice are kept. -/
theorem Rehoused.trans (h : Rehoused count before middle) (h' : Rehoused count middle after) :
    Rehoused count before after where
  rest := by
    rw [h'.rest, h.rest]
  cells offset hlt := (h'.cells offset hlt).trans (h.cells offset hlt)

theorem Rehoused.mono (h : Rehoused count before after) {fewer : Nat} (hle : fewer ≤ count) :
    Rehoused fewer before after :=
  ⟨h.rest, fun offset hlt => h.cells offset (Nat.lt_of_lt_of_le hlt hle)⟩

/-- References are offsets, so another buffer with all that is in use serves them as well. -/
theorem Rehoused.findings (h : Rehoused count before after) (covers : before.length ≤ count) :
    SameFindings before after := by
  have hcontents : SameContents 0 before after := by
    refine ⟨?_, ?_, fun offset _ hlt => h.cells offset (Nat.lt_of_lt_of_le hlt covers)⟩ <;>
      rw [h.rest]
  exact hcontents.find (Nat.zero_le _)

/-! ## The least capacity -/

/-- The tight capacity is the least multiple of the alignment that the length fits into. -/
theorem isLeast_tight (arena : Arena) :
    IsLeast {size | alignment ∣ size ∧ arena.length ≤ size} arena.tight :=
  Size.isLeast_roundDown (by decide) arena.length

/-- What has room for all that is in use, in whole units, is no less than what is asked for. -/
theorem tight_le (h : capacity ∈ arena.admissible) : arena.tight ≤ capacity :=
  (isLeast_tight arena).2 ⟨Nat.dvd_trans (alignment_dvd_unit _) h.1, h.2⟩

/-- An arena has one of the capacities that are admissible for it. -/
theorem Rounded.admissible (h : arena.Rounded) (formed : arena.WellFormed) :
    arena.capacity ∈ arena.admissible :=
  ⟨h.unit_dvd, formed.fits⟩

/-- A source grants the least whole number of units that has room for what was rounded before. -/
theorem answer_least {ledger : Ledger}
    (rounded : IsLeast {size | alignment ∣ size ∧ value ≤ size} capacity)
    (whole : IsLeast {size | source.family.unit ∣ size ∧ value ≤ size} length)
    (suits : source.family.Suits alignment length)
    (grants : source.family.Grants environment ledger length) :
    source.answer environment ledger alignment capacity = .ok length := by
  cases hfamily : source.family with
  | heap =>
    rw [hfamily] at whole
    obtain rfl := rounded.unique whole
    exact answer_again suits grants
  | pages =>
    rw [hfamily] at whole suits grants
    -- whole pages are aligned, so they have room for the one just if they have room for the other
    have hleast : IsLeast {size | Size.pageSize ∣ size ∧ capacity ≤ size} length := by
      refine ⟨⟨whole.1.1, rounded.2 ⟨?_, whole.1.2⟩⟩, fun size hsize => whole.2 ⟨hsize.1, ?_⟩⟩
      · exact Nat.dvd_trans (alignment_dvd_unit .pages) whole.1.1
      · exact Nat.le_trans rounded.1.2 hsize.2
    have hround : Size.roundToPages? capacity = some length := by
      have hround := Size.roundUp?_eq Size.pageSize_pos Size.pageSize_dvd_limit hleast
      rwa [if_pos suits.2.2] at hround
    have hgrants : environment.grantsPages ledger length = true := grants
    rw [Source.answer_pages hfamily hround, if_pos hgrants]

namespace Shrinks

/-- A buffer that may move is left with the least capacity that has room for what is in use. -/
theorem least (h : Shrinks environment machine arena (.ok ()) machine' region)
    (rounded : arena.Rounded) (formed : arena.WellFormed)
    (moves : arena.strategies.mayMove = true) : IsLeast arena.admissible region.length := by
  cases h with
  | present full =>
    exact ⟨rounded.admissible formed, fun size hsize => (full moves).trans (tight_le hsize)⟩
  | granted _ _ _ _ told =>
    have hleast := least_of_answer (isLeast_tight arena) told
    rwa [rounded.backed.family_resizing moves] at hleast

/-- The buffer is no larger than it was, and holds all the bytes that it has room for. -/
theorem rehoused (h : Shrinks environment machine arena outcome machine' region)
    (rounded : arena.Rounded) (formed : arena.WellFormed) :
    region.length ≤ arena.capacity ∧
      Rehoused region.length arena { arena with region := region } := by
  cases h with
  | present | refused => exact ⟨Nat.le_refl _, .refl _ arena⟩
  | granted _ _ moves excess told cells =>
    have hleast := (granted machine' region moves excess told cells).least rounded formed moves
    have hle : region.length ≤ arena.capacity := hleast.2 (rounded.admissible formed)
    rw [Nat.min_eq_right hle] at cells
    exact ⟨hle, rfl, cells⟩

/-- The least capacity is left as it is. -/
theorem settled (h : Shrinks environment machine arena outcome machine' region)
    (rounded : arena.Rounded) (formed : arena.WellFormed)
    (tightest : arena.strategies.mayMove = true → IsLeast arena.admissible arena.capacity) :
    region.length = arena.capacity := by
  cases h with
  | present | refused => rfl
  | granted _ _ moves excess told cells =>
    have hleast := (granted machine' region moves excess told cells).least rounded formed moves
    exact hleast.unique (tightest moves)

end Shrinks

/-- A region that is no larger than another one, and as whole, exists as that one does. -/
theorem suits_of_le {family : Family} {size : Nat} (suits : family.Suits alignment capacity)
    (whole : family.unit ∣ size) (positive : 0 < size) (hle : size ≤ capacity) :
    family.Suits alignment size := by
  cases family with
  | heap => exact ⟨Nat.ne_of_gt positive, suits.2.1, (Nat.add_le_add_right hle _).trans suits.2.2⟩
  | pages => exact ⟨whole, positive, Nat.lt_of_le_of_lt hle suits.2.2⟩

/-- Shrinking succeeds if the least capacity is granted. -/
theorem Shrinks.served (h : Shrinks environment machine arena outcome machine' region)
    (rounded : arena.Rounded) (formed : arena.WellFormed)
    (grants : ∀ least, IsLeast arena.admissible least →
      arena.strategies.source.family.Grants environment machine.ledger least) :
    outcome = .ok () := by
  cases h with
  | present | granted => rfl
  | refused _ reason moves excess told =>
    have hunit : 0 < arena.strategies.source.family.unit := by
      cases arena.strategies.source.family with
      | heap => exact alignment_power.1
      | pages => exact Size.pageSize_pos
    have hleast : IsLeast arena.admissible _ := Size.isLeast_roundDown hunit arena.length
    have hsuits := suits_of_le rounded.backed.suits hleast.1.1 (formed.positive hleast.1.2)
      (hleast.2 (rounded.admissible formed))
    have hgrants := grants _ hleast
    have hwhole : IsLeast {size | arena.strategies.source.family.unit ∣ size ∧
      arena.length ≤ size} _ := hleast
    rw [← rounded.backed.family_resizing moves] at hsuits hgrants hwhole
    cases told.symm.trans (answer_least (isLeast_tight arena) hwhole hsuits hgrants)

/-! ## Shrinking -/

/-- The length of an arena that owns its buffer can be rounded up, so shrinking asks for what it
wants. -/
theorem Half.shrink (h : Half (machine, arena)) (backed : arena.Backed) (formed : arena.WellFormed)
    (idle : arena.build = none) (environment : Environment) :
    ∃ outcome machine' region, Arena.shrink environment (machine, arena) =
        (outcome, machine', { arena with region := region }) ∧
      Shrinks environment machine arena outcome machine' region := by
  obtain ⟨⟨others, howns⟩, hshort⟩ := h
  -- a buffer is shorter than half of all addresses, so rounding its length up does not overflow
  have htight : Size.roundUp arena.length alignment = .ok arena.tight := by
    have hlimit : 1 <<< 63 + alignment < Size.limit := by decide
    have hfits : arena.length + alignment < Size.limit := by
      have hle : arena.length ≤ arena.capacity := formed.fits
      have hlt : arena.capacity < 1 <<< 63 := hshort
      omega
    rw [Size.roundUp_of_fits (by decide) hfits, Nat.add_sub_assoc (by decide)]
    rfl
  rcases shrink_cases environment machine arena with
    ⟨fault, hcause, -⟩ | ⟨target, htarget, hfull, hrun⟩ | ⟨target, htarget, hless, hmoves, hadopt⟩
  · rcases hcause with hbusy | hlarge
    · exact absurd idle hbusy
    · cases htight.symm.trans hlarge
  · cases htight.symm.trans htarget
    refine ⟨_, _, _, hrun, .present fun hmoves => Nat.le_of_not_lt fun hless => ?_⟩
    exact hfull ⟨hless, hmoves⟩
  · cases htight.symm.trans htarget
    have hpositive : 0 < arena.tight := formed.positive (isLeast_tight arena).1.2
    have hanswer := backed.answer_resize hmoves hpositive environment machine
    obtain ⟨result, middle, hresize, hresizes⟩ := Region.resize_resizes howns.live
      howns.consistent.2 arena.tight arena.diagnostics environment
    rw [hresize] at hanswer
    rw [hadopt]
    cases result with
    | error reason =>
      exact ⟨_, _, _, adopt_error hresize arena,
        .refused middle reason hmoves hless hanswer.symm (hresizes.serves.refused reason rfl)⟩
    | ok region =>
      obtain ⟨left, -, hsucceeds⟩ := hresizes.serves.granted region rfl
      exact ⟨_, _, _, adopt_ok_eq hresize arena,
        .granted _ region hmoves hless hanswer.symm hsucceeds.kept⟩

/-- A buffer that may move grows, if a region of the next capacity exists and is granted. -/
theorem Half.reserve_granted (h : Half (machine, arena)) (rounded : arena.Rounded)
    (idle : arena.build = none) (unmaps : environment.UnmapsLive)
    (moves : arena.strategies.mayMove = true)
    (exceeds : arena.capacity < arena.length + additional)
    (next : IsLeast {size | arena.strategies.source.family.unit ∣ size ∧
      max (2 * arena.capacity) (arena.length + additional) ≤ size} length)
    (suits : arena.strategies.source.family.Suits alignment length)
    (grants : arena.strategies.source.family.Grants environment machine.ledger length) :
    (Arena.reserve additional environment (machine, arena)).1 = .ok () := by
  obtain ⟨⟨others, howns⟩, hshort⟩ := h
  have hlimit : length < Size.limit := lt_limit_of_suits suits
  have hneeded : arena.length + additional ≤ length := (Nat.le_max_right ..).trans next.1.2
  obtain ⟨capacity, hwanted⟩ := Option.isSome_iff_exists.1 <| (rounded.wanted_iff hshort).2
    ⟨length, hlimit, Nat.dvd_trans (alignment_dvd_unit _) next.1.1, hneeded⟩
  have hpositive := Nat.lt_of_lt_of_le rounded.backed.positive (le_wanted hwanted)
  obtain ⟨region, middle, hrun, -⟩ := howns.request_granted rounded.backed moves unmaps hpositive
    fun source hfamily => answer_least (least_of_wanted exceeds hwanted) (hfamily ▸ next)
      (hfamily ▸ suits) (hfamily ▸ grants)
  have hfits : ¬ (arena.length + additional ≤ arena.capacity ∧
      ¬ (arena.diagnostics.forceRelocation && arena.strategies.mayMove) = true) :=
    fun hroom => Nat.not_le.2 exceeds hroom.1
  rw [Arena.reserve, bind_apply_ok _ _ (ensureIdle_idle idle _), makeRoom_eq, Size.add?,
    if_pos (Nat.lt_of_le_of_lt hneeded hlimit)]
  dsimp only
  rw [if_neg hfits, hwanted]
  exact congrArg Prod.fst (adopt_ok_eq hrun arena)

/-- Reserving room, whatever comes of it, keeps what is in use. -/
theorem WellFormed.reserve_rehouses (h : arena.WellFormed) (idle : arena.build = none)
    (additional : Nat) (environment : Environment) (machine : Machine) :
    let run := Arena.reserve additional environment (machine, arena)
    Rehoused arena.length arena run.2.2 ∧
      (run.1 = .ok () → arena.length + additional ≤ run.2.2.capacity) := by
  obtain ⟨outcome, machine', region, hrun, -⟩ :=
    makeRoom_cases additional environment machine arena
  obtain ⟨_, _, _, hrun', -, hextends, -, hroom⟩ := h.makeRoom additional environment machine
  rw [hrun] at hrun'
  cases hrun'
  rw [Arena.reserve, bind_apply_ok _ _ (ensureIdle_idle idle _), hrun]
  exact ⟨⟨rfl, hextends.cells⟩, hroom⟩

/-- What comes of shrinking is what shrinking is for. -/
theorem Shrinks.shrunk (h : Shrinks environment machine arena outcome machine' region)
    (rounded : arena.Rounded) (formed : arena.WellFormed) :
    Shrunk environment machine arena (outcome, machine', { arena with region := region }) := by
  obtain ⟨hle, hkept⟩ := h.rehoused rounded formed
  refine ⟨hle, hkept, ?_, ?_, ?_, ?_, h.served rounded formed⟩
  · cases h with
    | present | refused => exact (Rehoused.refl _ arena).findings (Nat.le_refl _)
    | granted _ _ moves excess told cells =>
      have hleast := (granted machine' region moves excess told cells).least rounded formed moves
      exact hkept.findings hleast.1.2
  · rintro moves ⟨⟩
    exact h.least rounded formed moves
  · intro stays
    cases h with
    | present => rfl
    | granted _ _ moves | refused _ _ moves => cases stays.symm.trans moves
  · rintro reason ⟨⟩
    cases h with
    | refused _ _ moves excess told books => exact ⟨rfl, books⟩

/-- Shrinking leaves the least capacity and what it has room for, whatever comes of it. -/
theorem Shrinks.again (h : Shrinks environment machine arena outcome machine' region)
    (rounded : arena.Rounded) (formed : arena.WellFormed)
    (tightest : arena.strategies.mayMove = true → IsLeast arena.admissible arena.capacity) :
    ShrunkAgain arena (outcome, machine', { arena with region := region }) := by
  have hcapacity := h.settled rounded formed tightest
  obtain ⟨-, hkept⟩ := h.rehoused rounded formed
  rw [hcapacity] at hkept
  exact ⟨hcapacity, hkept, hkept.findings formed.fits⟩

/-- Shrinking an idle arena is exact and harmless. A buffer that may move is left with the least
capacity in whole units that has room for what is in use, and any other one as it is. Shrinking
succeeds if the least capacity is granted, and changes nothing where it fails. All the bytes that
the capacity has room for are kept. Shrinking again leaves the capacity and the bytes, and room is
made again on request. No reference notices any of this. -/
theorem shrinking_exact (lived : Life Environment.Usual first (machine, arena))
    (tidy : first.Tidy) (idle : arena.build = none) (usual : environment.Usual) :
    let run := shrink environment (machine, arena)
    Shrunk environment machine arena run ∧
      (run.1 = .ok () → ∀ environment', environment'.Usual →
        ShrunkAgain run.2.2 (shrink environment' run.2) ∧
        ∀ additional,
          Regrown environment' arena run.2 additional (reserve additional environment' run.2)) := by
  have hreachable : arena.Reachable := lived.reachable
  obtain ⟨outcome, middle, region, hrun, hshrinks⟩ := (lived.half tidy).shrink
    hreachable.backed hreachable.wellFormed idle environment
  have hnext := lived.step environment usual .shrink
  rw [Operation.run, map_state, hrun] at hnext
  rw [hrun]
  have hshrunk := hshrinks.shrunk hreachable.rounded hreachable.wellFormed
  refine ⟨hshrunk, fun hok environment' usual' => ?_⟩
  -- the arena that is left is one like the first, so what holds of that holds of it as well
  have hleft : Reachable { arena with region := region } := hnext.reachable
  have hhalf := hnext.half tidy
  constructor
  · obtain ⟨outcome', last, region', hagain, hshrinks'⟩ :=
      hhalf.shrink hleft.backed hleft.wellFormed idle environment'
    rw [hagain]
    exact hshrinks'.again hleft.rounded hleft.wellFormed fun moves => hshrunk.least moves hok
  · intro additional
    obtain ⟨hkept, hroom⟩ :=
      hleft.wellFormed.reserve_rehouses idle additional environment' middle
    have hfits : arena.length ≤ region.length := hleft.wellFormed.fits
    have hall := (hshrunk.kept.mono hfits).trans hkept
    exact ⟨hall, hall.findings (Nat.le_refl _), hroom, fun moves exceeds _ next =>
      hhalf.reserve_granted hleft.rounded idle usual'.unmaps moves exceeds next⟩

end PagedAlloc.Arena

namespace PagedAlloc.Arena

open Procedure

attribute [local instance] Size.Paging.common

/-- Three pages become one and then two, and the debug layer moves the buffer each time. -/
theorem shrinking_exact_of_pages :
    let kernel : Environment := .generous
    let made : Arena :=
      ⟨⟨65536, 12288, (Memory.zeroed 12288).fill 0 16 (Run.constant 0)⟩, 16, .pages, ⟨true, false⟩,
        none⟩
    let machine := (create 9000 .pages ⟨true, false⟩ kernel .fresh).2
    let pushed := ((Operation.push (.bytes [1, 2, 3])).run kernel (machine, made)).2
    let run := shrink kernel pushed
    let again := shrink kernel run.2
    let grown := reserve 5000 kernel run.2
    (create 9000 .pages ⟨true, false⟩ kernel .fresh).1 = .ok made ∧
      run.1 = .ok () ∧ run.2.2.capacity = 4096 ∧ again.2.2.capacity = 4096 ∧ grown.1 = .ok () ∧
      grown.2.2.capacity = 8192 ∧ SameFindings pushed.2 grown.2.2 := by
  intro kernel made machine pushed run again grown
  have hmade : (create 9000 .pages ⟨true, false⟩ kernel .fresh).1 = .ok made := rfl
  have hcreated : Life Environment.Usual .fresh (machine, made) :=
    .start kernel Environment.generous_usual 9000 .pages ⟨true, false⟩ (Prod.fst_eq_iff.1 hmade)
  have hlived : Life Environment.Usual .fresh pushed :=
    hcreated.step kernel Environment.generous_usual _
  have hidle : pushed.2.build = none := by decide +kernel
  have hok : run.1 = .ok () := by decide +kernel
  have hpage : run.2.2.capacity = 4096 := by decide +kernel
  have hroom : grown.1 = .ok () ∧ grown.2.2.capacity = 8192 := by decide +kernel
  clear_value pushed
  obtain ⟨middle, arena⟩ := pushed
  obtain ⟨-, hafter⟩ := shrinking_exact hlived (show Machine.fresh.Tidy from nofun) hidle
    Environment.generous_usual
  obtain ⟨hagain, hgrown⟩ := hafter hok kernel Environment.generous_usual
  exact ⟨hmade, hok, hpage, hagain.capacity.trans hpage, hroom.1, hroom.2, (hgrown 5000).findings⟩

end PagedAlloc.Arena
