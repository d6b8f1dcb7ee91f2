import PagedAlloc.Proofs.ArenaBuilds

/-!
# The protocol of builds

Something may be added only while a build is in progress that has not failed. Outside of a build an
addition is to stop, and after a failure it is to give that failure again, both without any effect
(`Arena.Guarded`). All additions are guarded but one kind: content that is too long for the length
before it is refused before anyone looks at the build (`Arena.Addition.Oversized`), with a failure
of its own (`Arena.additions_guarded`).
-/

namespace PagedAlloc.Arena

variable {paging : Size.Paging}

open Procedure

/-- There are more bytes than the length before them can count. -/
def Addition.Oversized : Addition → Prop
  | prefixed content => IntegerType.lengthPrefix.modulus ≤ content.length
  | text value => IntegerType.lengthPrefix.modulus ≤ (utf8 value).length
  | _ => False

instance : DecidablePred Addition.Oversized
  | .prefixed content =>
    inferInstanceAs (Decidable (IntegerType.lengthPrefix.modulus ≤ content.length))
  | .text value =>
    inferInstanceAs (Decidable (IntegerType.lengthPrefix.modulus ≤ (utf8 value).length))
  | .bytes _ | .zeroes _ | .align _ | .integer _ _ | .pointer _ | .terminated _ => isFalse id

/-- The length of an arena leaves room for every alignment below the bound on sizes. -/
def Aligns (arena : Arena) : Prop := arena.length < 1 <<< 63

/-- An addition has no effect where nothing may be added. Outside of a build it is stopped, and after
a failure it gives this failure. -/
structure Guarded [Size.Paging] (arena : Arena) (environment : Environment) (machine : Machine)
    (addition : Addition) : Prop where
  idle : arena.build = none →
    ∃ fault, addition.run environment (machine, arena) = (.error (.fault fault), machine, arena)
  failed : ∀ start first, arena.build = some ⟨start, some first⟩ →
    addition.run environment (machine, arena) = (.error (.failure first), machine, arena)

variable {environment : Environment} {machine : Machine} {arena later : Arena} {start : Nat}
  {first : Failure} {addition : Addition}

/-! ## Additions that are not stopped -/

/-- An alignment that is none is not added. -/
theorem Addition.aligned_or_stopped (addition : Addition) (environment : Environment)
    (machine : Machine) (arena : Arena) :
    addition.Aligned ∨ ∃ fault, addition.run environment (machine, arena) =
      (.error (.fault fault), machine, arena) := by
  cases addition with
  | align alignment =>
    by_cases hpower : Size.IsPowerOfTwo alignment
    · by_cases hsmall : alignment < Size.limit
      · exact Or.inl ⟨hpower, hsmall⟩
      · have hlarge : Size.limit ≤ arena.length + alignment := by omega
        refine Or.inr ⟨.addition, ?_⟩
        rw [Addition.run, addAlign, bind_apply_ok _ _ (ensure_apply _ hpower _ _),
          bind_apply_ok _ _ (own_apply ..), Size.roundUp_of_large hlarge,
          bind_apply_error _ _ (checked_error ..)]
    · exact Or.inr ⟨_, bind_apply_error _ _ (ensure_apply_not _ hpower _ _)⟩
  | _ => exact Or.inl trivial

/-- A build that began is empty. -/
theorem Reachable.staged_begun (h : arena.Reachable) :
    Staged arena.strategies arena.length none [] { arena with build := some ⟨arena.length, none⟩ } where
  wellFormed := h.wellFormed.begun.wellFormed
  backed := ⟨h.backed.consistent, h.backed.suits⟩
  strategies := rfl
  build := rfl
  built _ := by
    rw [built_eq]
    simp

/-- What cannot be counted is refused, whatever the arena is like. -/
theorem Addition.Oversized.run_eq (oversized : addition.Oversized) :
    addition.run = refuse .overflow := by
  cases addition with
  | bytes | zeroes | align | integer | pointer | terminated => exact oversized.elim
  | prefixed content =>
    have hlong : IntegerType.lengthPrefix.modulus ≤ content.length := oversized
    rw [Addition.run, addPrefixed, if_pos hlong]
  | text value =>
    have hlong : IntegerType.lengthPrefix.modulus ≤
        (Stretch.ofBytes (utf8 value) : Stretch Empty).length := by
      rw [Stretch.length_ofBytes]
      exact oversized
    rw [Addition.run, addText, addPrefixed, if_pos hlong]

/-- After an addition that was not stopped, a build that has not failed holds its encoding in
addition. -/
theorem Reachable.built_add (h : arena.Reachable)
    (hbuild : later.build = some ⟨start, none⟩) {result : Except Stop Unit} {machine' : Machine}
    (hrun : addition.run environment (machine, arena) = (result, machine', later))
    (goes_on : ∀ fault, result ≠ .error (.fault fault)) :
    result = .ok () ∧ arena.build = some ⟨start, none⟩ ∧ ¬ addition.Oversized ∧
      later.built start = arena.built start ++ addition.encoding arena.length := by
  have haligned : addition.Aligned := by
    rcases addition.aligned_or_stopped environment machine arena with haligned | ⟨fault, hstopped⟩
    · exact haligned
    · rw [hstopped] at hrun
      cases hrun
      exact absurd rfl (goes_on fault)
  obtain ⟨hformed, hextends⟩ := addition.grows.holds environment (machine, arena) h.wellFormed
  rw [hrun] at hextends
  have hstart := hextends.start
  rw [hbuild] at hstart
  obtain ⟨⟨began, failure⟩, hbefore, rfl⟩ := Option.map_eq_some_iff.1 hstart.symm
  cases failure with
  | some first =>
    -- a build that has failed is left as it is
    obtain ⟨reason, _, hfailed, -⟩ := run_failed hbefore haligned environment machine
    rw [hfailed] at hrun
    cases hrun
    cases hbefore.symm.trans hbuild
  | none =>
    have hstaged : Staged arena.strategies began none (arena.built began) arena :=
      ⟨h.wellFormed, h.backed, rfl, hbefore, fun _ => rfl⟩
    obtain ⟨result', _, _, hrun', hadds⟩ := hstaged.run haligned environment machine
    rw [hrun] at hrun'
    cases hrun'
    cases result with
    | ok =>
      refine ⟨rfl, hbefore, fun oversized => ?_, hadds.built rfl⟩
      rw [oversized.run_eq] at hrun
      cases hrun
    | error reason =>
      cases reason with
      | fault fault => exact absurd rfl (goes_on fault)
      | failure failure => cases hadds.build.symm.trans hbuild

/-! ## Additions where nothing may be added -/

/-- Without a build an addition stops and changes nothing. -/
theorem add_idle [Size.Paging] (idle : arena.build = none) (content : Stretch Empty)
    (environment : Environment) (machine : Machine) :
    add content environment (machine, arena) =
      (.error (.fault .addWithoutBegin), machine, arena) := by
  rw [add, bind_apply_ok _ _ (own_apply ..)]
  simp only [idle]
  rfl

/-- Where nothing may be added, an addition that begins with adding some cells ends there. -/
theorem guarded_of_add (h : ∃ content : Stretch Empty, ∀ reason,
      add content environment (machine, arena) = (.error reason, machine, arena) →
        addition.run environment (machine, arena) = (.error reason, machine, arena)) :
    arena.Guarded environment machine addition := by
  obtain ⟨content, hrun⟩ := h
  exact ⟨fun idle => ⟨_, hrun _ (add_idle idle content environment machine)⟩,
    fun start first hbuild => hrun _ (add_failed hbuild content environment machine)⟩

/-- Content that its length can count begins with this length. -/
theorem guarded_of_prefixed {content : Stretch Empty} (hrun : addition.run = addPrefixed content)
    (counted : content.length < IntegerType.lengthPrefix.modulus) :
    arena.Guarded environment machine addition := by
  refine guarded_of_add
    ⟨Stretch.ofBytes (IntegerType.lengthPrefix.encode content.length), fun reason hadd => ?_⟩
  rw [hrun, addPrefixed, if_neg (Nat.not_le.2 counted)]
  exact bind_apply_error _ _ hadd

/-- Additions are guarded, if their content can be counted and their alignment be added to the
length. -/
theorem guarded_of_counted [Size.Paging] (aligned : addition.Aligned)
    (counted : ¬ addition.Oversized)
    (short : ∀ alignment, addition = .align alignment → arena.Aligns) (environment : Environment)
    (machine : Machine) : arena.Guarded environment machine addition := by
  cases addition with
  | bytes values => exact guarded_of_add ⟨_, fun _ => id⟩
  | zeroes count => exact guarded_of_add ⟨_, fun _ => id⟩
  | integer type value => exact guarded_of_add ⟨_, fun _ => id⟩
  | pointer address => exact guarded_of_add ⟨_, fun _ => id⟩
  | terminated value => exact guarded_of_add ⟨_, fun _ => id⟩
  | prefixed content => exact guarded_of_prefixed rfl (Nat.not_le.1 counted)
  | text value =>
    have hcounted : (Stretch.ofBytes (utf8 value) : Stretch Empty).length <
        IntegerType.lengthPrefix.modulus := by
      rw [Stretch.length_ofBytes]
      exact Nat.not_le.1 counted
    exact guarded_of_prefixed rfl hcounted
  | align alignment =>
    rcases addAlign_cases aligned environment machine arena with hrun | ⟨-, hlong⟩
    · exact guarded_of_add ⟨_, fun _ hadd => hrun.trans hadd⟩
    · exact absurd hlong (Nat.not_le.2 (short alignment rfl))

/-- Nothing may be added outside of a build, and after a failure. -/
def Closed (arena : Arena) : Prop := ∀ build ∈ arena.build, build.failure ≠ none

/-- Content that cannot be counted is refused whether there is a build or not. -/
theorem run_oversized (oversized : addition.Oversized) (closed : arena.Closed)
    (environment : Environment) (machine : Machine) :
    ∃ machine', addition.run environment (machine, arena) =
      (.error (.failure .overflow), machine', arena) := by
  have hkept : arena.build.map (fun build =>
      { build with failure := some (build.failure.getD .overflow) }) = arena.build := by
    cases hbuild : arena.build with
    | none => rfl
    | some build =>
      obtain ⟨start, failure⟩ := build
      obtain ⟨first, rfl⟩ := Option.ne_none_iff_exists'.1 (closed _ hbuild)
      rfl
  refine ⟨{ machine with log := .addFailed .overflow :: machine.log }, ?_⟩
  rw [oversized.run_eq]
  show (Except.error (Stop.failure Failure.overflow), _, { arena with build := _ }) = _
  rw [hkept]

/-- In every arena all additions are guarded whose content can be counted. Content that is too long
for the length before it is refused with an overflow instead, outside of a build and after a failure
as well. -/
theorem additions_guarded (arena : Arena) {addition : Addition} (aligned : addition.Aligned)
    (short : ∀ alignment, addition = .align alignment → arena.Aligns) (environment : Environment)
    (machine : Machine) :
    (¬ addition.Oversized → arena.Guarded environment machine addition) ∧
      (addition.Oversized → arena.Closed →
        ∃ machine', addition.run environment (machine, arena) =
          (.error (.failure .overflow), machine', arena)) :=
  ⟨fun counted => guarded_of_counted aligned counted short environment machine,
    fun oversized closed => run_oversized oversized closed environment machine⟩

end PagedAlloc.Arena

namespace PagedAlloc.Arena

open Procedure

attribute [local instance] Size.Paging.common

theorem additions_guarded_after_failure :
    let arena : Arena :=
      ⟨⟨65536, 64, (Memory.zeroed 64).fill 0 16 (Run.constant 0)⟩, 16, .fixedHeap, .off,
        some ⟨16, some (.cannotGrow 64 128)⟩⟩
    (Addition.align 8).run .ordinary (.fresh, arena) =
      (.error (.failure (.cannotGrow 64 128)), .fresh, arena) := by
  intro arena
  have haligned : (Addition.align 8).Aligned := by
    show _ ∧ _
    decide
  have hshort : arena.Aligns := by
    show 16 < 1 <<< 63
    decide
  exact ((arena.additions_guarded haligned (fun _ _ => hshort) .ordinary .fresh).1 id).failed _ _ rfl

/-- An idle arena refuses content that cannot be counted instead of stopping, and an arena whose
build has failed refuses it with another failure than the first one. -/
theorem oversized_not_guarded :
    let idle : Arena :=
      ⟨⟨65536, 64, (Memory.zeroed 64).fill 0 16 (Run.constant 0)⟩, 16, .fixedHeap, .off, none⟩
    let failed : Arena :=
      (idle.after .ordinary .fresh .begin).after .ordinary .fresh (.add (.zeroes 100))
    let addition : Addition := .prefixed (Stretch.zeros (1 <<< 32))
    idle.Reachable ∧ failed.Reachable ∧ failed.build = some ⟨16, some (.cannotGrow 64 128)⟩ ∧
      ¬ idle.Guarded .ordinary .fresh addition ∧ ¬ failed.Guarded .ordinary .fresh addition := by
  intro idle failed addition
  have hidle : idle.Reachable := .start .ordinary .fresh _ 64 .fixedHeap .off _ rfl
  have hbuild : failed.build = some ⟨16, some (.cannotGrow 64 128)⟩ := by decide +kernel
  have hoversized : addition.Oversized := by
    show IntegerType.lengthPrefix.modulus ≤ 1 <<< 32
    decide
  refine ⟨hidle, (hidle.step ..).step .., hbuild, fun hguarded => ?_, fun hguarded => ?_⟩
  · have hclosed : idle.Closed := nofun
    obtain ⟨machine', hrun⟩ := run_oversized hoversized hclosed .ordinary .fresh
    obtain ⟨fault, hstopped⟩ := hguarded.idle rfl
    cases hrun.symm.trans hstopped
  · have hclosed : failed.Closed := by
      rw [Closed, hbuild]
      rintro build ⟨⟩
      exact nofun
    obtain ⟨machine', hrun⟩ := run_oversized hoversized hclosed .ordinary .fresh
    cases hrun.symm.trans (hguarded.failed _ _ hbuild)

end PagedAlloc.Arena
