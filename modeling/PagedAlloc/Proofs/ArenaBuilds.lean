import PagedAlloc.Proofs.ArenaRequests
import PagedAlloc.Proofs.Encodings

/-!
# Builds of an arena

A build is all or nothing. As long as no addition fails, the bytes from the start of the build on
are the encodings of what was added (`Arena.Staged`); after the first failure nothing is added any
more, and the failure is remembered. So a commit keeps just these bytes or goes back with the first
failure, an abandoned build goes back as well, and a push of the same additions ends as the commit
does (`Arena.Reachable.build_atomic`).
-/

namespace PagedAlloc.Arena

variable {paging : Size.Paging}

open Procedure

/-- Makes all additions, also after one has failed, and gives the outcome of each. -/
def addEach [Size.Paging] : List Addition → Procedure (Machine × Arena) (List (Except Failure Unit))
  | [] => return []
  | addition :: rest => do
    let outcome ← attempt addition.run
    return outcome :: (← addEach rest)

/-- Makes all additions up to the first one that fails. -/
def addAll [Size.Paging] : List Addition → Procedure (Machine × Arena) Unit
  | [] => return
  | addition :: rest => do
    addition.run
    addAll rest

/-- The first failure among the outcomes of additions. -/
def firstFailure : List (Except Failure Unit) → Option Failure
  | [] => none
  | .ok () :: rest => firstFailure rest
  | .error failure :: _ => some failure

/-- How something ends that is to give a value unless there was a failure. -/
def ending {α : Type} (failure : Option Failure) (value : α) : Except Stop α :=
  match failure with
  | none => .ok value
  | some failure => .error (.failure failure)

/-- Alignments are powers of two that fit a machine word. -/
def Addition.Aligned : Addition → Prop
  | align alignment => Size.IsPowerOfTwo alignment ∧ alignment < Size.limit
  | _ => True

instance : DecidablePred Addition.Aligned
  | .align alignment =>
    inferInstanceAs (Decidable (Size.IsPowerOfTwo alignment ∧ alignment < Size.limit))
  | .bytes _ | .zeroes _ | .integer _ _ | .pointer _ | .terminated _ | .prefixed _ | .text _ =>
    isTrue trivial

/-- What may stop an addition for good: the causes that stop a request of the arena, and an
alignment that is added to half of all addresses. -/
def Stopped (environment : Environment) (strategies : Strategies) (arena : Arena)
    (fault : Fault) : Prop :=
  Interruption environment strategies fault ∨ fault = .addition ∧ 1 <<< 63 ≤ arena.length

/-- A build that began at `start` is in progress. Unless it has failed, `bytes` were built. -/
structure Staged [Size.Paging] (strategies : Strategies) (start : Nat) (failure : Option Failure)
    (bytes : List UInt8) (arena : Arena) : Prop where
  wellFormed : arena.WellFormed
  backed : arena.Backed
  strategies : arena.strategies = strategies
  build : arena.build = some ⟨start, failure⟩
  built : failure = none → arena.built start = bytes

/-- What comes of an addition to a build that has not failed. -/
def Adds [Size.Paging] (environment : Environment) (strategies : Strategies) (start : Nat)
    (bytes : List UInt8) : Except Stop Unit → Arena → Prop
  | .ok (), after => Staged strategies start none bytes after
  | .error (.failure failure), after => Staged strategies start (some failure) bytes after
  | .error (.fault fault), after => Stopped environment strategies after fault

variable {environment : Environment} {machine : Machine} {arena : Arena} {strategies : Strategies}
  {start : Nat} {failure first : Failure} {bytes : List UInt8} {content : Stretch Empty}

/-! ## Adding to a build -/

theorem Staged.start_le {failure : Option Failure}
    (h : Staged strategies start failure bytes arena) : start ≤ arena.length :=
  (h.wellFormed.started _ h.build).2

theorem Staged.length_eq (h : Staged strategies start none bytes arena) :
    arena.length = start + bytes.length := by
  have hle := h.start_le
  rw [← h.built rfl, length_built]
  omega

/-- A failure is remembered, and what was added stays until the build ends. -/
theorem Staged.refuse (h : Staged strategies start none bytes arena) (failure : Failure)
    (more : List UInt8) (environment : Environment) (machine : Machine) :
    ∃ machine' after, Arena.refuse failure environment (machine, arena) =
        (.error (.failure failure), machine', after) ∧
      Staged strategies start (some failure) more after := by
  obtain ⟨hformed, -⟩ := (grows_refuse failure).holds environment (machine, arena) h.wellFormed
  refine ⟨_, _, rfl, hformed, ⟨h.backed.consistent, h.backed.suits⟩, h.strategies, ?_, nofun⟩
  show arena.build.map _ = _
  rw [h.build]
  rfl

/-- Adding to a build that has not failed. -/
theorem Staged.add (h : Staged strategies start none bytes arena) (content : Stretch Empty)
    (environment : Environment) (machine : Machine) :
    ∃ result machine' after, Arena.add content environment (machine, arena) =
        (result, machine', after) ∧
      Adds environment strategies start (bytes ++ content.bytes) result after := by
  obtain ⟨result, machine', region, hrun, hbacked, hfault⟩ :=
    h.backed.makeRoom content.length environment machine
  obtain ⟨_, _, _, hrun', hformed, hextends, hlength, hroom⟩ :=
    h.wellFormed.makeRoom content.length environment machine
  rw [hrun] at hrun'
  obtain ⟨rfl, hpair⟩ := Prod.mk.inj hrun'
  obtain ⟨rfl, rfl⟩ := Prod.mk.inj hpair
  have hstart := h.start_le
  -- the buffer may have moved, and the bytes that were built moved with it
  have hstaged : Staged strategies start none bytes { arena with region := region } := by
    refine ⟨hformed, hbacked, h.strategies, h.build, fun _ => ?_⟩
    rw [← h.built rfl, built_eq, built_eq]
    refine List.map_congr_left fun count hcount => congrArg Cell.toByte (hextends.cells _ ?_)
    have hlt := List.mem_range.1 hcount
    simp only at hlt
    omega
  rw [Arena.add, bind_apply_ok _ _ (own_apply ..)]
  simp only [h.build]
  cases result with
  | error reason =>
    cases reason with
    | fault fault =>
      rw [bind_apply_error _ _ (attempt_fault _ hrun)]
      exact ⟨_, _, _, rfl, Or.inl (h.strategies ▸ hfault fault rfl)⟩
    | failure failure =>
      obtain ⟨machine'', after, hrefuse, hfailed⟩ :=
        hstaged.refuse failure (bytes ++ content.bytes) environment machine'
      rw [bind_apply_ok _ _ (attempt_failure _ hrun)]
      exact ⟨_, _, _, hrefuse, hfailed⟩
  | ok =>
    have hfits : arena.length + content.length ≤ region.length := hroom rfl
    obtain ⟨hformed', -⟩ := hformed.append hfits
    rw [bind_apply_ok _ _ (attempt_ok _ hrun)]
    refine ⟨_, _, _, rfl, hformed', ⟨hbacked.consistent, hbacked.suits⟩, h.strategies, h.build,
      fun _ => ?_⟩
    have hinside : arena.length + content.length ≤ region.memory.length :=
      Nat.le_trans hfits (Nat.le_of_eq hformed.whole.symm)
    have hbegan : start ≤ ({ arena with region := region } : Arena).length := hstart
    have happend := built_append hbegan hinside
    rw [hstaged.built rfl] at happend
    exact happend

/-- An alignment that fits a machine word is at most half of all addresses. -/
theorem le_half_of_power {alignment : Nat} (power : Size.IsPowerOfTwo alignment)
    (small : alignment < Size.limit) : alignment ≤ 1 <<< 63 := by
  have hlimit : Size.limit = 2 ^ 64 := by decide
  rw [← power.2, Nat.one_shiftLeft, hlimit] at small
  have hlog := (Nat.pow_lt_pow_iff_right (by decide)).1 small
  rw [← power.2, Nat.one_shiftLeft, Nat.one_shiftLeft]
  exact Nat.pow_le_pow_right (by decide) (Nat.le_of_lt_succ hlog)

/-- Padding leads to the next multiple of the alignment. -/
theorem padding_eq {alignment : Nat} (positive : 0 < alignment) (length : Nat) :
    Size.roundDown (length + alignment - 1) alignment - length =
        (alignment - length % alignment) % alignment ∧
      length ≤ Size.roundDown (length + alignment - 1) alignment := by
  have hdiv := Nat.div_add_mod length alignment
  have hlt := Nat.mod_lt length positive
  rw [Size.roundDown]
  by_cases hzero : length % alignment = 0
  · have hmod : (length + alignment - 1) % alignment = alignment - 1 := by
      rw [show length + alignment - 1 = (alignment - 1) + alignment * (length / alignment) by omega,
        Nat.add_mul_mod_self_left, Nat.mod_eq_of_lt (by omega)]
    rw [hmod, hzero, Nat.sub_zero, Nat.mod_self]
    omega
  · have hmod : (length + alignment - 1) % alignment = length % alignment - 1 := by
      rw [show length + alignment - 1 =
          (length % alignment - 1) + alignment * (length / alignment + 1) by
            rw [Nat.mul_succ]; omega,
        Nat.add_mul_mod_self_left, Nat.mod_eq_of_lt (by omega)]
    rw [hmod, Nat.mod_eq_of_lt (show alignment - length % alignment < alignment by omega)]
    omega

/-- An alignment adds its padding, unless it cannot even be added to the length. -/
theorem addAlign_cases {alignment : Nat} (aligned : (Addition.align alignment).Aligned)
    (environment : Environment) (machine : Machine) (arena : Arena) :
    addAlign alignment environment (machine, arena) =
        addZeroes ((alignment - arena.length % alignment) % alignment) environment
          (machine, arena) ∨
      addAlign alignment environment (machine, arena) =
          (.error (.fault .addition), machine, arena) ∧ 1 <<< 63 ≤ arena.length := by
  obtain ⟨hpower, hsmall⟩ := aligned
  obtain ⟨hpadding, hle⟩ := padding_eq hpower.1 arena.length
  rw [addAlign, bind_apply_ok _ _ (ensure_apply _ hpower _ _), bind_apply_ok _ _ (own_apply ..)]
  by_cases hsum : arena.length + alignment < Size.limit
  · refine Or.inl ?_
    rw [Size.roundUp_of_fits hpower.1 hsum, bind_apply_ok _ _ (checked_ok ..), Size.sub, if_pos hle,
      bind_apply_ok _ _ (checked_ok ..), hpadding]
  · refine Or.inr ⟨?_, ?_⟩
    · rw [Size.roundUp_of_large (Nat.le_of_not_lt hsum), bind_apply_error _ _ (checked_error ..)]
    · have hhalf := le_half_of_power hpower hsmall
      have hlimit : Size.limit = 1 <<< 63 + 1 <<< 63 := by decide
      omega

/-- A length goes before the bytes that it counts, or there are too many of them. -/
theorem Staged.addPrefixed (h : Staged strategies start none bytes arena)
    (content : Stretch Empty) (environment : Environment) (machine : Machine) :
    ∃ result machine' after, Arena.addPrefixed content environment (machine, arena) =
        (result, machine', after) ∧
      Adds environment strategies start
        (bytes ++ (digits 4 content.length ++ content.bytes)) result after := by
  unfold Arena.addPrefixed
  split
  · obtain ⟨machine', after, hrefuse, hfailed⟩ := h.refuse .overflow
      (bytes ++ (digits 4 content.length ++ content.bytes)) environment machine
    exact ⟨_, machine', after, hrefuse, hfailed⟩
  · obtain ⟨result, machine', middle, hrun, hadds⟩ :=
      h.add (Stretch.ofBytes (IntegerType.lengthPrefix.encode content.length)) environment machine
    rw [Stretch.bytes_ofBytes, IntegerType.encode_eq_digits] at hadds
    cases result with
    | error reason =>
      refine ⟨_, machine', middle, bind_apply_error _ _ hrun, ?_⟩
      cases reason with
      | fault fault => exact hadds
      -- the prefix failed, so there is no telling what the build would have held
      | failure failure =>
        exact ⟨hadds.wellFormed, hadds.backed, hadds.strategies, hadds.build, nofun⟩
    | ok =>
      obtain ⟨result, machine'', after, hrun', hadds'⟩ := hadds.add content environment machine'
      rw [List.append_assoc] at hadds'
      exact ⟨result, machine'', after, (bind_apply_ok _ _ hrun).trans hrun', hadds'⟩

/-- Every addition to a build that has not failed adds its encoding, or fails and is remembered. -/
theorem Staged.run (h : Staged strategies start none bytes arena) {addition : Addition}
    (aligned : addition.Aligned) (environment : Environment) (machine : Machine) :
    ∃ result machine' after, addition.run environment (machine, arena) =
        (result, machine', after) ∧
      Adds environment strategies start (bytes ++ addition.encoding arena.length) result after := by
  have hbytes : ∀ values : List UInt8, ∃ result machine' after,
      addBytes values environment (machine, arena) = (result, machine', after) ∧
        Adds environment strategies start (bytes ++ values) result after := by
    intro values
    have hadd := h.add (Stretch.ofBytes values) environment machine
    rwa [Stretch.bytes_ofBytes] at hadd
  have hzeroes : ∀ count : Nat, ∃ result machine' after,
      addZeroes count environment (machine, arena) = (result, machine', after) ∧
        Adds environment strategies start (bytes ++ List.replicate count 0) result after := by
    intro count
    have hadd := h.add (Stretch.zeros count) environment machine
    rwa [Stretch.bytes_zeros] at hadd
  -- all additions but the prefixed ones and the aligned ones are bytes of a known encoding
  cases addition with
  | bytes values => exact hbytes values
  | zeroes count => exact hzeroes count
  | terminated value => exact hbytes _
  | integer type value =>
    rw [Addition.encoding, ← IntegerType.encode_eq_digits]
    exact hbytes _
  | pointer address =>
    have hword : IntegerType.word.encode address = digits 8 address :=
      IntegerType.encode_eq_digits ..
    rw [Addition.encoding, ← hword]
    exact hbytes _
  | prefixed content => exact h.addPrefixed content environment machine
  | text value =>
    have htext := h.addPrefixed (Stretch.ofBytes (utf8 value)) environment machine
    rwa [Stretch.length_ofBytes, Stretch.bytes_ofBytes] at htext
  | align alignment =>
    rcases addAlign_cases aligned environment machine arena with heq | ⟨hfault, hlong⟩
    · rw [Addition.run, heq]
      exact hzeroes _
    · exact ⟨_, _, _, hfault, Or.inr ⟨rfl, hlong⟩⟩

/-! ## Builds that have failed -/

/-- After a failure nothing is added, and the failure is told again. -/
theorem add_failed [Size.Paging] (hbuild : arena.build = some ⟨start, some first⟩)
    (content : Stretch Empty) (environment : Environment) (machine : Machine) :
    add content environment (machine, arena) = (.error (.failure first), machine, arena) := by
  rw [add, bind_apply_ok _ _ (own_apply ..)]
  simp only [hbuild]
  rfl

/-- No addition changes a build that has failed, and all of them fail. -/
theorem run_failed (hbuild : arena.build = some ⟨start, some first⟩) {addition : Addition}
    (aligned : addition.Aligned) (environment : Environment) (machine : Machine) :
    ∃ reason machine', addition.run environment (machine, arena) =
        (.error reason, machine', arena) ∧
      ∀ fault, reason = .fault fault → fault = .addition ∧ 1 <<< 63 ≤ arena.length := by
  have hadd : ∀ content : Stretch Empty, ∃ reason machine',
      add content environment (machine, arena) = (.error reason, machine', arena) ∧
        ∀ fault, reason = .fault fault → fault = .addition ∧ 1 <<< 63 ≤ arena.length :=
    fun content => ⟨_, _, add_failed hbuild content environment machine, nofun⟩
  have hprefixed : ∀ content : Stretch Empty, ∃ reason machine',
      addPrefixed content environment (machine, arena) = (.error reason, machine', arena) ∧
        ∀ fault, reason = .fault fault → fault = .addition ∧ 1 <<< 63 ≤ arena.length := by
    intro content
    unfold addPrefixed
    split
    · -- the first failure is kept, so to note another one changes nothing
      have hsame : arena.build.map (fun build =>
          { build with failure := some (build.failure.getD .overflow) }) = arena.build := by
        rw [hbuild]
        rfl
      refine ⟨.failure .overflow, { machine with log := .addFailed .overflow :: machine.log }, ?_,
        nofun⟩
      show (Except.error (Stop.failure Failure.overflow), _, { arena with build := _ }) = _
      rw [hsame]
    · exact ⟨_, _, bind_apply_error _ _ (add_failed hbuild _ environment machine), nofun⟩
  cases addition with
  | bytes values => exact hadd _
  | zeroes count => exact hadd _
  | terminated value => exact hadd _
  | integer type value => exact hadd _
  | pointer address => exact hadd _
  | prefixed content => exact hprefixed content
  | text value => exact hprefixed _
  | align alignment =>
    rcases addAlign_cases aligned environment machine arena with heq | ⟨hfault, hlong⟩
    · rw [Addition.run, heq]
      exact hadd _
    · refine ⟨_, _, hfault, ?_⟩
      rintro fault ⟨⟩
      exact ⟨rfl, hlong⟩

theorem addEach_cons {addition : Addition} {rest : List Addition} {machine' : Machine}
    {middle : Arena} {outcome : Except Failure Unit}
    (hrun : attempt addition.run environment (machine, arena) = (.ok outcome, machine', middle)) :
    addEach (addition :: rest) environment (machine, arena) =
      ((addEach rest environment (machine', middle)).1.map (outcome :: ·),
        (addEach rest environment (machine', middle)).2) := by
  rw [addEach, bind_apply_ok _ _ hrun, bind_apply]
  split <;> rename_i heq <;> rw [heq] <;> rfl

/-- After a failure the remaining additions change nothing. -/
theorem addEach_failed (hbuild : arena.build = some ⟨start, some first⟩)
    {additions : List Addition} (aligned : ∀ addition ∈ additions, addition.Aligned)
    (environment : Environment) (machine : Machine) :
    ∃ result machine', addEach additions environment (machine, arena) = (result, machine', arena) ∧
      ((∃ outcomes, result = .ok outcomes ∧ outcomes.length = additions.length) ∨
        result = .error (.fault .addition) ∧ 1 <<< 63 ≤ arena.length) := by
  induction additions generalizing machine with
  | nil => exact ⟨_, machine, rfl, Or.inl ⟨[], rfl, rfl⟩⟩
  | cons addition rest ih =>
    obtain ⟨reason, machine', hrun, hfault⟩ :=
      run_failed hbuild (aligned addition (List.mem_cons_self ..)) environment machine
    cases reason with
    | fault fault =>
      obtain ⟨rfl, hlong⟩ := hfault fault rfl
      exact ⟨_, machine', bind_apply_error _ _ (attempt_fault _ hrun), Or.inr ⟨rfl, hlong⟩⟩
    | failure failure =>
      obtain ⟨result, after, hrest, hcases⟩ :=
        ih (fun other hother => aligned other (List.mem_cons_of_mem _ hother)) machine'
      rw [addEach_cons (attempt_failure _ hrun), hrest]
      refine ⟨_, after, rfl, ?_⟩
      rcases hcases with ⟨outcomes, rfl, hlength⟩ | ⟨rfl, hlong⟩
      · exact Or.inl ⟨_, rfl, congrArg (· + 1) hlength⟩
      · exact Or.inr ⟨rfl, hlong⟩

/-! ## All additions of a build -/

/-- What a build is after some additions: it holds their encodings, or remembers the first failure.
With additions that stop at the first failure it is the same. -/
theorem Staged.addEach (h : Staged strategies start none bytes arena) {additions : List Addition}
    (aligned : ∀ addition ∈ additions, addition.Aligned) (environment : Environment)
    (machine : Machine) :
    ∃ result machine' after, Arena.addEach additions environment (machine, arena) =
        (result, machine', after) ∧
      ((∃ outcomes, result = .ok outcomes ∧ outcomes.length = additions.length ∧
          Staged strategies start (firstFailure outcomes)
            (bytes ++ encodings arena.length additions) after ∧
          ∃ machine'', addAll additions environment (machine, arena) =
            (ending (firstFailure outcomes) (), machine'', after)) ∨
        ∃ fault, result = .error (.fault fault) ∧
          Stopped environment strategies after fault) := by
  induction additions generalizing arena bytes machine with
  | nil =>
    refine ⟨_, machine, arena, rfl, Or.inl ⟨[], rfl, rfl, ?_, machine, rfl⟩⟩
    rwa [encodings, List.append_nil]
  | cons addition rest ih =>
    have haligned : ∀ other ∈ rest, other.Aligned := fun other hother =>
      aligned other (List.mem_cons_of_mem _ hother)
    obtain ⟨result, machine', middle, hrun, hadds⟩ :=
      h.run (aligned addition (List.mem_cons_self ..)) environment machine
    cases result with
    | error reason =>
      cases reason with
      | fault fault =>
        exact ⟨_, machine', middle, bind_apply_error _ _ (attempt_fault _ hrun),
          Or.inr ⟨fault, rfl, hadds⟩⟩
      | failure failure =>
        -- the build is as it will be at its end: all further additions only repeat the failure
        obtain ⟨result, after, hrest, hcases⟩ :=
          addEach_failed hadds.build haligned environment machine'
        rw [addEach_cons (attempt_failure _ hrun), hrest]
        refine ⟨_, after, middle, rfl, ?_⟩
        rcases hcases with ⟨outcomes, rfl, hlength⟩ | ⟨rfl, hlong⟩
        · refine Or.inl ⟨_, rfl, congrArg (· + 1) hlength, ?_, machine', ?_⟩
          · exact ⟨hadds.wellFormed, hadds.backed, hadds.strategies, hadds.build, nofun⟩
          · exact bind_apply_error _ _ hrun
        · exact Or.inr ⟨_, rfl, Or.inr ⟨rfl, hlong⟩⟩
    | ok =>
      obtain ⟨result, after, last, hrest, hcases⟩ := ih hadds haligned machine'
      have hlength : middle.length = arena.length + (addition.encoding arena.length).length := by
        rw [hadds.length_eq, h.length_eq, List.length_append, Nat.add_assoc]
      rw [addEach_cons (attempt_ok _ hrun), hrest]
      refine ⟨_, after, last, rfl, ?_⟩
      rcases hcases with ⟨outcomes, rfl, hcount, hstaged, machine'', hall⟩ | ⟨fault, rfl, hstopped⟩
      · refine Or.inl ⟨_, rfl, congrArg (· + 1) hcount, ?_, machine'', ?_⟩
        · rw [hlength, List.append_assoc] at hstaged
          exact hstaged
        · exact (bind_apply_ok _ _ hrun).trans hall
      · exact Or.inr ⟨fault, rfl, hstopped⟩

/-! ## The ends of a build -/

/-- A commit keeps the length of a build, or after a failure goes back to its start. -/
theorem commit_staged {failure : Option Failure} (hbuild : arena.build = some ⟨start, failure⟩)
    (hstart : start ≤ arena.length) (environment : Environment) (machine : Machine) :
    ∃ machine', commit environment (machine, arena) = (ending failure ⟨start⟩, machine',
      { arena with build := none, length := if failure.isSome then start else arena.length }) := by
  rw [commit, bind_apply_ok _ _ (endBuild_some hbuild _)]
  cases failure with
  | some failure => exact ⟨_, rfl⟩
  | none =>
    simp only
    rw [bind_apply_ok _ _ (own_apply ..), Size.sub, if_pos hstart,
      bind_apply_ok _ _ (checked_ok ..)]
    exact ⟨_, rfl⟩

/-- An abandoned build goes back to its start, whatever came of its additions. -/
theorem abandon_staged {failure : Option Failure} (hbuild : arena.build = some ⟨start, failure⟩)
    (environment : Environment) (machine : Machine) :
    abandon environment (machine, arena) =
      (.ok (), machine, { arena with build := none, length := start }) := by
  rw [abandon, bind_apply_ok _ _ (endBuild_some hbuild _)]
  rfl

theorem begin_idle (idle : arena.build = none) (environment : Environment) (machine : Machine) :
    begin environment (machine, arena) =
      (.ok (), machine, { arena with build := some ⟨arena.length, none⟩ }) := by
  rw [begin, bind_apply_ok _ _ (own_apply ..), bind_apply_ok _ _ (ensure_apply _ idle _ _)]
  rfl

/-- A push ends as a build with a commit does. -/
theorem push_staged {addition : Procedure (Machine × Arena) Unit} {failure : Option Failure}
    {middle : Machine} {built : Arena} (idle : arena.build = none)
    (hrun : addition environment (machine, { arena with build := some ⟨arena.length, none⟩ }) =
      (ending failure (), middle, built))
    (hbuild : built.build = some ⟨arena.length, failure⟩) (hstart : arena.length ≤ built.length) :
    ∃ machine', push addition environment (machine, arena) =
      (ending failure ⟨arena.length⟩, machine', { built with
        build := none
        length := if failure.isSome then arena.length else built.length }) := by
  rw [push, bind_apply_ok _ _ (begin_idle idle _ _)]
  cases failure with
  | none =>
    rw [bind_apply_ok _ _ (attempt_ok _ hrun)]
    exact commit_staged hbuild hstart environment middle
  | some failure =>
    rw [bind_apply_ok _ _ (attempt_failure _ hrun)]
    simp only
    rw [bind_apply_ok _ _ (abandon_staged hbuild environment middle)]
    exact ⟨_, rfl⟩

theorem grows_addEach [Size.Paging] (additions : List Addition) : Follows Grows
    (addEach additions) := by
  induction additions with
  | nil => exact grows_unchanged fun _ _ => rfl
  | cons addition rest ih =>
    exact grows_bind (Follows.attempt addition.grows) fun _ =>
      grows_bind ih fun _ => grows_unchanged fun _ _ => rfl

/-! ## Builds are atomic -/

/-- What may be relied on when a build of an idle arena is at its end. A commit gives a reference to
the start of the build, from where on the encodings of the additions follow, unless an addition
failed: then it gives the first failure and goes back, to the arena that an abandoned build leaves
behind. A push of the same additions gives what the commit gives. The arena is idle again, and the
bytes below the build are the same as before. -/
structure Atomic [Size.Paging] (arena : Arena) (environment : Environment) (machine : Machine)
    (additions : List Addition) (outcomes : List (Except Failure Unit)) (state : Machine × Arena) :
    Prop where
  counted : outcomes.length = additions.length
  committed : (commit environment state).1 = ending (firstFailure outcomes) ⟨arena.length⟩
  kept : firstFailure outcomes = none →
    (commit environment state).2.2.built arena.length = encodings arena.length additions
  rolledBack : firstFailure outcomes ≠ none →
    (commit environment state).2.2.length = arena.length ∧
      (commit environment state).2.2 = (abandon environment state).2.2
  abandoned : (abandon environment state).1 = .ok () ∧
    (abandon environment state).2.2.length = arena.length
  pushed : (push (addAll additions) environment (machine, arena)).1 =
      (commit environment state).1 ∧
    (push (addAll additions) environment (machine, arena)).2.2 = (commit environment state).2.2
  idle : (commit environment state).2.2.build = none ∧ (abandon environment state).2.2.build = none
  below : ∀ offset < arena.length,
    (commit environment state).2.2.region.memory.cell offset = arena.region.memory.cell offset ∧
      (abandon environment state).2.2.region.memory.cell offset = arena.region.memory.cell offset

/-- In every reachable arena that is idle a build may begin, and any additions may be made. Either
one of them is stopped for good, for a cause that no allocator can prevent, or the build is
atomic. -/
theorem Reachable.build_atomic (h : arena.Reachable) (idle : arena.build = none)
    {additions : List Addition} (aligned : ∀ addition ∈ additions, addition.Aligned)
    (environment : Environment) (machine : Machine) :
    ∃ begun, begin environment (machine, arena) = (.ok (), begun) ∧
      ((∃ outcomes state, addEach additions environment begun = (.ok outcomes, state) ∧
          arena.Atomic environment machine additions outcomes state) ∨
        ∃ fault state, addEach additions environment begun = (.error (.fault fault), state) ∧
          Stopped environment arena.strategies state.2 fault) := by
  have hstaged : Staged arena.strategies arena.length none []
      { arena with build := some ⟨arena.length, none⟩ } := by
    refine ⟨h.wellFormed.begun.wellFormed, ⟨h.backed.consistent, h.backed.suits⟩, rfl, rfl,
      fun _ => ?_⟩
    rw [built_eq]
    simp
  refine ⟨_, begin_idle idle environment machine, ?_⟩
  obtain ⟨result, middle, built, hrun, hcases⟩ := hstaged.addEach aligned environment machine
  rcases hcases with ⟨outcomes, rfl, hcount, hbuilt, machine', hall⟩ | ⟨fault, rfl, hstopped⟩
  · refine Or.inl ⟨outcomes, (middle, built), hrun, ?_⟩
    have hstart := hbuilt.start_le
    obtain ⟨committed, hcommit⟩ := commit_staged hbuilt.build hstart environment middle
    have habandon := abandon_staged hbuilt.build environment middle
    obtain ⟨pushed, hpush⟩ := push_staged idle hall hbuilt.build hstart
    -- additions leave the bytes below the start of the build alone
    have hcells := ((grows_addEach additions).holds environment (machine, _)
      hstaged.wellFormed).2.cells
    rw [hrun] at hcells
    refine ⟨hcount, ?_, ?_, ?_, ?_, ?_, ?_, ?_⟩
    · rw [hcommit]
    · intro hnone
      rw [hcommit, hnone]
      exact hbuilt.built hnone
    · intro hsome
      rw [hcommit, habandon, Option.isSome_iff_ne_none.2 hsome]
      exact ⟨rfl, rfl⟩
    · rw [habandon]
      exact ⟨rfl, rfl⟩
    · rw [hpush, hcommit]
      exact ⟨rfl, rfl⟩
    · rw [hcommit, habandon]
      exact ⟨rfl, rfl⟩
    · intro offset hlt
      rw [hcommit, habandon]
      exact ⟨hcells offset hlt, hcells offset hlt⟩
  · exact Or.inr ⟨fault, (middle, built), hrun, hstopped⟩

end PagedAlloc.Arena

namespace PagedAlloc.Arena

open Procedure

attribute [local instance] Size.Paging.common

/-- A fixed buffer that has no room for the fourth of five additions. Nothing of the build is left,
and the failure of the fourth is what the commit tells. -/
theorem build_atomic_without_room :
    let arena : Arena :=
      ⟨⟨65536, 32, (Memory.zeroed 32).fill 0 16 (Run.constant 0)⟩, 16, .fixedHeap, .off, none⟩
    let additions : List Addition :=
      [.bytes [1, 2, 3], .align 4, .integer ⟨2, true⟩ (-2), .zeroes 100, .text "left out"]
    ∃ begun outcomes state, begin .ordinary (.fresh, arena) = (.ok (), begun) ∧
      addEach additions .ordinary begun = (.ok outcomes, state) ∧
      firstFailure outcomes = some (.cannotGrow 32 128) ∧
      arena.Atomic .ordinary .fresh additions outcomes state := by
  intro arena additions
  have hreachable : arena.Reachable := .start .ordinary .fresh _ 32 .fixedHeap .off _ rfl
  have haligned : ∀ addition ∈ additions, addition.Aligned := by
    simp only [additions, List.forall_mem_cons]
    refine ⟨trivial, ?_, trivial, trivial, trivial, by simp⟩
    show _ ∧ _
    decide
  obtain ⟨begun, hbegin, hcases⟩ := hreachable.build_atomic rfl haligned .ordinary .fresh
  have hfirst : (addEach additions .ordinary (begin .ordinary (.fresh, arena)).2).1.toOption.bind
      firstFailure = some (.cannotGrow 32 128) := by decide +kernel
  rw [hbegin] at hfirst
  rcases hcases with ⟨outcomes, state, hrun, hatomic⟩ | ⟨fault, state, hrun, -⟩
  · rw [hrun] at hfirst
    exact ⟨begun, outcomes, state, hbegin, hrun, hfirst, hatomic⟩
  · rw [hrun] at hfirst
    cases hfirst

end PagedAlloc.Arena
