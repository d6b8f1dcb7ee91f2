import PagedAlloc.Arena.Build
import PagedAlloc.Proofs.RegionContents

/-!
# States of an arena

An arena is well formed if its buffer is all usable and long enough for what is in use, and a build
in progress began within that. Additions, and whatever else makes room, only extend an arena: they
keep the bytes in use and the start of the build (`Arena.Extends`), also when they fail or are
stopped on the way.
-/

namespace PagedAlloc.Arena

variable {paging : Size.Paging}

open Procedure

/-- What holds of an arena between two operations. -/
structure WellFormed (arena : Arena) : Prop where
  whole : arena.region.Whole
  reserved : firstOffset ≤ arena.length
  fits : arena.length ≤ arena.capacity
  started : ∀ build ∈ arena.build, firstOffset ≤ build.start ∧ build.start ≤ arena.length

/-- One arena has all bytes in use that the other one has, at the same offsets, and the build in
progress began at the same length. -/
structure Extends (before after : Arena) : Prop where
  length : before.length ≤ after.length
  cells : ∀ offset < before.length,
    after.region.memory.cell offset = before.region.memory.cell offset
  start : after.build.map Build.start = before.build.map Build.start

theorem Extends.refl (arena : Arena) : Extends arena arena :=
  ⟨Nat.le_refl _, fun _ _ => rfl, rfl⟩

/-- Extensions of extensions keep the bytes and the build as well. -/
theorem Extends.trans {first second third : Arena} (h : Extends first second)
    (h' : Extends second third) : Extends first third where
  length := Nat.le_trans h.length h'.length
  cells offset hlt :=
    (h'.cells offset (Nat.lt_of_lt_of_le hlt h.length)).trans (h.cells offset hlt)
  start := h'.start.trans h.start

/-- A well-formed arena is only extended, and is well formed again. -/
def Grows (before after : Machine × Arena) : Prop :=
  before.2.WellFormed → after.2.WellFormed ∧ Extends before.2 after.2

theorem Grows.refl (state : Machine × Arena) : Grows state state :=
  fun h => ⟨h, Extends.refl _⟩

/-- Growing once more is growing. -/
theorem Grows.trans (first second third : Machine × Arena) (h : Grows first second)
    (h' : Grows second third) : Grows first third := by
  intro hfirst
  obtain ⟨hsecond, hextends⟩ := h hfirst
  obtain ⟨hthird, hextends'⟩ := h' hsecond
  exact ⟨hthird, hextends.trans hextends'⟩

variable {environment : Environment} {machine : Machine} {arena : Arena} {region : Region}

/-- What holds all that is in use is not empty. -/
theorem WellFormed.positive (h : arena.WellFormed) {capacity : Nat}
    (hroom : arena.length ≤ capacity) : 0 < capacity :=
  Nat.lt_of_lt_of_le (Nat.lt_of_lt_of_le (by decide) h.reserved) hroom

/-! ## Making room -/

/-- Taking another buffer changes nothing else of the arena. -/
theorem replaceBuffer_apply (region : Region) (environment : Environment) (machine : Machine)
    (arena : Arena) :
    ∃ machine', Arena.replaceBuffer region environment (machine, arena) =
      (.ok (), machine', { arena with region := region }) := by
  rw [Arena.replaceBuffer, bind_apply_ok _ _ (own_apply ..)]
  split
  · rw [bind_apply_ok _ _ (note_apply ..)]
    exact ⟨_, rfl⟩
  · exact ⟨_, rfl⟩

/-- Another buffer with enough room and the same bytes in use may take the place of the present
one. -/
theorem WellFormed.replace {capacity : Nat} (h : arena.WellFormed)
    (hregion : arena.region.Replaces arena.capacity capacity region)
    (hroom : arena.length ≤ capacity) :
    WellFormed { arena with region := region } ∧ Extends arena { arena with region := region } := by
  refine ⟨⟨hregion.whole, h.reserved, Nat.le_trans hroom hregion.room, h.started⟩, Nat.le_refl _,
    ?_, rfl⟩
  intro offset hlt
  exact hregion.cells offset (Nat.lt_of_lt_of_le hlt h.fits) (Nat.lt_of_lt_of_le hlt hroom)

/-- A request for another buffer, whatever comes of it, extends the arena. -/
theorem WellFormed.adopt {capacity : Nat} {request : Procedure Machine Region}
    (h : arena.WellFormed) (hroom : arena.length ≤ capacity)
    (hrequest : Yields request (arena.region.Replaces arena.capacity capacity))
    (environment : Environment) (machine : Machine) :
    ∃ result machine' after,
      (do
        let region ← ask request
        Arena.replaceBuffer region : Procedure (Machine × Arena) Unit) environment
          (machine, arena) = (result, machine', after) ∧
      after.WellFormed ∧ Extends arena after ∧ after.length = arena.length ∧
      (result = .ok () → capacity ≤ after.capacity) := by
  cases hrun : request environment machine with
  | mk result middle =>
    cases result with
    | error reason =>
      rw [bind_apply_error _ _ (ask_apply _ hrun _)]
      exact ⟨_, _, _, rfl, h, Extends.refl _, rfl, by simp⟩
    | ok region =>
      have hregion := hrequest.holds hrun
      obtain ⟨machine', hreplace⟩ := replaceBuffer_apply region environment middle arena
      obtain ⟨hformed, hextends⟩ := h.replace hregion hroom
      rw [bind_apply_ok _ _ (ask_apply _ hrun _), hreplace]
      exact ⟨_, _, _, rfl, hformed, hextends, rfl, fun _ => hregion.room⟩

/-- The capacity that an arena wants has room for what is needed. -/
theorem le_of_wanted?_eq_some {needed capacity : Nat} (h : arena.wanted? needed = some capacity) :
    needed ≤ capacity := by
  rw [wanted?] at h
  split at h
  · rename_i hle
    exact Option.some.inj h ▸ hle
  · obtain ⟨doubled, -, hround⟩ := Option.bind_eq_some_iff.1 h
    have hle := Size.le_of_roundUp?_eq_some (by decide) hround
    omega

/-- Making room extends the arena and leaves its length. Where it succeeds there is room. -/
theorem WellFormed.makeRoom (h : arena.WellFormed) (additional : Nat) (environment : Environment)
    (machine : Machine) :
    ∃ result machine' after, Arena.makeRoom additional environment (machine, arena) =
        (result, machine', after) ∧
      after.WellFormed ∧ Extends arena after ∧ after.length = arena.length ∧
      (result = .ok () → arena.length + additional ≤ after.capacity) := by
  rw [Arena.makeRoom, bind_apply_ok _ _ (own_apply ..)]
  simp only
  cases hneeded : Size.add? arena.length additional with
  | none =>
    rw [bind_apply_error _ _ (orFail_none ..)]
    exact ⟨_, _, _, rfl, h, Extends.refl _, rfl, by simp⟩
  | some needed =>
    have hsum : needed = arena.length + additional := by
      rw [Size.add?] at hneeded
      split at hneeded
      · exact (Option.some.inj hneeded).symm
      · cases hneeded
    rw [bind_apply_ok _ _ (orFail_some ..)]
    split
    · rename_i hfits
      exact ⟨_, _, _, rfl, h, Extends.refl _, rfl, fun _ => hsum ▸ hfits.1⟩
    cases hwanted : arena.wanted? needed with
    | none =>
      rw [bind_apply_error _ _ (orFail_none ..)]
      exact ⟨_, _, _, rfl, h, Extends.refl _, rfl, by simp⟩
    | some capacity =>
      have hle := le_of_wanted?_eq_some hwanted
      rw [bind_apply_ok _ _ (orFail_some ..)]
      -- both ways to ask for a buffer give one that holds what this one holds
      have hrequest : Yields (if (arena.diagnostics.forceRelocation &&
            arena.strategies.mayMove) = true then
          Region.relocate arena.strategies arena.region arena.capacity capacity alignment
            arena.diagnostics
        else
          Region.resize arena.strategies.resizing arena.region arena.capacity capacity alignment
            arena.diagnostics) (arena.region.Replaces arena.capacity capacity) := by
        split
        · exact Region.yields_relocate _ h.whole rfl ..
        · exact Region.yields_resize _ h.whole rfl ..
      obtain ⟨result, machine', after, hrun, hformed, hextends, hlength, hroom⟩ :=
        h.adopt (show arena.length ≤ capacity by omega) hrequest environment machine
      refine ⟨result, machine', after, hrun, hformed, hextends, hlength, ?_⟩
      intro hok
      exact Nat.le_trans (hsum ▸ hle) (hroom hok)

/-! ## Additions -/

section Follows

variable {α β : Type} {procedure : Procedure (Machine × Arena) α}
  {next : α → Procedure (Machine × Arena) β}

/-- What is done one after the other grows if each part does. -/
theorem grows_bind (h : Follows Grows procedure) (hnext : ∀ value, Follows Grows (next value)) :
    Follows Grows (procedure >>= next) :=
  Follows.bind Grows.trans h hnext

/-- What leaves the state alone grows. -/
theorem grows_unchanged (h : ∀ environment state, (procedure environment state).2 = state) :
    Follows Grows procedure :=
  Follows.of_unchanged Grows.refl h

end Follows

/-- Noting a failure in the build changes neither bytes nor lengths. -/
theorem grows_refuse (failure : Failure) : Follows Grows (refuse failure) := by
  refine ⟨fun environment (machine, arena) h => ?_⟩
  refine ⟨⟨h.whole, h.reserved, h.fits, ?_⟩, Nat.le_refl _, fun _ _ => rfl, ?_⟩
  · intro build hbuild
    obtain ⟨old, hold, rfl⟩ := Option.map_eq_some_iff.1 hbuild
    exact h.started old hold
  · show (arena.build.map _).map Build.start = arena.build.map Build.start
    rw [Option.map_map]
    rfl

/-- Bytes may be written behind those in use as far as the buffer has room. -/
theorem WellFormed.append {content : Stretch Empty} (h : arena.WellFormed)
    (hroom : arena.length + content.length ≤ arena.capacity) :
    let after := { arena with
      region := { arena.region with memory := arena.region.memory.write arena.length content }
      length := arena.length + content.length }
    after.WellFormed ∧ Extends arena after := by
  refine ⟨⟨?_, ?_, hroom, ?_⟩, Nat.le_add_right .., ?_, rfl⟩
  · exact (Memory.length_write ..).trans h.whole
  · exact Nat.le_trans h.reserved (Nat.le_add_right ..)
  · intro build hbuild
    obtain ⟨hreserved, hstart⟩ := h.started build hbuild
    exact ⟨hreserved, Nat.le_trans hstart (Nat.le_add_right ..)⟩
  · intro offset hlt
    have hinside : offset < arena.region.memory.length :=
      Nat.lt_of_lt_of_le hlt (Nat.le_trans h.fits (Nat.le_of_eq h.whole.symm))
    exact Memory.cell_write_of_disjoint hinside (Or.inl hlt)

/-- Adding bytes extends the arena, whatever comes of it. -/
theorem grows_add [Size.Paging] (content : Stretch Empty) : Follows Grows (add content) := by
  refine ⟨fun environment (machine, arena) h => ?_⟩
  have hsame : WellFormed arena ∧ Extends arena arena := ⟨h, Extends.refl _⟩
  rw [add, bind_apply_ok _ _ (own_apply ..)]
  simp only
  cases hbuild : arena.build with
  | none => exact hsame
  | some build =>
    simp only
    cases hfailure : build.failure with
    | some failure => exact hsame
    | none =>
      -- room is made first, so a failure of it is all that may stop the addition
      obtain ⟨result, machine', after, hrun, hformed, hextends, hlength, hroom⟩ :=
        h.makeRoom content.length environment machine
      simp only
      cases result with
      | error reason =>
        cases reason with
        | fault fault =>
          rw [bind_apply_error _ _ (attempt_fault _ hrun)]
          exact ⟨hformed, hextends⟩
        | failure failure =>
          rw [bind_apply_ok _ _ (attempt_failure _ hrun)]
          obtain ⟨hformed', hextends'⟩ :=
            (grows_refuse failure).holds environment (machine', after) hformed
          exact ⟨hformed', hextends.trans hextends'⟩
      | ok =>
        rw [bind_apply_ok _ _ (attempt_ok _ hrun)]
        obtain ⟨hformed', hextends'⟩ := hformed.append (hlength ▸ hroom rfl)
        exact ⟨hformed', hextends.trans hextends'⟩

theorem grows_ensure {condition : Prop} [Decidable condition] (fault : Fault) :
    Follows Grows (ensure condition fault) := by
  apply grows_unchanged
  intro environment state
  by_cases h : condition
  · rw [ensure_apply _ h]
  · rw [ensure_apply_not _ h]

theorem grows_checked {α : Type} (result : Except Fault α) : Follows Grows (checked result) := by
  apply grows_unchanged
  intro environment state
  cases result <;> rfl

theorem grows_addAlign (align : Nat) : Follows Grows (addAlign align) :=
  grows_bind (grows_ensure _) fun _ => grows_bind (grows_unchanged fun _ _ => rfl) fun _ =>
    grows_bind (grows_checked _) fun _ => grows_bind (grows_checked _) fun _ => grows_add _

theorem grows_addPrefixed (content : Stretch Empty) : Follows Grows (addPrefixed content) := by
  unfold addPrefixed
  split
  · exact grows_refuse _
  · exact grows_bind (grows_add _) fun _ => grows_add _

end PagedAlloc.Arena
