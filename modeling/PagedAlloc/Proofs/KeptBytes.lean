import PagedAlloc.Proofs.Encodings

/-!
# Bytes that an arena keeps

The bytes below the start of the build in progress, or all bytes in use if there is none, are taken
back by no end of a build: they lie below the floor of the arena (`Arena.floor`). Only cutting an
arena lowers its floor, and only overwriting changes a byte below it. So bytes that an arena holds at
an offset (`Arena.Holds`) stay there under every operation that spares them
(`Arena.Operation.Spares`, `Arena.Holds.after`), and are read back while the arena is idle
(`Arena.Holds.read`).
-/

namespace PagedAlloc.Arena

variable {paging : Size.Paging}

open Procedure

/-- The length that is left when the build in progress, if there is one, is taken back. -/
def floor (arena : Arena) : Nat := (arena.build.map Build.start).getD arena.length

/-- The floor of an arena is not lowered, and no byte below it is changed. -/
structure Keeps (before after : Arena) : Prop where
  floor : before.floor ≤ after.floor
  cells : ∀ offset < before.floor,
    after.region.memory.cell offset = before.region.memory.cell offset

/-- A well-formed arena keeps what is below its floor, and is well formed again. -/
def Upholds (before after : Machine × Arena) : Prop :=
  before.2.WellFormed → after.2.WellFormed ∧ Keeps before.2 after.2

/-- Bytes lie below the floor of an arena. -/
structure Holds (arena : Arena) (offset : Nat) (bytes : List UInt8) : Prop where
  reserved : firstOffset ≤ offset
  within : offset + bytes.length ≤ arena.floor
  cells : ∀ index (hlt : index < bytes.length),
    (arena.region.memory.cell (offset + index)).toByte = bytes[index]

/-- An operation does not cut off or overwrite what lies between two offsets. -/
def Operation.Spares (start stop : Nat) : Operation → Prop
  | truncate reference => stop ≤ reference.offset
  | clear => stop ≤ firstOffset
  | overwrite reference content =>
    stop ≤ reference.offset ∨ reference.offset + content.length ≤ start
  | _ => True

variable {environment : Environment} {machine : Machine} {arena before middle later : Arena}
  {offset start : Nat} {bytes : List UInt8}

/-! ## Floors -/

/-- An idle arena keeps all bytes in use. -/
theorem floor_of_idle (idle : arena.build = none) : arena.floor = arena.length := by
  rw [floor, idle]
  rfl

/-- During a build an arena is sure to keep what was there before. -/
theorem floor_of_building {build : Build} (h : arena.build = some build) :
    arena.floor = build.start := by
  rw [floor, h]
  rfl

/-- No byte below the floor is out of use. -/
theorem WellFormed.floor_le (h : arena.WellFormed) : arena.floor ≤ arena.length := by
  cases hbuild : arena.build with
  | none => exact Nat.le_of_eq (floor_of_idle hbuild)
  | some build =>
    rw [floor_of_building hbuild]
    exact (h.started build hbuild).2

theorem Keeps.refl (arena : Arena) : Keeps arena arena :=
  ⟨Nat.le_refl _, fun _ _ => rfl⟩

/-- What two steps keep is kept by both together. -/
theorem Keeps.trans (h : Keeps before middle) (h' : Keeps middle later) : Keeps before later where
  floor := Nat.le_trans h.floor h'.floor
  cells offset hlt :=
    (h'.cells offset (Nat.lt_of_lt_of_le hlt h.floor)).trans (h.cells offset hlt)

/-- Extending an arena leaves the start of the build in progress. -/
theorem Extends.keeps (h : Extends before later) (hformed : before.WellFormed) :
    Keeps before later := by
  refine ⟨?_, fun offset hlt => h.cells offset (Nat.lt_of_lt_of_le hlt hformed.floor_le)⟩
  rw [floor, floor, h.start]
  cases before.build with
  | none => exact h.length
  | some build => exact Nat.le_refl _

/-- The end of a build goes back to its start at most. -/
theorem Rewinds.keeps (h : Rewinds before later) (hformed : before.WellFormed) :
    Keeps before later := by
  refine ⟨?_, fun offset _ => by rw [h.region]⟩
  rcases h.build with ⟨hbuild, hlength⟩ | hidle
  · exact Nat.le_of_eq (by rw [floor, floor, hbuild, hlength])
  · rw [floor_of_idle hidle]
    rcases h.length with hlength | ⟨build, hbuild, hlength⟩
    · exact hlength ▸ hformed.floor_le
    · exact Nat.le_of_eq (by rw [hlength, floor_of_building hbuild])

/-! ## What every operation keeps -/

section Follows

variable {α β : Type} {procedure : Procedure (Machine × Arena) α}
  {next : α → Procedure (Machine × Arena) β}

theorem upholds_bind (h : Follows Upholds procedure)
    (hnext : ∀ value, Follows Upholds (next value)) : Follows Upholds (procedure >>= next) := by
  refine Follows.bind (fun first second third h h' hformed => ?_) h hnext
  obtain ⟨hformed, hkeeps⟩ := h hformed
  obtain ⟨hformed, hkeeps'⟩ := h' hformed
  exact ⟨hformed, hkeeps.trans hkeeps'⟩

/-- What only grows an arena keeps the bytes below its floor. -/
theorem upholds_of_grows (h : Follows Grows procedure) : Follows Upholds procedure := by
  refine ⟨fun environment state hformed => ?_⟩
  obtain ⟨hformed', hextends⟩ := h.holds environment state hformed
  exact ⟨hformed', hextends.keeps hformed⟩

theorem upholds_unchanged (h : ∀ environment state, (procedure environment state).2 = state) :
    Follows Upholds procedure :=
  upholds_of_grows (grows_unchanged h)

/-- What an operation answers does not matter. -/
theorem upholds_map (h : Follows Upholds procedure) (answer : α → β) :
    Follows Upholds (answer <$> procedure) := by
  refine ⟨fun environment state => ?_⟩
  rw [map_state]
  exact h.holds environment state

/-- A procedure that only ends a build. -/
theorem upholds_of_rewinds (h : ∀ environment machine arena,
      Rewinds arena (procedure environment (machine, arena)).2.2) : Follows Upholds procedure := by
  refine ⟨fun environment (machine, arena) hformed => ?_⟩
  have hrewinds := h environment machine arena
  exact ⟨(hrewinds.stable hformed).wellFormed, hrewinds.keeps hformed⟩

end Follows

theorem upholds_begin : Follows Upholds begin := by
  refine ⟨fun environment (machine, arena) hformed => ?_⟩
  rcases begin_cases environment machine arena with ⟨hidle, hrun⟩ | hrun
  · rw [hrun]
    exact ⟨hformed.begun.wellFormed,
      Nat.le_of_eq (by rw [floor_of_idle hidle, floor_of_building rfl]), fun _ _ => rfl⟩
  · rw [hrun]
    exact ⟨hformed, Keeps.refl arena⟩

/-- A push keeps the bytes below the floor, since it ends at its start or beyond. -/
theorem upholds_push {addition : Procedure (Machine × Arena) Unit} (h : Follows Grows addition) :
    Follows Upholds (push addition) := by
  refine upholds_bind upholds_begin fun _ =>
    upholds_bind (upholds_of_grows (Follows.attempt h)) fun outcome => ?_
  cases outcome with
  | ok => exact upholds_of_rewinds commit_rewinds
  | error failure =>
    exact upholds_bind (upholds_of_rewinds abandon_rewinds) fun _ => upholds_unchanged fun _ _ => rfl

theorem grows_ensureIdle (call : IdleCall) : Follows Grows (ensureIdle call) := by
  refine grows_unchanged fun environment (machine, arena) => ?_
  rcases ensureIdle_cases call environment machine arena with ⟨-, hrun⟩ | hrun <;> rw [hrun]

theorem grows_reserve (additional : Nat) : Follows Grows (reserve additional) := by
  refine grows_bind (grows_ensureIdle _) fun _ => ⟨fun environment (machine, arena) hformed => ?_⟩
  obtain ⟨result, machine', after, hrun, hformed', hextends, -⟩ :=
    WellFormed.makeRoom hformed additional environment machine
  rw [hrun]
  exact ⟨hformed', hextends⟩

theorem grows_shrink : Follows Grows shrink := by
  refine grows_bind (grows_ensureIdle _) fun _ => ⟨?_⟩
  rintro environment ⟨machine, arena⟩ hformed
  have hsame : WellFormed arena ∧ Extends arena arena := ⟨hformed, Extends.refl arena⟩
  rw [bind_apply_ok _ _ (own_apply ..)]
  cases htarget : Size.roundUp arena.length alignment with
  | error fault =>
    rw [bind_apply_error _ _ (checked_error ..)]
    exact hsame
  | ok target =>
    have hle := Size.le_of_roundUp_eq_ok (by decide) htarget
    obtain ⟨result, machine', after, hadopt, hformed', hextends, -⟩ := WellFormed.adopt hformed hle
      (Region.yields_resize arena.strategies.resizing hformed.whole rfl target alignment
        arena.diagnostics) environment machine
    rw [bind_apply_ok _ _ (checked_ok ..)]
    simp only
    split
    · exact (congrArg (fun state => state.2.2) hadopt).symm ▸ ⟨hformed', hextends⟩
    · exact hsame

/-- Nothing but cutting and overwriting takes a byte below the floor. -/
theorem Operation.upholds {operation : Operation}
    (cuts_not : ∀ reference, operation ≠ .truncate reference) (clears_not : operation ≠ .clear)
    (writes_not : ∀ reference content, operation ≠ .overwrite reference content) :
    Follows Upholds operation.run := by
  cases operation with
  | truncate reference => exact absurd rfl (cuts_not reference)
  | clear => exact absurd rfl clears_not
  | overwrite reference content => exact absurd rfl (writes_not reference content)
  | reserve additional => exact upholds_map (upholds_of_grows (grows_reserve _)) _
  | shrink => exact upholds_map (upholds_of_grows grows_shrink) _
  | begin => exact upholds_map upholds_begin _
  | commit => exact upholds_map (upholds_of_rewinds commit_rewinds) _
  | abandon => exact upholds_map (upholds_of_rewinds abandon_rewinds) _
  | add addition => exact upholds_map (upholds_of_grows addition.grows) _
  | push addition => exact upholds_map (upholds_push addition.grows) _
  | read reference reading =>
    refine upholds_unchanged fun environment (machine, arena) => ?_
    rw [Operation.run, bind_apply_ok _ _ (own_apply ..)]
    cases reading.find arena reference <;> rfl

/-! ## Cutting and overwriting -/

/-- An arena is cut where it may be cut, or the call is stopped and changes nothing. -/
theorem truncate_cases (reference : Reference) (environment : Environment) (machine : Machine)
    (arena : Arena) :
    ((arena.build = none ∧ firstOffset ≤ reference.offset ∧ reference.offset ≤ arena.length) ∧
      ∃ machine', truncate reference environment (machine, arena) =
        (.ok (), machine', { arena with length := reference.offset })) ∨
    ¬ (arena.build = none ∧ firstOffset ≤ reference.offset ∧ reference.offset ≤ arena.length) ∧
      ∃ fault, truncate reference environment (machine, arena) =
        (.error (.fault fault), machine, arena) := by
  rw [truncate, ensureIdle, bind_assoc, bind_apply_ok _ _ (own_apply ..)]
  by_cases hidle : arena.build = none
  · rw [bind_apply_ok _ _ (ensure_apply _ hidle _ _), bind_apply_ok _ _ (own_apply ..)]
    by_cases hinside : firstOffset ≤ reference.offset ∧ reference.offset ≤ arena.length
    · rw [bind_apply_ok _ _ (ensure_apply _ hinside _ _)]
      exact Or.inl ⟨⟨hidle, hinside⟩, _, rfl⟩
    · exact Or.inr ⟨fun h => hinside h.2, _,
        bind_apply_error _ _ (ensure_apply_not _ hinside _ _)⟩
  · exact Or.inr ⟨fun h => hidle h.1, _, bind_apply_error _ _ (ensure_apply_not _ hidle _ _)⟩

/-- An idle arena is emptied. -/
theorem clear_cases (environment : Environment) (machine : Machine) (arena : Arena) :
    arena.build = none ∧ clear environment (machine, arena) =
        (.ok (), machine, { arena with length := firstOffset }) ∨
      ∃ fault, clear environment (machine, arena) = (.error (.fault fault), machine, arena) := by
  rw [clear]
  rcases ensureIdle_cases .clear environment machine arena with ⟨hidle, hrun⟩ | hrun
  · rw [bind_apply_ok _ _ hrun]
    exact Or.inl ⟨hidle, rfl⟩
  · exact Or.inr ⟨_, bind_apply_error _ _ hrun⟩

/-- Readable bytes are overwritten. -/
theorem overwrite_cases (reference : Reference) (content : Stretch Empty)
    (environment : Environment) (machine : Machine) (arena : Arena) :
    arena.checkReadable reference content.length = .ok () ∧
        overwrite reference content environment (machine, arena) =
          (.ok (), machine, { arena with region := { arena.region with
            memory := arena.region.memory.write reference.offset content } }) ∨
      ∃ fault, arena.checkReadable reference content.length = .error fault ∧
        overwrite reference content environment (machine, arena) =
          (.error (.fault fault), machine, arena) := by
  rw [overwrite, bind_apply_ok _ _ (own_apply ..)]
  cases hreadable : arena.checkReadable reference content.length with
  | error fault => exact Or.inr ⟨fault, rfl, bind_apply_error _ _ (checked_error ..)⟩
  | ok => exact Or.inl ⟨rfl, bind_apply_ok _ _ (checked_ok ..)⟩

/-! ## Bytes that are held -/

/-- Bytes that are held lie in the buffer. -/
theorem Holds.inside (h : arena.Holds offset bytes) (hformed : arena.WellFormed) {index : Nat}
    (hlt : index < bytes.length) : offset + index < arena.region.memory.length := by
  have hwithin := h.within
  have hle := hformed.floor_le
  exact Nat.lt_of_lt_of_le (by omega)
    (Nat.le_trans hformed.fits (Nat.le_of_eq hformed.whole.symm))

/-- Bytes that are held below a floor that is not lowered are held on. -/
theorem Holds.keeps (h : arena.Holds offset bytes) (hkeeps : Keeps arena later) :
    later.Holds offset bytes where
  reserved := h.reserved
  within := Nat.le_trans h.within hkeeps.floor
  cells index hlt := by
    have hwithin := h.within
    rw [hkeeps.cells _ (by omega)]
    exact h.cells index hlt

/-- An arena that is cut behind some bytes holds them. -/
theorem Holds.cut (h : arena.Holds offset bytes) (idle : arena.build = none) {length : Nat}
    (hle : offset + bytes.length ≤ length) :
    Holds { arena with length := length } offset bytes where
  reserved := h.reserved
  within := by
    rw [floor_of_idle (show ({ arena with length := length } : Arena).build = none from idle)]
    exact hle
  cells := h.cells

/-- Overwriting elsewhere keeps the bytes. -/
theorem Holds.overwrite (h : arena.Holds offset bytes) (hformed : arena.WellFormed)
    {reference : Reference} {content : Stretch Empty}
    (apart : offset + bytes.length ≤ reference.offset ∨
      reference.offset + content.length ≤ offset) :
    Holds { arena with region := { arena.region with
      memory := arena.region.memory.write reference.offset content } } offset bytes := by
  refine ⟨h.reserved, h.within, fun index hlt => ?_⟩
  have hother : offset + index < reference.offset ∨
      reference.offset + content.length ≤ offset + index := by omega
  rw [Memory.cell_write_of_disjoint (h.inside hformed hlt) hother]
  exact h.cells index hlt

/-- Bytes are held under every operation that spares them. -/
theorem Holds.after (h : arena.Holds offset bytes) (hformed : arena.WellFormed)
    (environment : Environment) (machine : Machine) {operation : Operation}
    (spares : operation.Spares offset (offset + bytes.length)) :
    (arena.after environment machine operation).Holds offset bytes := by
  cases operation with
  | truncate reference =>
    rw [Arena.after, Operation.run, map_state]
    rcases truncate_cases reference environment machine arena with
      ⟨⟨hidle, -⟩, machine', hrun⟩ | ⟨-, fault, hrun⟩
    · rw [hrun]
      exact h.cut hidle spares
    · rw [hrun]
      exact h
  | clear =>
    rw [Arena.after, Operation.run, map_state]
    rcases clear_cases environment machine arena with ⟨hidle, hrun⟩ | ⟨fault, hrun⟩
    · rw [hrun]
      exact h.cut hidle spares
    · rw [hrun]
      exact h
  | overwrite reference content =>
    rw [Arena.after, Operation.run, map_state]
    rcases overwrite_cases reference content environment machine arena with
      ⟨-, hrun⟩ | ⟨fault, -, hrun⟩
    · rw [hrun]
      exact h.overwrite hformed spares
    · rw [hrun]
      exact h
  | _ =>
    -- nothing else cuts an arena or writes below its floor
    exact h.keeps ((Operation.upholds (by simp) (by simp) (by simp)).holds environment
      (machine, arena) hformed).2

/-! ## Reading bytes that are held -/

/-- The bytes that an arena holds are those that are read there. -/
theorem Holds.bytes_eq (h : arena.Holds offset bytes) :
    (arena.cells offset bytes.length).bytes = bytes := by
  rw [Arena.cells, Stretch.bytes, Memory.cells_read, List.map_map]
  refine List.ext_getElem (by simp) fun index hlt hlt' => ?_
  rw [List.getElem_map, List.getElem_range]
  exact h.cells index hlt'

/-- An arena that holds bytes holds the first ones of them. -/
theorem Holds.left {rest : List UInt8} (h : arena.Holds offset (bytes ++ rest)) :
    arena.Holds offset bytes where
  reserved := h.reserved
  within := by
    have hwithin := h.within
    rw [List.length_append] at hwithin
    omega
  cells index hlt := by
    rw [h.cells index (by simp; omega), List.getElem_append_left hlt]

/-- An arena that holds bytes holds the last ones of them. -/
theorem Holds.right {earlier : List UInt8} (h : arena.Holds offset (earlier ++ bytes)) :
    arena.Holds (offset + earlier.length) bytes where
  reserved := Nat.le_trans h.reserved (Nat.le_add_right ..)
  within := by
    have hwithin := h.within
    rw [List.length_append] at hwithin
    omega
  cells index hlt := by
    have hcells := h.cells (earlier.length + index) (by simp; omega)
    rw [List.getElem_append_right (Nat.le_add_right ..)] at hcells
    simp only [Nat.add_sub_cancel_left] at hcells
    rw [Nat.add_assoc, hcells]

/-- What was built is held once the build has ended. -/
theorem holds_of_built (idle : arena.build = none)
    (reserved : firstOffset ≤ start) (hle : start ≤ arena.length)
    (h : arena.built start = bytes) : arena.Holds start bytes where
  reserved := reserved
  within := by
    rw [floor_of_idle idle, ← h, length_built]
    omega
  cells index hlt := by
    subst h
    simp only [built_eq, List.getElem_map, List.getElem_range]

theorem checkReadable_of_idle {reference : Reference} {count : Nat} (idle : arena.build = none)
    (readable : arena.Readable reference.offset count) :
    arena.checkReadable reference count = .ok () := by
  rw [checkReadable, isBuilding, idle, if_neg (by simp), if_pos readable]

/-- Nothing is readable from the end of an arena on, not even no byte. -/
theorem checkReadable_beyond {reference : Reference} (beyond : arena.length ≤ reference.offset)
    (count : Nat) : ∃ fault, arena.checkReadable reference count = .error fault := by
  rw [checkReadable]
  split
  · exact ⟨_, rfl⟩
  · rw [if_neg fun readable => Nat.not_lt.2 beyond readable.2.1]
    exact ⟨_, rfl⟩

/-- At the end of an arena and beyond it not even nothing can be read. -/
theorem read_beyond {reference : Reference} (beyond : arena.length ≤ reference.offset)
    (count : Nat) : ∃ fault, arena.read reference count = .error fault := by
  obtain ⟨fault, hfault⟩ := checkReadable_beyond beyond count
  exact ⟨fault, by rw [Arena.read, hfault]; rfl⟩

/-- Only an idle arena is readable. -/
theorem idle_of_checkReadable {reference : Reference} {count : Nat}
    (readable : arena.checkReadable reference count = .ok ()) : arena.build = none := by
  cases hbuild : arena.build with
  | none => rfl
  | some build =>
    have hbuilding : arena.isBuilding = true := congrArg Option.isSome hbuild
    rw [checkReadable, if_pos hbuilding] at readable
    cases readable

theorem Holds.starts (h : arena.Holds offset bytes) (idle : arena.build = none)
    (some_byte : bytes ≠ []) : offset < arena.length := by
  have hwithin := h.within
  have hpositive := List.length_pos_iff.2 some_byte
  rw [floor_of_idle idle] at hwithin
  omega

/-- Bytes that are held may be read while the arena is idle. -/
theorem Holds.readable (h : arena.Holds offset bytes) (idle : arena.build = none)
    (starts : offset < arena.length) {count : Nat} (hle : count ≤ bytes.length) :
    arena.checkReadable ⟨offset⟩ count = .ok () := by
  have hwithin := h.within
  rw [floor_of_idle idle] at hwithin
  exact checkReadable_of_idle idle ⟨h.reserved, starts, show count ≤ _ - offset by omega⟩

/-- Bytes that are held are read back while the arena is idle. -/
theorem Holds.read (h : arena.Holds offset bytes) (idle : arena.build = none)
    (starts : offset < arena.length) :
    (arena.read ⟨offset⟩ bytes.length).map Stretch.bytes = .ok bytes := by
  rw [Arena.read, h.readable idle starts (Nat.le_refl _)]
  exact congrArg Except.ok h.bytes_eq

end PagedAlloc.Arena
