import PagedAlloc.Proofs.BuildProtocol
import PagedAlloc.Proofs.KeptBytes

/-!
# The stack discipline of arenas

What the user of an arena knows is a stack: the regions that were handed out and not discarded, the
oldest first, each with the bytes that were written to it (`Arena.History`). It is kept beside the
arena, operation by operation (`Arena.History.next`), and the arena never disagrees with it
(`Arena.Tracks`). So the regions lie one behind the other, and a cut leaves exactly those that end at
or before it (`Arena.Recorded.stack_discipline`).
-/

namespace PagedAlloc.Arena

variable {paging : Size.Paging}

open Procedure

/-- A region that was handed out: where it begins, and what was written to it. -/
structure Entry where
  offset : Nat
  bytes : List UInt8
  deriving DecidableEq, Repr

/-- Where a region ends. -/
def Entry.stop (entry : Entry) : Nat := entry.offset + entry.bytes.length

/-- A region after other bytes were written at an offset. -/
def Entry.overwritten (start : Nat) (content : List UInt8) (entry : Entry) : Entry where
  offset := entry.offset
  bytes := entry.bytes.mapIdx fun index byte =>
    if start ≤ entry.offset + index then content[entry.offset + index - start]?.getD byte else byte

/-- What was done in an arena so far, as far as it matters. -/
structure History where
  /-- Regions that are not discarded, the oldest first. -/
  stack : List Entry
  /-- Bytes that were added to the build in progress. -/
  pending : List UInt8
  deriving DecidableEq, Repr

/-- A region is handed out. Empty ones are no regions. -/
def History.hand (history : History) (offset : Nat) (bytes : List UInt8) : History :=
  if bytes = [] then history
  else { history with stack := history.stack ++ [⟨offset, bytes⟩] }

/-- What is in the build in progress, if there is one that has not failed. -/
def staged (arena : Arena) : List UInt8 :=
  match arena.build with
  | some ⟨start, none⟩ => arena.built start
  | _ => []

/-- What is known once an operation of an arena has come to its outcome. Only an addition that was
stopped on the way leaves something behind that its arguments do not tell. -/
def History.next (history : History) (before : Arena) (operation : Operation) :
    Except Stop Answer × Machine × Arena → History
  | (result, _, after) =>
    match operation, result with
    | .begin, .ok _ => { history with pending := [] }
    | .add addition, .ok _ =>
      { history with pending := history.pending ++ addition.encoding before.length }
    | .add _, .error (.fault _) | .push _, .error (.fault _) =>
      { history with pending := after.staged }
    | .push addition, .ok (.reference reference) =>
      history.hand reference.offset (addition.encoding reference.offset)
    | .commit, .ok (.reference reference) => history.hand reference.offset history.pending
    | .truncate reference, .ok _ =>
      { history with stack := history.stack.filter fun entry => entry.stop ≤ reference.offset }
    | .clear, .ok _ => { history with stack := [] }
    | .overwrite reference content, .ok _ =>
      { history with
        stack := history.stack.map (Entry.overwritten reference.offset content.bytes) }
    | _, _ => history

/-- The arenas that any operations lead to, each with what is known of it. -/
inductive Recorded [Size.Paging] : Arena → History → Prop where
  | start (environment : Environment) (machine machine' : Machine) (capacity : Nat)
      (strategies : Strategies) (diagnostics : Diagnostics) (arena : Arena)
      (made : create capacity strategies diagnostics environment machine = (.ok arena, machine')) :
      Recorded arena ⟨[], []⟩
  | step {arena : Arena} {history : History} (before : Recorded arena history)
      (environment : Environment) (machine : Machine) (operation : Operation) :
      Recorded (arena.after environment machine operation)
        (history.next arena operation (operation.run environment (machine, arena)))

/-- An arena is as its history tells. -/
structure Tracks (arena : Arena) (history : History) : Prop where
  held : ∀ entry ∈ history.stack, arena.Holds entry.offset entry.bytes
  nonempty : ∀ entry ∈ history.stack, entry.bytes ≠ []
  ordered : history.stack.Pairwise fun older newer => older.stop ≤ newer.offset
  pending : ∀ start, arena.build = some ⟨start, none⟩ → arena.built start = history.pending

variable {environment : Environment} {machine : Machine} {arena later : Arena} {history : History}
  {addition : Addition} {start : Nat}

/-- What is written down beside an arena does not change what it can come to. -/
theorem Recorded.reachable (h : Recorded arena history) : arena.Reachable := by
  induction h with
  | start environment machine machine' capacity strategies diagnostics arena made =>
    exact .start environment machine machine' capacity strategies diagnostics arena made
  | step before environment machine operation ih => exact ih.step environment machine operation

/-! ## Pushes and commits -/

/-- A push of an idle arena ends as its addition does, and names the place where the arena
ended. -/
theorem Reachable.push_cases (h : arena.Reachable) (idle : arena.build = none)
    (addition : Addition) (environment : Environment) (machine : Machine) :
    ∃ result machine' later, push addition.run environment (machine, arena) =
        (result.map fun _ => ⟨arena.length⟩, machine', later) ∧
      (addition.run environment (machine, { arena with build := some ⟨arena.length, none⟩ })).1 =
        result ∧
      ((∀ fault, result ≠ .error (.fault fault)) → later.build = none) ∧
      (result = .ok () → later.built arena.length = addition.encoding arena.length) := by
  have hbegin := begin_idle idle environment machine
  have hstaged := h.staged_begun
  -- an alignment that is not a power of two stops the push with its build still open
  rcases addition.aligned_or_stopped environment machine
    { arena with build := some ⟨arena.length, none⟩ } with haligned | ⟨fault, hrun⟩
  · obtain ⟨result, middle, built, hrun, hadds⟩ := hstaged.run haligned environment machine
    rw [List.nil_append] at hadds
    cases result with
    | ok =>
      obtain ⟨machine', hpush⟩ := push_staged idle hrun hadds.build hadds.start_le
      exact ⟨.ok (), machine', _, hpush, congrArg Prod.fst hrun, fun _ => rfl,
        fun _ => hadds.built rfl⟩
    | error reason =>
      cases reason with
      | failure failure =>
        obtain ⟨machine', hpush⟩ := push_staged idle hrun hadds.build hadds.start_le
        exact ⟨.error (.failure failure), machine', _, hpush, congrArg Prod.fst hrun,
          fun _ => rfl, nofun⟩
      | fault fault =>
        have hpush : push addition.run environment (machine, arena) =
            (.error (.fault fault), middle, built) :=
          (bind_apply_ok _ _ hbegin).trans (bind_apply_error _ _ (attempt_fault _ hrun))
        exact ⟨.error (.fault fault), middle, built, hpush, congrArg Prod.fst hrun,
          fun hother => absurd rfl (hother fault), nofun⟩
  · have hpush : push addition.run environment (machine, arena) =
        (.error (.fault fault), machine, { arena with build := some ⟨arena.length, none⟩ }) :=
      (bind_apply_ok _ _ hbegin).trans (bind_apply_error _ _ (attempt_fault _ hrun))
    exact ⟨.error (.fault fault), _, _, hpush, congrArg Prod.fst hrun,
      fun hother => absurd rfl (hother fault), nofun⟩

/-! ## The history is kept up -/

/-- Overwriting moves no end of a region. -/
theorem stop_overwritten (start : Nat) (content : List UInt8) (entry : Entry) :
    (entry.overwritten start content).stop = entry.stop := by
  rw [Entry.stop, Entry.stop, Entry.overwritten, List.length_mapIdx]

/-- Bytes are overwritten where they lie. -/
theorem Holds.overwritten {entry : Entry} (h : arena.Holds entry.offset entry.bytes)
    (hformed : arena.WellFormed) (reference : Reference) (content : Stretch Empty) :
    Holds { arena with region := { arena.region with
        memory := arena.region.memory.write reference.offset content } }
      (entry.overwritten reference.offset content.bytes).offset
      (entry.overwritten reference.offset content.bytes).bytes := by
  refine ⟨h.reserved, ?_, fun index hlt => ?_⟩
  · rw [Entry.overwritten, List.length_mapIdx]
    exact h.within
  · have hbyte : index < entry.bytes.length := by
      rwa [Entry.overwritten, List.length_mapIdx] at hlt
    simp only [Entry.overwritten, List.getElem_mapIdx]
    rw [Memory.cell_write _ _ _ (h.inside hformed hbyte)]
    split
    · have hfound : content.bytes[entry.offset + index - reference.offset]? =
          content.cells[entry.offset + index - reference.offset]?.map Cell.toByte :=
        List.getElem?_map
      rw [hfound]
      cases content.cells[entry.offset + index - reference.offset]? with
      | none => exact h.cells index hbyte
      | some cell => rfl
    · exact h.cells index hbyte

/-- An idle arena from which nothing was handed out. -/
theorem tracks_nothing (idle : arena.build = none) (pending : List UInt8) :
    Tracks arena ⟨[], pending⟩ where
  held entry hentry := absurd hentry List.not_mem_nil
  nonempty entry hentry := absurd hentry List.not_mem_nil
  ordered := .nil
  pending start hbuild := by
    cases idle.symm.trans hbuild

/-- The regions stay where nothing below the floor is taken. -/
theorem Tracks.keeps (h : Tracks arena history) (hkeeps : Keeps arena later)
    {pending : List UInt8}
    (hpending : ∀ start, later.build = some ⟨start, none⟩ → later.built start = pending) :
    Tracks later { history with pending := pending } where
  held entry hentry := (h.held entry hentry).keeps hkeeps
  nonempty := h.nonempty
  ordered := h.ordered
  pending := hpending

/-- A region may be handed out behind all others. -/
theorem Tracks.hand (h : Tracks arena history) (hkeeps : Keeps arena later)
    (idle : later.build = none) {bytes : List UInt8} (reserved : firstOffset ≤ arena.floor)
    (hle : arena.floor ≤ later.length) (hbuilt : later.built arena.floor = bytes) :
    Tracks later (history.hand arena.floor bytes) := by
  have hpending : ∀ start, later.build = some ⟨start, none⟩ →
      later.built start = history.pending := by
    rw [idle]
    exact nofun
  have hkept := h.keeps hkeeps hpending
  unfold History.hand
  split
  · exact hkept
  · rename_i some_byte
    refine ⟨?_, ?_, ?_, hpending⟩
    · intro entry hentry
      rcases List.mem_append.1 hentry with hold | hnew
      · exact hkept.held entry hold
      · obtain rfl := List.mem_singleton.1 hnew
        exact holds_of_built idle reserved hle hbuilt
    · intro entry hentry
      rcases List.mem_append.1 hentry with hold | hnew
      · exact h.nonempty entry hold
      · exact List.mem_singleton.1 hnew ▸ some_byte
    · refine List.pairwise_append.2 ⟨h.ordered, List.pairwise_singleton .., ?_⟩
      intro older hold newer hnew
      obtain rfl := List.mem_singleton.1 hnew
      -- what was handed out before lies below the floor, where the new region begins
      exact (h.held older hold).within

/-- Cutting takes the regions that do not end before it. -/
theorem Tracks.cut (h : Tracks arena history) (idle : arena.build = none) (length : Nat) :
    Tracks { arena with length := length }
      { history with stack := history.stack.filter fun entry => entry.stop ≤ length } where
  held entry hentry := by
    obtain ⟨hold, hstop⟩ := List.mem_filter.1 hentry
    exact (h.held entry hold).cut idle (of_decide_eq_true hstop)
  nonempty entry hentry := h.nonempty entry (List.mem_filter.1 hentry).1
  ordered := h.ordered.filter _
  pending start hbuild := by
    cases idle.symm.trans hbuild

/-- The history of an arena is overwritten where the arena is. -/
theorem Tracks.overwrite (h : Tracks arena history) (hformed : arena.WellFormed)
    (idle : arena.build = none) (reference : Reference) (content : Stretch Empty) :
    Tracks { arena with region := { arena.region with
        memory := arena.region.memory.write reference.offset content } }
      { history with
        stack := history.stack.map (Entry.overwritten reference.offset content.bytes) } where
  held entry hentry := by
    obtain ⟨old, hold, rfl⟩ := List.mem_map.1 hentry
    exact (h.held old hold).overwritten hformed reference content
  nonempty entry hentry := by
    obtain ⟨old, hold, rfl⟩ := List.mem_map.1 hentry
    have hnonempty := List.length_pos_iff.2 (h.nonempty old hold)
    refine List.length_pos_iff.1 ?_
    rwa [Entry.overwritten, List.length_mapIdx]
  ordered := by
    refine List.pairwise_map.2 (h.ordered.imp fun {older newer} hle => ?_)
    rw [stop_overwritten]
    exact hle
  pending start hbuild := by
    cases idle.symm.trans hbuild

/-- What only an idle arena does, and without a build, keeps it idle. -/
theorem Tracks.whenIdle (h : Tracks arena history) (hformed : arena.WellFormed) {call : IdleCall}
    {next : Unit → Procedure (Machine × Arena) Unit}
    (hgrows : Follows Grows (ensureIdle call >>= next)) :
    Tracks ((ensureIdle call >>= next) environment (machine, arena)).2.2 history := by
  rcases ensureIdle_cases call environment machine arena with ⟨hidle, -⟩ | hrun
  · obtain ⟨-, hextends⟩ := hgrows.holds environment (machine, arena) hformed
    refine h.keeps (hextends.keeps hformed) fun start hbuild => ?_
    have hstart := hextends.start
    rw [hbuild, hidle] at hstart
    cases hstart
  · rw [bind_apply_error _ _ hrun]
    exact h

/-- The end of a build that keeps nothing. -/
theorem Tracks.rewinds (h : Tracks arena history) (hformed : arena.WellFormed)
    (hrewinds : Rewinds arena later) : Tracks later history := by
  refine h.keeps (hrewinds.keeps hformed) fun start hbuild => ?_
  rcases hrewinds.build with ⟨hsame, hlength⟩ | hidle
  · rw [built_eq, hrewinds.region, hlength, ← built_eq]
    exact h.pending start (hsame.symm.trans hbuild)
  · cases hidle.symm.trans hbuild

theorem staged_eq (hbuild : arena.build = some ⟨start, none⟩) :
    arena.staged = arena.built start := by
  rw [staged, hbuild]

/-- After a stop on the way, what is in the build is taken as it is. -/
theorem Tracks.stopped (h : Tracks arena history) (hkeeps : Keeps arena later) :
    Tracks later { history with pending := later.staged } :=
  h.keeps hkeeps fun _ hbuild => (staged_eq hbuild).symm

/-- An addition is written down with the build that it belongs to. -/
theorem Tracks.add (h : Tracks arena history) (hreach : arena.Reachable) (addition : Addition)
    (environment : Environment) (machine : Machine) :
    let outcome := (Operation.add addition).run environment (machine, arena)
    Tracks outcome.2.2 (history.next arena (.add addition) outcome) := by
  have hkeeps := (upholds_of_grows addition.grows).holds environment (machine, arena)
    hreach.wellFormed
  cases hrun : addition.run environment (machine, arena) with
  | mk result state =>
    obtain ⟨machine', later⟩ := state
    rw [hrun] at hkeeps
    rw [Operation.run, map_apply _ _ hrun]
    cases result with
    | ok =>
      refine h.keeps hkeeps.2 fun start hbuild => ?_
      obtain ⟨-, hbefore, -, hbuilt⟩ := hreach.built_add hbuild hrun (by simp)
      rw [hbuilt, h.pending start hbefore]
    | error reason =>
      cases reason with
      | fault fault => exact h.stopped hkeeps.2
      | failure failure =>
        refine h.keeps hkeeps.2 fun start hbuild => ?_
        obtain ⟨hok, -⟩ := hreach.built_add hbuild hrun (by simp)
        cases hok

/-- A push puts its region on the stack if it succeeds. -/
theorem Tracks.push (h : Tracks arena history) (hreach : arena.Reachable) (addition : Addition)
    (environment : Environment) (machine : Machine) :
    let outcome := (Operation.push addition).run environment (machine, arena)
    Tracks outcome.2.2 (history.next arena (.push addition) outcome) := by
  have hkeeps := (upholds_push addition.grows).holds environment (machine, arena) hreach.wellFormed
  rcases begin_cases environment machine arena with ⟨hidle, -⟩ | hbegin
  · obtain ⟨result, machine', later, hrun, -, hended, hbuilt⟩ :=
      hreach.push_cases hidle addition environment machine
    have hfloor := floor_of_idle hidle
    rw [hrun] at hkeeps
    rw [Operation.run, map_apply _ _ hrun]
    cases result with
    | ok =>
      rw [← hfloor] at hbuilt
      have hreserved : firstOffset ≤ arena.floor := hfloor ▸ hreach.wellFormed.reserved
      have hhanded := h.hand hkeeps.2 (hended (by simp)) hreserved
        (Nat.le_trans hkeeps.2.floor hkeeps.1.floor_le) (hbuilt rfl)
      rw [hfloor] at hhanded
      exact hhanded
    | error reason =>
      cases reason with
      | fault fault => exact h.stopped hkeeps.2
      | failure failure =>
        -- the failed build was abandoned, so nothing is pending
        refine h.keeps hkeeps.2 fun start hbuild => ?_
        cases (hended (by simp)).symm.trans hbuild
  · have hrun : Arena.push addition.run environment (machine, arena) =
        (.error (.fault .beginWithinBuild), machine, arena) := bind_apply_error _ _ hbegin
    rw [Operation.run, map_apply _ _ hrun]
    exact h.stopped (Keeps.refl arena)

/-- A commit puts the region of its build on the stack. -/
theorem Tracks.commit (h : Tracks arena history) (hformed : arena.WellFormed)
    (environment : Environment) (machine : Machine) :
    let outcome := Operation.commit.run environment (machine, arena)
    Tracks outcome.2.2 (history.next arena .commit outcome) := by
  have hrewinds := commit_rewinds environment machine arena
  cases hbuild : arena.build with
  | none =>
    have hrun : Arena.commit environment (machine, arena) =
        (.error (.fault (.endWithoutBegin .commit)), machine, arena) :=
      bind_apply_error _ _ (endBuild_none hbuild _)
    rw [Operation.run, map_apply _ _ hrun]
    exact h
  | some build =>
    obtain ⟨start, failure⟩ := build
    obtain ⟨hreserved, hle⟩ := hformed.started _ hbuild
    obtain ⟨machine', hrun⟩ := commit_staged hbuild hle environment machine
    rw [hrun] at hrewinds
    rw [Operation.run, map_apply _ _ hrun]
    cases failure with
    | some failure => exact h.rewinds hformed hrewinds
    | none =>
      have hfloor := floor_of_building hbuild
      rw [← hfloor] at hreserved hle
      have hbuilt : arena.built arena.floor = history.pending := by
        rw [hfloor]
        exact h.pending start hbuild
      have hhanded := h.hand (hrewinds.keeps hformed) rfl hreserved hle hbuilt
      rw [hfloor] at hhanded
      exact hhanded

/-- Every operation keeps an arena and its history together. -/
theorem Tracks.step (h : Tracks arena history) (hreach : arena.Reachable)
    (environment : Environment) (machine : Machine) (operation : Operation) :
    Tracks (arena.after environment machine operation)
      (history.next arena operation (operation.run environment (machine, arena))) := by
  have hformed := hreach.wellFormed
  rw [after]
  -- what was written down changes with the contents: by additions, commits, cuts and overwriting
  cases operation with
  | add addition => exact h.add hreach addition environment machine
  | push addition => exact h.push hreach addition environment machine
  | commit => exact h.commit hformed environment machine
  | reserve additional =>
    rw [Operation.run, map_apply _ _ rfl]
    exact h.whenIdle hformed (grows_reserve additional)
  | shrink =>
    rw [Operation.run, map_apply _ _ rfl]
    exact h.whenIdle hformed grows_shrink
  | abandon =>
    rw [Operation.run, map_apply _ _ rfl]
    exact h.rewinds hformed (abandon_rewinds environment machine arena)
  | begin =>
    have hkeeps := upholds_begin.holds environment (machine, arena) hformed
    rcases begin_cases environment machine arena with ⟨hidle, hrun⟩ | hrun
    · rw [hrun] at hkeeps
      rw [Operation.run, map_apply _ _ hrun]
      refine h.keeps hkeeps.2 fun start hbuild => ?_
      obtain rfl : arena.length = start := congrArg Build.start (Option.some.inj hbuild)
      rw [built_eq]
      simp
    · rw [Operation.run, map_apply _ _ hrun]
      exact h
  | truncate reference =>
    rcases truncate_cases reference environment machine arena with
      ⟨⟨hidle, -⟩, machine', hrun⟩ | ⟨-, fault, hrun⟩
    · rw [Operation.run, map_apply _ _ hrun]
      exact h.cut hidle reference.offset
    · rw [Operation.run, map_apply _ _ hrun]
      exact h
  | clear =>
    rcases clear_cases environment machine arena with ⟨hidle, hrun⟩ | ⟨fault, hrun⟩
    · rw [Operation.run, map_apply _ _ hrun]
      have hcleared : ({ arena with length := firstOffset } : Arena).build = none := hidle
      exact tracks_nothing hcleared history.pending
    · rw [Operation.run, map_apply _ _ hrun]
      exact h
  | overwrite reference content =>
    rcases overwrite_cases reference content environment machine arena with
      ⟨hreadable, hrun⟩ | ⟨fault, -, hrun⟩
    · rw [Operation.run, map_apply _ _ hrun]
      exact h.overwrite hformed (idle_of_checkReadable hreadable) reference content
    · rw [Operation.run, map_apply _ _ hrun]
      exact h
  | read reference reading =>
    rw [Operation.run, bind_apply_ok _ _ (own_apply ..)]
    cases reading.find arena reference <;> exact h

/-- By induction over the record: an arena never disagrees with its history. -/
theorem Recorded.tracks (h : Recorded arena history) : Tracks arena history := by
  induction h with
  | start environment machine machine' capacity strategies diagnostics arena made =>
    have hidle : arena.build = none := by
      rcases create_cases capacity strategies environment machine with
        ⟨reason, after, herror⟩ | ⟨size, region, middle, after, -, -, -, hok⟩
      · rw [herror] at made
        cases made
      · rw [hok] at made
        cases made
        rfl
    exact tracks_nothing hidle []
  | step before environment machine operation ih =>
    exact ih.step before.reachable environment machine operation

/-! ## Where there is room -/

/-- An addition for which an arena has room as it is. -/
structure Addition.Fits (addition : Addition) (arena : Arena) : Prop where
  aligned : addition.Aligned
  counted : ¬ addition.Oversized
  short : arena.Aligns
  room : arena.length + (addition.encoding arena.length).length ≤ arena.capacity
  calm : (arena.diagnostics.forceRelocation && arena.strategies.mayMove) = false

/-- A size that regions have fits a machine word. -/
theorem lt_limit_of_suits {family : Family} {align size : Nat} (h : family.Suits align size) :
    size < Size.limit := by
  cases family with
  | heap =>
    have hlimit : (1 : Nat) <<< 63 < Size.limit := by decide
    exact Nat.lt_of_le_of_lt (Nat.le_of_add_right_le h.2.2) hlimit
  | pages => exact h.2.2

theorem Backed.capacity_lt (h : arena.Backed) : arena.capacity < Size.limit :=
  lt_limit_of_suits h.suits

/-- Cells are written behind the bytes in use. -/
def appended (arena : Arena) (content : Stretch Empty) : Arena :=
  { arena with
    region := { arena.region with memory := arena.region.memory.write arena.length content }
    length := arena.length + content.length }

/-- Cells are added without any request if there is room for them and nothing forces a move. -/
theorem add_of_room (h : arena.Backed) (hbuild : arena.build = some ⟨start, none⟩)
    (calm : (arena.diagnostics.forceRelocation && arena.strategies.mayMove) = false)
    {content : Stretch Empty} (room : arena.length + content.length ≤ arena.capacity)
    (environment : Environment) (machine : Machine) :
    Arena.add content environment (machine, arena) =
      (.ok (), machine, arena.appended content) := by
  have hsum : Size.add? arena.length content.length = some (arena.length + content.length) := by
    rw [Size.add?, if_pos (Nat.lt_of_le_of_lt room h.capacity_lt)]
  have hmake : makeRoom content.length environment (machine, arena) = (.ok (), machine, arena) := by
    rw [makeRoom_eq, hsum]
    simp only
    rw [if_pos ⟨room, by rw [calm]; exact Bool.false_ne_true⟩]
  rw [Arena.add, bind_apply_ok _ _ (own_apply ..)]
  simp only [hbuild]
  rw [bind_apply_ok _ _ (attempt_ok _ hmake)]
  rfl

/-- A prefixed addition succeeds if there is room for both of its parts. -/
theorem addPrefixed_of_room (h : arena.Backed) (hbuild : arena.build = some ⟨start, none⟩)
    (calm : (arena.diagnostics.forceRelocation && arena.strategies.mayMove) = false)
    {content : Stretch Empty} (counted : content.length < IntegerType.lengthPrefix.modulus)
    (room : arena.length + (4 + content.length) ≤ arena.capacity)
    (environment : Environment) (machine : Machine) :
    (addPrefixed content environment (machine, arena)).1 = .ok () := by
  have hwidth : (Stretch.ofBytes (IntegerType.lengthPrefix.encode content.length) :
      Stretch Empty).length = 4 := by
    rw [Stretch.length_ofBytes, IntegerType.length_encode]
    rfl
  have hcount : addInteger .lengthPrefix content.length environment (machine, arena) = _ :=
    add_of_room h hbuild calm (by omega) environment machine
  have hbacked : (arena.appended
      (Stretch.ofBytes (IntegerType.lengthPrefix.encode content.length))).Backed :=
    ⟨h.consistent, h.suits⟩
  rw [addPrefixed, if_neg (Nat.not_le.2 counted), bind_apply_ok _ _ hcount]
  -- the content goes behind its number, which took four bytes of the room
  refine congrArg Prod.fst (add_of_room hbacked hbuild calm ?_ environment machine)
  show arena.length + _ + _ ≤ arena.capacity
  omega

/-- An addition for which there is room succeeds. -/
theorem Addition.Fits.run (fits : addition.Fits arena) (h : arena.Backed)
    (hbuild : arena.build = some ⟨start, none⟩) (environment : Environment) (machine : Machine) :
    (addition.run environment (machine, arena)).1 = .ok () := by
  -- all additions but the prefixed ones are cells that are added at once
  have hadd : ∀ content : Stretch Empty, arena.length + content.length ≤ arena.capacity →
      (Arena.add content environment (machine, arena)).1 = .ok () := fun content room =>
    congrArg Prod.fst (add_of_room h hbuild fits.calm room environment machine)
  have hroom := fits.room
  cases addition with
  | bytes values =>
    refine hadd _ ?_
    rwa [Stretch.length_ofBytes]
  | zeroes count =>
    refine hadd _ ?_
    rwa [Addition.encoding, List.length_replicate] at hroom
  | align alignment =>
    rcases addAlign_cases fits.aligned environment machine arena with heq | ⟨-, hlong⟩
    · rw [Addition.run, heq]
      refine hadd _ ?_
      rwa [Addition.encoding, List.length_replicate] at hroom
    · exact absurd hlong (Nat.not_le.2 fits.short)
  | integer type value =>
    refine hadd _ ?_
    rwa [Stretch.length_ofBytes, IntegerType.encode_eq_digits]
  | pointer address =>
    refine hadd _ ?_
    rwa [Stretch.length_ofBytes, IntegerType.encode_eq_digits]
  | terminated value =>
    refine hadd _ ?_
    rwa [Stretch.length_ofBytes]
  | prefixed content =>
    refine addPrefixed_of_room h hbuild fits.calm (Nat.not_le.1 fits.counted) ?_ _ _
    rwa [Addition.encoding, List.length_append, Stretch.length_bytes] at hroom
  | text value =>
    refine addPrefixed_of_room h hbuild fits.calm ?_ ?_ _ _
    · rw [Stretch.length_ofBytes]
      exact Nat.not_le.1 fits.counted
    · rwa [Addition.encoding, List.length_append,
        ← Stretch.length_ofBytes (utf8 value) (H := Empty)] at hroom

/-! ## The discipline -/

/-- Nothing can be read beyond the end. -/
theorem find_beyond {reference : Reference} (beyond : arena.length ≤ reference.offset)
    (reading : Reading) : ∃ fault, reading.find arena reference = .error fault := by
  have hprefixed : ∃ fault, arena.readPrefixed reference = .error fault := by
    obtain ⟨fault, hfault⟩ := read_beyond beyond IntegerType.lengthPrefix.width
    exact ⟨fault, by rw [readPrefixed, readInteger, hfault]; rfl⟩
  cases reading with
  | bytes count =>
    obtain ⟨fault, hfault⟩ := read_beyond beyond count
    exact ⟨fault, by rw [Reading.find, hfault]; rfl⟩
  | integer type =>
    obtain ⟨fault, hfault⟩ := read_beyond beyond type.width
    exact ⟨fault, by rw [Reading.find, readInteger, hfault]; rfl⟩
  | terminated =>
    obtain ⟨fault, hfault⟩ := checkReadable_beyond beyond 0
    exact ⟨fault, by rw [Reading.find, readTerminated, hfault]; rfl⟩
  | prefixed =>
    obtain ⟨fault, hfault⟩ := hprefixed
    exact ⟨fault, by rw [Reading.find, hfault]; rfl⟩
  | text =>
    obtain ⟨fault, hfault⟩ := hprefixed
    exact ⟨fault, by rw [Reading.find, readText, hfault]; rfl⟩

/-- The regions of a stack lie behind each other within the bytes in use, in the order in which they
were handed out, and are read back while no build is in progress. -/
structure Stacked (arena : Arena) (stack : List Entry) : Prop where
  ordered : stack.Pairwise fun older newer => older.stop ≤ newer.offset
  inside : ∀ entry ∈ stack,
    firstOffset ≤ entry.offset ∧ entry.offset < entry.stop ∧ entry.stop ≤ arena.length
  reads : arena.build = none → ∀ entry ∈ stack,
    (arena.read ⟨entry.offset⟩ entry.bytes.length).map Stretch.bytes = .ok entry.bytes

/-- What is left of an arena with some regions when it is cut at an offset. Nothing is read or
written from there on, the regions that end before it are read back, and the next push that succeeds
begins there, which it does if there is room. -/
structure CutAt [Size.Paging] (cut : Arena) (stack : List Entry) (offset : Nat) : Prop where
  length : cut.length = offset
  unreadable : ∀ reference, offset ≤ reference.offset → ∀ reading : Reading,
    ∃ fault, reading.find cut reference = .error fault
  unwritable : ∀ reference, offset ≤ reference.offset → ∀ content environment machine,
    ∃ fault, overwrite reference content environment (machine, cut) =
      (.error (.fault fault), machine, cut)
  reads : ∀ entry ∈ stack, entry.stop ≤ offset →
    (cut.read ⟨entry.offset⟩ entry.bytes.length).map Stretch.bytes = .ok entry.bytes
  pushes : ∀ (addition : Addition) environment machine reference,
    (push addition.run environment (machine, cut)).1 = .ok reference → reference = ⟨offset⟩
  reuses : ∀ addition : Addition, addition.Fits cut → ∀ environment machine,
    (push addition.run environment (machine, cut)).1 = .ok ⟨offset⟩

theorem Tracks.stacked (h : Tracks arena history) (hformed : arena.WellFormed) :
    arena.Stacked history.stack where
  ordered := h.ordered
  inside entry hentry := by
    have hheld := h.held entry hentry
    have hpositive := List.length_pos_iff.2 (h.nonempty entry hentry)
    exact ⟨hheld.reserved, Nat.lt_add_of_pos_right hpositive,
      Nat.le_trans hheld.within hformed.floor_le⟩
  reads idle entry hentry := by
    have hheld := h.held entry hentry
    exact hheld.read idle (hheld.starts idle (h.nonempty entry hentry))

/-- What is left where an arena is cut. -/
theorem Tracks.cutAt {offset : Nat} (h : Tracks arena history) (idle : arena.build = none)
    (hreach : ({ arena with length := offset } : Arena).Reachable) :
    CutAt { arena with length := offset } history.stack offset where
  length := rfl
  unreadable reference beyond reading := find_beyond beyond reading
  unwritable reference beyond content environment machine := by
    obtain ⟨fault, hfault⟩ := checkReadable_beyond
      (show ({ arena with length := offset } : Arena).length ≤ reference.offset from beyond)
      content.length
    rcases overwrite_cases reference content environment machine { arena with length := offset } with
      ⟨hreadable, -⟩ | ⟨fault, -, hrun⟩
    · cases hfault.symm.trans hreadable
    · exact ⟨fault, hrun⟩
  reads entry hentry hstop :=
    ((h.cut idle offset).stacked hreach.wellFormed).reads idle entry
      (List.mem_filter.2 ⟨hentry, decide_eq_true hstop⟩)
  pushes addition environment machine reference hpushed := by
    obtain ⟨result, machine', later, hpush, -⟩ := hreach.push_cases idle addition environment machine
    rw [hpush] at hpushed
    cases result with
    | ok => exact (Except.ok.inj hpushed).symm
    | error reason => cases hpushed
  reuses addition fits environment machine := by
    obtain ⟨result, machine', later, hpush, hresult, -⟩ :=
      hreach.push_cases idle addition environment machine
    have hstaged := hreach.staged_begun
    have hfits : addition.Fits { arena with length := offset, build := some ⟨offset, none⟩ } :=
      ⟨fits.aligned, fits.counted, fits.short, fits.room, fits.calm⟩
    obtain rfl : result = .ok () :=
      hresult.symm.trans (hfits.run hstaged.backed hstaged.build environment machine)
    rw [hpush]
    rfl

/-- Whatever was done in an arena, its regions are stacked. It may be cut at any length that it had
while no build is in progress, and nowhere else; then it is left as it should be. -/
theorem Recorded.stack_discipline (h : Recorded arena history) :
    arena.Stacked history.stack ∧ ∀ reference environment machine,
      let outcome := truncate reference environment (machine, arena)
      (outcome.1 = .ok () ↔
        arena.build = none ∧ firstOffset ≤ reference.offset ∧ reference.offset ≤ arena.length) ∧
      (outcome.1 ≠ .ok () → outcome.2 = (machine, arena)) ∧
      (outcome.1 = .ok () → outcome.2.2.CutAt history.stack reference.offset) := by
  refine ⟨h.tracks.stacked h.reachable.wellFormed, fun reference environment machine => ?_⟩
  have hreach := h.reachable.step environment machine (.truncate reference)
  rw [after, Operation.run, map_state] at hreach
  dsimp only
  rcases truncate_cases reference environment machine arena with
    ⟨hlegal, machine', hrun⟩ | ⟨hillegal, fault, hrun⟩
  · rw [hrun] at hreach ⊢
    exact ⟨⟨fun _ => hlegal, fun _ => rfl⟩, fun hother => absurd rfl hother,
      fun _ => h.tracks.cutAt hlegal.1 hreach⟩
  · rw [hrun]
    exact ⟨⟨by simp, fun hlegal => absurd hlegal hillegal⟩, fun _ => rfl, by simp⟩

end PagedAlloc.Arena

namespace PagedAlloc.Arena

open Procedure

attribute [local instance] Size.Paging.common

theorem stack_discipline_of_two :
    let arena : Arena :=
      ⟨⟨65536, 64, (Memory.zeroed 64).fill 0 16 (Run.constant 0)⟩, 16, .fixedHeap, .off, none⟩
    let pushed := (arena.after .ordinary .fresh (.push (.bytes [1, 2, 3]))).after .ordinary .fresh
      (.push (.bytes [4, 5]))
    let written := pushed.after .ordinary .fresh (.overwrite ⟨17⟩ (Stretch.ofBytes [9]))
    let cut := written.after .ordinary .fresh (.truncate ⟨20⟩)
    written.Stacked [⟨16, [1, 9, 3]⟩, ⟨19, [4, 5]⟩] ∧
      cut.CutAt [⟨16, [1, 9, 3]⟩, ⟨19, [4, 5]⟩] 20 := by
  intro arena pushed written cut
  have hfirst := (Recorded.start .ordinary .fresh _ 64 .fixedHeap .off arena rfl).step .ordinary
    .fresh (.push (.bytes [1, 2, 3]))
  have hsecond := (hfirst.step .ordinary .fresh (.push (.bytes [4, 5]))).step .ordinary .fresh
    (.overwrite ⟨17⟩ (Stretch.ofBytes [9]))
  obtain ⟨hstacked, hcuts⟩ := hsecond.stack_discipline
  obtain ⟨hlegal, -, hcut⟩ := hcuts ⟨20⟩ .ordinary .fresh
  exact ⟨hstacked, hcut (hlegal.2 ⟨by decide +kernel, by decide, by decide +kernel⟩)⟩

end PagedAlloc.Arena
