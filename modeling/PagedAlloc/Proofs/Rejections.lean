import PagedAlloc.Proofs.FixedAnswers
import PagedAlloc.Proofs.FixedConstruction
import PagedAlloc.Proofs.UnreadLog

/-!
# Rejected calls

A request for a block is turned away if it is for more than a block, or if no block is free and there
is no further chunk. An address is refused if it is not among the blocks of any chunk, or not the
start of a block, or lies in a chunk without blocks in use. All this is found out before anything is
written, so the list stays what it was, and whatever is called for later comes out as if the rejected
call had not been made (`FixedList.Session.Reachable.rejections_harmless`).
-/

namespace PagedAlloc.FixedList

variable {paging : Size.Paging}

open FixedChunk Procedure

/-- A call left no trace but in the log: the list is the same, with its counters, its free chains and
what its blocks hold, and all that is called for later gives the same answers and ends alike. -/
structure Harmless [Size.Paging] (before after : Machine × FixedList) : Prop where
  list : after.2 = before.2
  books : before.1.SameBooks after.1
  answers : ∀ steps : List (Move Call),
    (moves Call.run steps after).1 = (moves Call.run steps before).1
  last : ∀ steps : List (Move Call),
    SameButLog (moves Call.run steps before).2 (moves Call.run steps after).2
  release : ∀ (steps : List (Move Call)) (environment : Environment),
    (FixedList.release environment (moves Call.run steps after).2).1 =
      (FixedList.release environment (moves Call.run steps before).2).1

namespace Session

/-- How a request for `size` bytes is turned away. -/
structure TurnsAway [Size.Paging] (session : Session) (environment : Environment) (size : Nat)
    (run : Except Stop Nat × Machine × FixedList) : Prop where
  tooLarge : (∃ asked most, run.1 = .error (.failure (.blockTooLarge asked most))) ↔
    session.list.blockSize < size
  reasons : ∀ reason, run.1 = .error reason →
    session.list.blockSize < size ∧
        reason = .failure (.blockTooLarge size session.list.blockSize) ∨
      session.list.Full ∧ session.list.mayExtend = false ∧ reason = .failure .exhausted ∨
      session.list.Full ∧ session.list.mayExtend = true ∧
        environment.grantsPages session.machine.ledger session.list.chunkSize = false ∧
        reason = .failure (.outOfMemory session.list.chunkSize)
  harmless : ∀ reason, run.1 = .error reason → Harmless (session.machine, session.list) run.2

/-- How an address that is given back is refused. -/
structure Refuses [Size.Paging] (session : Session) (address : Nat)
    (run : Except Stop Unit × Machine × FixedList) : Prop where
  faults : (∃ fault, run.1 = .error (.fault fault)) ↔
    (∀ entry ∈ session.list.chunks.toList, ¬ session.list.InBlocks entry.1 address) ∨
      ∃ entry ∈ session.list.chunks.toList, session.list.InBlocks entry.1 address ∧
        (¬ session.list.blockSize ∣ address - (entry.1 + headerSize) ∨ entry.2.inUse = 0)
  reasons : ∀ reason, run.1 = .error reason → reason ∈ [Stop.fault (.foreignBlock address),
    .fault (.notBlockStart address), .fault (.idleChunk address)]
  margins : ∀ entry ∈ session.list.chunks.toList, session.list.InMargin entry.1 address →
    run.1 = .error (.fault (.foreignBlock address))
  harmless : ∀ reason, run.1 = .error reason → Harmless (session.machine, session.list) run.2

variable {session : Session} {environment : Environment} {machine : Machine}

/-! ## What is left behind -/

/-- A call that leaves the books and the list alone is harmless. -/
theorem harmless_of_books (books : session.machine.SameBooks machine) :
    Harmless (session.machine, session.list) (machine, session.list) := by
  have hsame : SameButLog (session.machine, session.list) (machine, session.list) := ⟨books, rfl⟩
  exact ⟨rfl, books, fun steps => (moves_respect steps hsame).1,
    fun steps => (moves_respect steps hsame).2,
    fun steps environment => release_respects.result environment (moves_respect steps hsame).2⟩

/-- The chunks of a reachable list fit a machine word. -/
theorem Reachable.small (h : session.Reachable) : session.list.chunkSize < Size.limit := by
  obtain ⟨config, environment, machine, first, hstart, hleads⟩ := h
  obtain ⟨-, -, -, hsmall⟩ := start_made hstart
  rwa [(hleads.sameShape (Sound.of_start hstart)).chunkSize]

/-- What comes of a request for a block, in every reachable session. -/
theorem Reachable.turnsAway (h : session.Reachable) (environment : Environment) (size : Nat) :
    session.TurnsAway environment size
      (FixedList.allocate size environment (session.machine, session.list)) := by
  have hsound := h.sound
  obtain ⟨result, machine', last, hrun, houtcome⟩ :=
    hsound.list.allocate_cases environment size
  rw [hrun]
  cases houtcome with
  | tooLarge large =>
    exact ⟨by simp [large], by simp [large], fun _ _ => harmless_of_books (.refl _)⟩
  | taken small mem free takes | chained small full growing granted takes =>
    exact ⟨by simp [small], by simp, by simp⟩
  | exhausted small full fixed =>
    exact ⟨by simp [small], by simp [full, fixed], fun _ _ => harmless_of_books ⟨rfl, rfl⟩⟩
  | refused small full growing unmapped refused =>
    have hpositive : 0 < session.list.chunkSize :=
      Nat.lt_of_lt_of_le (by decide) ((Nat.le_add_right headerSize _).trans hsound.list.room)
    have hkernel := Pages.grants_of_refused hsound.list.whole hpositive h.small unmapped
    exact ⟨by simp [small], by simp [full, growing, hkernel],
      fun _ _ => harmless_of_books ⟨refused.ledger, refused.strays⟩⟩

/-- The chunk that has an address among its blocks is the one in whose mapping the address lies. -/
theorem Sound.eq_of_inBlocks (h : session.Sound) {entry other : Nat × FixedChunk} {address : Nat}
    (hentry : entry ∈ session.list.chunks.toList) (hother : other ∈ session.list.chunks.toList)
    (hin : session.list.InBlocks entry.1 address)
    (inside : other.1 ≤ address ∧ address < other.1 + session.list.chunkSize) : entry = other := by
  have hroom : headerSize + session.list.blocksPerChunk * session.list.blockSize ≤
      session.list.chunkSize := h.list.room
  obtain ⟨hfirst, hlast⟩ := hin
  exact h.list.eq_of_overlap hentry hother (x := address) ⟨by omega, by omega⟩ inside

/-- What comes of a free, for every address. -/
theorem Sound.refuses (h : session.Sound) (environment : Environment) (address : Nat) :
    session.Refuses address
      (FixedList.free address environment (session.machine, session.list)) := by
  have hroom : headerSize + session.list.blocksPerChunk * session.list.blockSize ≤
      session.list.chunkSize := h.list.room
  rcases h.list.free_cases environment address with ⟨hnone, hrun⟩ | ⟨start, chunk, hmem, hin, hcases⟩
  · rw [hrun]
    exact ⟨⟨fun _ => Or.inl hnone, fun _ => ⟨_, rfl⟩⟩, by simp, fun _ _ _ => rfl,
      fun _ _ => harmless_of_books (.refl _)⟩
  have hfirst := hin.1
  have hlast := hin.2
  have hsome : ¬ ∀ entry ∈ session.list.chunks.toList,
      ¬ session.list.InBlocks entry.1 address := fun hnone => hnone _ hmem hin
  -- the address is among the blocks of this chunk only
  have honly : (∃ entry ∈ session.list.chunks.toList, session.list.InBlocks entry.1 address ∧
      (¬ session.list.blockSize ∣ address - (entry.1 + headerSize) ∨ entry.2.inUse = 0)) ↔
        ¬ session.list.blockSize ∣ address - (start + headerSize) ∨ chunk.inUse = 0 := by
    constructor
    · rintro ⟨entry, hentry, ⟨hfirst', hlast'⟩, hbad⟩
      obtain rfl := h.eq_of_inBlocks hmem hentry hin ⟨by omega, by omega⟩
      exact hbad
    · exact fun hbad => ⟨_, hmem, hin, hbad⟩
  -- and in the margin of none
  have hmargin : ∀ entry ∈ session.list.chunks.toList, ¬ session.list.InMargin entry.1 address := by
    intro entry hentry hmargin
    rw [InMargin] at hmargin
    obtain rfl := h.eq_of_inBlocks hmem hentry hin ⟨by omega, by omega⟩
    dsimp only at hmargin
    omega
  obtain ⟨hbad, hrun⟩ | ⟨hgood, hidle, hrun⟩ | ⟨hgood, hbusy, hrun⟩ := hcases
  · rw [hrun]
    refine ⟨?_, by simp, fun entry hentry hin => absurd hin (hmargin entry hentry),
      fun _ _ => harmless_of_books (.refl _)⟩
    rw [or_iff_right hsome, honly]
    simp [hbad]
  · rw [hrun]
    refine ⟨?_, by simp, fun entry hentry hin => absurd hin (hmargin entry hentry),
      fun _ _ => harmless_of_books (.refl _)⟩
    rw [or_iff_right hsome, honly]
    simp [hidle]
  · rw [hrun]
    refine ⟨?_, by simp, fun entry hentry hin => absurd hin (hmargin entry hentry), by simp⟩
    rw [or_iff_right hsome, honly]
    simp [hgood, Nat.ne_of_gt hbusy]

/-- In every reachable session requests are turned away and addresses are refused for the stated
reasons only, and without harm. -/
theorem Reachable.rejections_harmless (h : session.Reachable) (environment : Environment) :
    (∀ size, session.TurnsAway environment size
        (FixedList.allocate size environment (session.machine, session.list))) ∧
      ∀ address, session.Refuses address
        (FixedList.free address environment (session.machine, session.list)) :=
  ⟨h.turnsAway environment, h.sound.refuses environment⟩

end Session

end PagedAlloc.FixedList

namespace PagedAlloc.FixedList

open FixedChunk Procedure

attribute [local instance] Size.Paging.common

theorem rejections_harmless_after_allocate :
    ∃ session, Session.start ⟨24, 200, true⟩ .ordinary .fresh = .ok session ∧
      let after := session.after .ordinary (.allocate 24)
      let tooLarge := FixedList.allocate 25 .ordinary (after.machine, after.list)
      let inBlock := FixedList.free 65590 .ordinary (after.machine, after.list)
      tooLarge.1 = .error (.failure (.blockTooLarge 25 24)) ∧
        Harmless (after.machine, after.list) tooLarge.2 ∧
        inBlock.1 = .error (.fault (.notBlockStart 65590)) ∧
        Harmless (after.machine, after.list) inBlock.2 := by
  have hstart : Session.start ⟨24, 200, true⟩ .ordinary .fresh = .ok _ := rfl
  have reachable := (Session.Reachable.of_start hstart).step .ordinary (.allocate 24) trivial
  obtain ⟨turnsAway, refuses⟩ := reachable.rejections_harmless .ordinary
  exact ⟨_, hstart, by decide +kernel,
    (turnsAway 25).harmless (.failure (.blockTooLarge 25 24)) (by decide +kernel),
    by decide +kernel,
    (refuses 65590).harmless (.fault (.notBlockStart 65590)) (by decide +kernel)⟩

end PagedAlloc.FixedList
