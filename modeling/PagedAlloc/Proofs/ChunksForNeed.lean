import Mathlib.Algebra.Order.Floor.Div
import PagedAlloc.Proofs.FixedAnswers
import PagedAlloc.Proofs.FixedConstruction
import PagedAlloc.Proofs.FreeStacks

/-!
# Chunks for need

A fixed list chains a chunk only when every block of those it has is in use, in whatever order blocks
were given back and however often the list was cleared. So the number of chunks follows from the
largest number of blocks that were in use at any time (`Session.peak`): it is the number of chunks
that hold so many blocks, and one if there never was any (`Session.chunks_for_need`).
-/

namespace PagedAlloc.FixedList

variable {paging : Size.Paging}

open FixedChunk Procedure

namespace Session

/-- The session after some moves. -/
def afterMoves [Size.Paging] : Session → List (Move Call) → Session
  | session, [] => session
  | session, .call environment call :: rest => (session.after environment call).afterMoves rest
  | session, .others machine :: rest =>
    afterMoves { session with machine := machine } rest

/-- The largest number of blocks that are in use at any time of some moves. -/
def peak [Size.Paging] : Session → List (Move Call) → Nat
  | session, [] => session.list.inUse
  | session, .call environment call :: rest =>
    max session.list.inUse ((session.after environment call).peak rest)
  | session, .others machine :: rest =>
    max session.list.inUse (peak { session with machine := machine } rest)

/-- The chunks of a session are those that a number of blocks needs, which was the largest one so
far. -/
structure Needs (session : Session) (most : Nat) : Prop where
  current : session.list.inUse ≤ most
  chained : 1 ≤ session.list.chunks.length
  room : most ≤ session.list.chunks.length * session.list.blocksPerChunk
  last : session.list.chunks.length = 1 ∨
    (session.list.chunks.length - 1) * session.list.blocksPerChunk < most

variable {environment : Environment} {machine : Machine} {session first : Session} {call : Call}
  {config : FixedConfig} {steps : List (Move Call)} {most : Nat}

/-! ## One call -/

/-- A call chains a chunk only for a block that no chunk has free, and only one. -/
theorem Sound.length_after (h : session.Sound) (allowed : call.Allowed session)
    (environment : Environment) :
    (session.after environment call).list.chunks.length = session.list.chunks.length ∨
      session.list.Full ∧ session.list.mayExtend = true ∧
        (session.after environment call).list.chunks.length = session.list.chunks.length + 1 ∧
        (session.after environment call).list.inUse = session.list.inUse + 1 := by
  cases call with
  | allocate size =>
    obtain ⟨result, machine', last, hrun, houtcome⟩ := h.list.allocate_cases environment size
    rw [Session.after, Call.run, Session.turn_list, hrun]
    cases houtcome with
    -- of all outcomes of an allocation this one alone chains a chunk
    | chained small full growing granted takes => exact Or.inr ⟨full, growing, rfl, rfl⟩
    | tooLarge | taken | exhausted | refused => exact Or.inl rfl
  | free address =>
    obtain ⟨-, hrun⟩ | ⟨start, chunk, -, -, ⟨-, hrun⟩ | ⟨-, -, hrun⟩ | ⟨-, -, hrun⟩⟩ :=
      h.list.free_cases environment address
    all_goals
      rw [Session.after, Call.run, Session.turn_list, hrun]
      exact Or.inl rfl
  | clear =>
    obtain ⟨chunks, hrun, hsequence⟩ := h.list.clear_apply environment
    rw [Session.after, Call.run, Session.turn_list, hrun]
    left
    rw [hsequence.length, List.length_map, h.list.sequence.length]
  | write address offset content =>
    obtain ⟨start, chunk, stock, index, hmem, stocked, hindex, rfl⟩ := (h.live address).1 allowed.1
    have hrun := h.list.write_apply hmem (stocked.index_lt hindex) offset content environment
    rw [Session.after, Call.run, Session.turn_list, hrun]
    exact Or.inl rfl

/-- A call keeps the number of chunks the needed one. -/
theorem Needs.step (h : session.Needs most) (sound : session.Sound)
    (allowed : call.Allowed session) (environment : Environment) :
    (session.after environment call).Needs
      (max most (session.after environment call).list.inUse) := by
  have hafter := (sound.step allowed environment).sound
  have hle := hafter.inUse_le
  have hcount := (sound.step_sameShape allowed environment).blocksPerChunk
  obtain ⟨hcurrent, hchained, hroom, hlast⟩ := h
  rcases sound.length_after allowed environment with hsame | ⟨hfull, -, hlength, hinUse⟩
  · rw [hcount, hsame] at hle
    refine ⟨le_max_right .., hsame ▸ hchained, ?_, ?_⟩ <;> rw [hcount, hsame]
    · exact max_le hroom hle
    · exact hlast.imp_right fun hlt => Nat.lt_of_lt_of_le hlt (le_max_left ..)
  · -- the chunk was chained because the peak filled all others
    have hall := sound.full_iff.1 hfull
    rw [hcount, hlength] at hle
    refine ⟨le_max_right .., ?_, ?_, Or.inr ?_⟩ <;> rw [hlength]
    · exact Nat.le_add_left ..
    · rw [hcount]
      exact max_le (hroom.trans (Nat.mul_le_mul_right _ (Nat.le_succ _))) hle
    · rw [hcount, Nat.add_sub_cancel, ← hall, hinUse]
      exact Nat.lt_of_lt_of_le (Nat.lt_succ_self _) (le_max_right ..)

/-! ## Runs -/

/-- The blocks in use now are no more than there ever were. -/
theorem inUse_le_peak (session : Session) (steps : List (Move Call)) :
    session.list.inUse ≤ session.peak steps := by
  cases steps with
  | nil => exact Nat.le_refl _
  | cons step rest => cases step <;> exact le_max_left ..

/-- Permitted moves keep a session sound, and its list of its shape. -/
theorem Sound.moves (h : session.Sound) (permitted : session.Permits steps) :
    (session.afterMoves steps).Sound ∧ SameShape session.list (session.afterMoves steps).list := by
  induction steps generalizing session with
  | nil => exact ⟨h, .refl _⟩
  | cons step rest ih =>
    cases step with
    | call environment call =>
      obtain ⟨hsound, hshape⟩ := ih (h.step permitted.1 environment).sound permitted.2
      exact ⟨hsound, (h.step_sameShape permitted.1 environment).trans hshape⟩
    | others machine => exact ih (h.of_machine permitted.1) permitted.2

/-- As a session goes on it has no more chunks than the peak of its blocks needs. -/
theorem Needs.moves (h : session.Needs most) (sound : session.Sound)
    (permitted : session.Permits steps) :
    (session.afterMoves steps).Needs (max most (session.peak steps)) := by
  induction steps generalizing session most with
  | nil => rwa [peak, max_eq_left h.current]
  | cons step rest ih =>
    cases step with
    | call environment call =>
      have hnext := ih (h.step sound permitted.1 environment)
        (sound.step permitted.1 environment).sound permitted.2
      rw [max_assoc, max_eq_right (inUse_le_peak ..)] at hnext
      rwa [peak, ← max_assoc, max_eq_left h.current]
    | others machine =>
      have hneeds : Needs { session with machine := machine } most := ⟨h.1, h.2, h.3, h.4⟩
      have hnext := ih hneeds (sound.of_machine permitted.1) permitted.2
      rwa [peak, ← max_assoc, max_eq_left h.current]

/-- Without chaining no call chains a chunk. -/
theorem Sound.length_moves (h : session.Sound) (fixed : session.list.mayExtend = false)
    (permitted : session.Permits steps) :
    (session.afterMoves steps).list.chunks.length = session.list.chunks.length := by
  induction steps generalizing session with
  | nil => rfl
  | cons step rest ih =>
    cases step with
    | call environment call =>
      have hshape := h.step_sameShape permitted.1 environment
      refine (ih (h.step permitted.1 environment).sound (hshape.mayExtend.trans fixed)
        permitted.2).trans ((h.length_after permitted.1 environment).resolve_right ?_)
      rintro ⟨-, hgrowing, -⟩
      cases fixed.symm.trans hgrowing
    | others machine => exact ih (h.of_machine permitted.1) fixed permitted.2

/-! ## The number of chunks -/

/-- The least number of chunks that hold the largest number of blocks. -/
theorem Needs.length_eq (h : session.Needs most) (sound : session.Sound) :
    session.list.chunks.length = max 1 (most ⌈/⌉ session.list.blocksPerChunk) := by
  have hpositive := sound.list.positive
  have hroom : most ⌈/⌉ session.list.blocksPerChunk ≤ session.list.chunks.length :=
    (ceilDiv_le_iff_le_mul hpositive).2 (Nat.mul_comm .. ▸ h.room)
  refine Nat.le_antisymm ?_ (max_le h.chained hroom)
  rcases h.last with hone | hlast
  · exact hone.le.trans (le_max_left ..)
  · have hless : session.list.chunks.length - 1 < most ⌈/⌉ session.list.blocksPerChunk := by
      refine Nat.lt_of_not_le fun hle => Nat.not_le.2 hlast ?_
      rw [Nat.mul_comm]
      exact (ceilDiv_le_iff_le_mul hpositive).1 hle
    exact (Nat.le_of_pred_lt hless).trans (le_max_right ..)

/-- A list begins with one chunk and no block in use. -/
theorem needs_of_start (hstart : start config environment machine = .ok first) :
    first.Needs 0 := by
  obtain ⟨hlength, hinUse, -, -⟩ := start_made hstart
  exact ⟨hinUse.le, hlength.ge, Nat.zero_le _, Or.inl hlength⟩

/-- A request that would fit is turned away without another chunk just if all blocks are in use. -/
theorem Sound.exhausted_iff (h : session.Sound) (fixed : session.list.mayExtend = false)
    {size : Nat} (small : size ≤ session.list.blockSize) (environment : Environment) :
    (FixedList.allocate size environment (session.machine, session.list)).1 =
        .error (.failure .exhausted) ↔
      session.list.inUse = session.list.chunks.length * session.list.blocksPerChunk := by
  rw [← h.full_iff]
  obtain ⟨result, machine', last, hrun, houtcome⟩ := h.list.allocate_cases environment size
  rw [hrun]
  cases houtcome with
  | tooLarge large => exact absurd small (Nat.not_le.2 large)
  | taken small mem free takes =>
    constructor
    · intro hresult
      cases hresult
    · intro hfull
      cases free.symm.trans (h.list.full_iff_idle.1 hfull _ mem)
  | chained small full growing granted takes => cases fixed.symm.trans growing
  | exhausted small full fixed => exact ⟨fun _ => full, fun _ => rfl⟩
  | refused small full growing unmapped refused => cases fixed.symm.trans growing

/-- At every time of a run a list has as many chunks as the largest number of blocks that were in
use so far needs. Without chaining it has one, and turns requests away when that is used up. -/
theorem chunks_for_need (hstart : start config environment machine = .ok first)
    (permitted : first.Permits steps) :
    let last := first.afterMoves steps
    last.list.chunks.length = max 1 (first.peak steps ⌈/⌉ last.list.blocksPerChunk) ∧
      (config.mayExtend = false → last.list.chunks.length = 1 ∧
        ∀ environment size, size ≤ last.list.blockSize →
          ((FixedList.allocate size environment (last.machine, last.list)).1 =
              .error (.failure .exhausted) ↔
            last.list.inUse = last.list.blocksPerChunk)) := by
  intro last
  have hsound := Sound.of_start hstart
  obtain ⟨hone, -, hextend, -⟩ := start_made hstart
  obtain ⟨hlast, hshape⟩ := hsound.moves permitted
  have hneeded := (needs_of_start hstart).moves hsound permitted
  rw [Nat.zero_max] at hneeded
  refine ⟨hneeded.length_eq hlast, fun hfixed => ?_⟩
  have hfixed := hextend.trans hfixed
  have hlength : last.list.chunks.length = 1 := (hsound.length_moves hfixed permitted).trans hone
  refine ⟨hlength, fun environment size small => ?_⟩
  rw [hlast.exhausted_iff (hshape.mayExtend.trans hfixed) small, hlength, Nat.one_mul]

end Session

end PagedAlloc.FixedList

namespace PagedAlloc.FixedList

open FixedChunk Procedure

attribute [local instance] Size.Paging.common

theorem chunks_for_need_after_clear :
    (∃ first, Session.start ⟨1500, 4096, true⟩ .ordinary .fresh = .ok first ∧
      let steps : List (Move Call) := [.call .ordinary (.allocate 1500),
        .call .ordinary (.allocate 8), .call .ordinary (.free 65584),
        .call .ordinary (.allocate 1), .call .ordinary (.allocate 1), .call .ordinary .clear,
        .call .ordinary (.allocate 2000), .call .ordinary (.allocate 9)]
      first.Permits steps ∧ first.peak steps = 3 ∧
        (first.afterMoves steps).list.chunks.length = 2) ∧
      ∃ first, Session.start ⟨1500, 4096, false⟩ .ordinary .fresh = .ok first ∧
        let steps : List (Move Call) := [.call .ordinary (.allocate 1500),
          .call .ordinary (.allocate 8), .call .ordinary (.allocate 1)]
        let last := first.afterMoves steps
        first.Permits steps ∧ last.list.chunks.length = 1 ∧
          (FixedList.allocate 1504 .ordinary (last.machine, last.list)).1 =
            .error (.failure .exhausted) := by
  constructor
  · have hstart : Session.start ⟨1500, 4096, true⟩ .ordinary .fresh = .ok _ := rfl
    refine ⟨_, hstart, ?permitted, by decide +kernel,
      (Session.chunks_for_need hstart ?permitted).1.trans (by decide +kernel)⟩
    exact ⟨trivial, trivial, show 65584 ∈ _ by decide +kernel, trivial, trivial, trivial, trivial,
      trivial, trivial⟩
  · have hstart : Session.start ⟨1500, 4096, false⟩ .ordinary .fresh = .ok _ := rfl
    have hpermits : ∀ session : Session, session.Permits [.call .ordinary (.allocate 1500),
        .call .ordinary (.allocate 8), .call .ordinary (.allocate 1)] := fun _ =>
      ⟨trivial, trivial, trivial, trivial⟩
    obtain ⟨hlength, hexhausted⟩ := (Session.chunks_for_need hstart (hpermits _)).2 rfl
    exact ⟨_, hstart, hpermits _, hlength,
      (hexhausted .ordinary 1504 (by decide +kernel)).2 (by decide +kernel)⟩

end PagedAlloc.FixedList
