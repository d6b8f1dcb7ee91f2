import PagedAlloc.Proofs.ArenaTwins
import PagedAlloc.Proofs.Lockstep

/-!
# Operations of twins

Twins go in lockstep (`Arena.lockstep_twins`): what may move their buffers is left to
`Arena.Twins.makeRoom` and `Arena.Twins.adopt`. So every operation of an arena gives the same answer
on twins and leaves twins behind (`Arena.Twins.told`).
-/

namespace PagedAlloc.Arena

variable {paging : Size.Paging}

open Procedure

variable {environment : Environment} {state state' : Machine × Arena}

/-- All bytes that twins have in use are the same, the reserved ones as well. -/
theorem Twins.peers (h : Twins environment state state') : Peers 0 state.2 state'.2 where
  wellFormed := h.wellFormed
  whole := h.whole
  length := h.length
  capacity := h.capacity
  build := h.build
  cells offset _ hlt := h.cells offset hlt

/-- Twins that keep their buffers and their books are twins as long as they are peers. -/
theorem Twins.keeps {machine machine' : Machine} {arena arena' after after' : Arena}
    (h : Twins environment (machine, arena) (machine', arena')) (events : List Event)
    (same : SameBuffer arena after) (same' : SameBuffer arena' after')
    (peers : Peers 0 after after') :
    Twins environment ({ machine with log := events ++ machine.log }, after)
      ({ machine' with log := events ++ machine'.log }, after') where
  wellFormed := peers.wellFormed
  consistent := same.strategies ▸ h.consistent
  quiet := same.strategies ▸ h.quiet
  granted := by
    rw [same.strategies, same.capacity]
    exact h.granted
  whole := peers.whole
  strategies := same'.strategies.trans (h.strategies.trans same.strategies.symm)
  length := peers.length
  capacity := peers.capacity
  build := peers.build
  cells offset hlt := peers.cells offset (Nat.zero_le _) hlt
  fixed stays := by
    have hfixed := h.fixed (same.strategies ▸ stays)
    exact ⟨hfixed.1, same'.address.trans (hfixed.2.trans same.address.symm)⟩

/-- Only twins that may move are resized, and they are answered as a fresh request would be. -/
theorem Twins.shrink (h : Twins environment state state') (hsize : environment.BySize) :
    Concur (Twins environment) (shrink environment state) (Arena.shrink environment state') := by
  obtain ⟨machine, arena⟩ := state
  obtain ⟨machine', arena'⟩ := state'
  refine concur_shrink h h.build h.length h.capacity h.strategies fun target htarget hmoves => ?_
  have hmoves' : arena'.strategies.mayMove = true := h.strategies ▸ hmoves
  have hle := Size.le_of_roundUp_eq_ok (by decide) htarget
  have hpositive := h.wellFormed.positive hle
  have hanswer := h.toFunded.resize hsize hmoves hpositive machine
  have hanswer' := h.symm.toFunded.resize hsize hmoves' hpositive machine'
  have hagree := h.adopt_moving hmoves hle (Region.yields_resize _ h.wellFormed.whole rfl ..)
    (Region.yields_resize _ h.whole rfl ..) hanswer hanswer'
  exact ⟨hagree.result, hagree.twins⟩

/-- Twins go in lockstep where the kernel and the heap decide by sizes alone. -/
theorem lockstep_twins (hsize : environment.BySize) :
    Lockstep 0 environment environment (Twins environment) where
  reserved := Nat.zero_le _
  peers h := h.peers
  keeps events h same same' peers := h.keeps events same same' peers
  makeRoom additional h :=
    have hagree := h.makeRoom hsize additional
    ⟨hagree.result, hagree.twins⟩
  shrink h := h.shrink hsize

/-- Twins answer every operation alike. -/
theorem Twins.told (h : Twins environment state state') (hsize : environment.BySize)
    (operation : Operation) :
    Agree environment ((Answer.plain <$> operation.run) environment state)
      ((Answer.plain <$> operation.run) environment state') := by
  have hconcur := (lockstep_twins hsize).told h operation
  exact ⟨hconcur.result, hconcur.related⟩

end PagedAlloc.Arena
