import PagedAlloc.Proofs.Accounts

/-!
# Freedom from faults

Below the sizes of payloads the arithmetic of a segregated list is not guarded, and many steps rely on
what the steps before them left behind. A caller who names live addresses only, on a kernel that takes
every live mapping back, never runs into a fault: each call succeeds, or asks for a payload and is
told that its size does not fit or that the kernel has no chunk for it
(`SegregatedList.Session.Served.fault_free`).
-/

namespace PagedAlloc

variable {paging : Size.Paging}

/-- A category holds its chunks on every machine that has them in its books. -/
theorem Category.Held.of_machine {machine machine' : Machine} {category : Category}
    (h : Held machine category)
    (hheld : ∀ entry ∈ category.chunks.toList,
      ⟨entry.1, entry.2.size, .pages false⟩ ∈ machine'.ledger) : Held machine' category :=
  { h with held := hheld }

namespace SegregatedList

open Procedure

variable {environment : Environment} {machine : Machine} {list : SegregatedList}

/-- Giving the chunks of some categories back succeeds. -/
theorem onEach_release (hunmaps : environment.UnmapsLive) {indices : List (Fin categoryCount)}
    (distinct : indices.Nodup)
    (hheld : ∀ index ∈ indices, Category.Held machine (list.category index))
    (hapart : ∀ i ∈ indices, ∀ j ∈ indices, i ≠ j → ∀ p ∈ (list.category i).chunks.toList,
      ∀ q ∈ (list.category j).chunks.toList, Chunk.Apart p q) :
    ∃ machine' after, onEach Category.release indices environment (machine, list) =
      (.ok (), machine', after) := by
  induction indices generalizing machine list with
  | nil => exact ⟨machine, list, rfl⟩
  | cons index rest ih =>
    obtain ⟨hfirst, hrest⟩ := List.nodup_cons.1 distinct
    obtain ⟨machine', state, hrun, hspares⟩ := (hheld index (List.mem_cons_self ..)).release hunmaps
    -- the categories that are still to come are as they were, and so are their mappings
    have hother : ∀ other ∈ rest,
        (list.withCategory index state).category other = list.category other :=
      fun other hin => category_withCategory_ne list (ne_of_mem_of_not_mem hin hfirst) state
    rw [onEach, bind_apply_ok _ _ (onCategory_apply hrun)]
    refine ih hrest (fun other hin => ?_) fun i hi j hj hne => ?_
    · rw [hother other hin]
      have hmine := hheld other (List.mem_cons_of_mem _ hin)
      refine hmine.of_machine fun entry hentry => hspares _ (hmine.held entry hentry) fun p hp => ?_
      exact hapart other (List.mem_cons_of_mem _ hin) index (List.mem_cons_self ..)
        (ne_of_mem_of_not_mem hin hfirst) entry hentry p hp
    · rw [hother i hi, hother j hj]
      exact hapart i (List.mem_cons_of_mem _ hi) j (List.mem_cons_of_mem _ hj) hne

/-- Giving every chunk back succeeds. -/
theorem Sound.release (h : Sound machine list) (exact : list.Exact)
    (hunmaps : environment.UnmapsLive) :
    ∃ machine' after, SegregatedList.release environment (machine, list) = (.ok (), machine', after) :=
  onEach_release hunmaps (List.nodup_finRange categoryCount)
    (fun index _ => (h.sound index).toHeld (exact.mapped index))
    fun i _ j _ hne => h.apart i j hne

/-- On a kernel that takes every live mapping back, no call stops with a fault that a caller may make,
and neither does giving everything back in the end. A request whose payload or chunk does not fit a
machine word always fails with an overflow. Every other one is answered with an address that has room
for it, or fails because the kernel refused the chunk. -/
theorem Session.Served.fault_free {session : Session} (h : session.Served)
    {environment : Environment} (fits : environment.FitsAddresses)
    (unmaps : environment.UnmapsLive) :
    (∀ call : Call, call.Allowed session → call.Answers session environment) ∧
      ∃ machine list, SegregatedList.release environment (session.machine, session.list) =
        (.ok (), machine, list) := by
  have hsound := (Run.reachable h).sound
  exact ⟨fun call allowed => (hsound.ends fits allowed).answers h.intact.exact unmaps,
    hsound.list.release h.intact.exact unmaps⟩

end SegregatedList

end PagedAlloc

namespace PagedAlloc.SegregatedList

open Procedure

attribute [local instance] Size.Paging.common

/-- A request that is too large by far, after one of two payloads was freed. -/
theorem fault_free_after_free :
    let kernel : Environment := { Environment.ordinary with grantsUnmap := fun _ _ _ => true }
    let session := ((Session.after ⟨.fresh, .empty, []⟩ kernel (.allocate 300000 true)).after
      kernel (.allocate 64 false)).after kernel (.free 65616)
    session.live = [(368720, 64)] ∧
      (Call.reallocate (some 368720) (Size.limit - 1) true).Answers session kernel ∧
      Call.trim.Answers session kernel ∧
      ∃ machine list, SegregatedList.release kernel (session.machine, session.list) =
        (.ok (), machine, list) := by
  intro kernel session
  have fits : kernel.FitsAddresses := Environment.ordinary_fitsAddresses
  have unmaps : kernel.UnmapsLive := fun _ _ _ _ => rfl
  have first : Session.Served _ :=
    Session.Run.step (.start .fresh) kernel fits (.allocate 300000 true) trivial unmaps
  have second : Session.Served _ :=
    Session.Run.step first kernel fits (.allocate 64 false) trivial unmaps
  have third : session.Served :=
    Session.Run.step second kernel fits (.free 65616) (show 65616 ∈ _ by decide +kernel) unmaps
  have answers := (third.fault_free fits unmaps).1
  exact ⟨by decide +kernel,
    answers (.reallocate (some 368720) (Size.limit - 1) true) fun _ heq => by
      cases heq
      decide +kernel,
    answers .trim trivial, (third.fault_free fits unmaps).2⟩

end PagedAlloc.SegregatedList
