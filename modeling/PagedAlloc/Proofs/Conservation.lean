import PagedAlloc.Proofs.FaultFreedom
import PagedAlloc.Proofs.FixedMappings
import PagedAlloc.Proofs.SegregatedMappings

/-!
# Conservation of mappings

No mapping of an allocator is lost and none is given back twice. Whatever is asked of a segregated
list or of a fixed list, and whatever the kernel decides, what was mapped and not yet given back are
just the chunks of the list. In the end everything that was mapped is given back
(`mappings_conserved`).
-/

namespace PagedAlloc

variable {paging : Size.Paging}

/-- Along every session with a list the chunks are the open mappings, with the same addresses and
lengths, and only open mappings of whole pages are given back. Trimming spares every live payload.
Giving the list back accounts for the rest: if it succeeds, then all mappings of the session were
given back, and a kernel that takes every live mapping back lets it succeed. A fixed list that cannot
be made leaves no mapping open. -/
theorem mappings_conserved :
    (∀ history session, SegregatedList.Session.History history session →
      Conserves history session.list.mappings ∧ ∀ environment : Environment,
        let trimmed := SegregatedList.trim environment (session.machine, session.list)
        let last := SegregatedList.release environment (session.machine, session.list)
        session.Spares (trimmed.2.1.since session.machine) ∧
          Closes (last.2.1.since session.machine ++ history) last.1 last.2.2.mappings ∧
          (session.Intact → environment.UnmapsLive → last.1 = .ok ())) ∧
    (∀ history session, FixedList.Session.History history session →
      Conserves history session.list.mappings ∧ ∀ environment : Environment,
        let last := FixedList.release environment (session.machine, session.list)
        Closes (last.2.1.since session.machine ++ history) last.1 last.2.2.mappings ∧
          (environment.UnmapsLive → last.1 = .ok ())) ∧
    ∀ make, FixedList.Makes make → ∀ environment machine reason machine',
      make environment machine = (.error reason, machine') →
        Conserves (machine'.since machine) 0 := by
  refine ⟨fun history session h => ⟨h.conserves, fun environment => ?segregated⟩,
    fun history session h => ⟨h.conserves, fun environment =>
      ⟨h.closes environment, fun hunmaps => h.release hunmaps⟩⟩,
    fun make makes environment machine reason machine' hrun => makes.conserves_error hrun⟩
  have hsound := h.reachable.sound
  refine ⟨hsound.trim_spares environment, h.closes environment, fun hintact hunmaps => ?_⟩
  obtain ⟨machine', after, hrun⟩ := hsound.list.release hintact.exact hunmaps
  rw [hrun]

end PagedAlloc

namespace PagedAlloc

attribute [local instance] Size.Paging.common

/-- A large payload is freed and trimmed away from beside a small one, a chunk is chained for a
third block, and the kernel has no page for another list. -/
theorem mappings_conserved_of_few :
    let kernel : Environment := { Environment.ordinary with grantsUnmap := fun _ _ _ => true }
    let empty : SegregatedList.Session := ⟨.fresh, .empty, []⟩
    let second := (empty.after kernel (.allocate 300000 true)).after kernel (.allocate 64 false)
    let third := second.after kernel (.free 65616)
    let session := third.after kernel .trim
    (∃ history, obtained history = {⟨65536, 303104⟩, ⟨368640, 65536⟩} ∧
      returned history = {⟨65536, 303104⟩} ∧ session.list.mappings = {⟨368640, 65536⟩} ∧
      Conserves history session.list.mappings ∧
      third.Spares ((SegregatedList.trim kernel (third.machine, third.list)).2.1.since
        third.machine) ∧
      ∃ machine list,
        SegregatedList.release kernel (session.machine, session.list) = (.ok (), machine, list) ∧
        obtained (machine.since session.machine ++ history) =
          returned (machine.since session.machine ++ history)) ∧
    (∃ made before, FixedList.ofConfig ⟨1500, 4096, true⟩ kernel .fresh = (.ok made, before) ∧
      let start : FixedList.Session := ⟨before, made, []⟩
      let second := (start.after kernel (.allocate 1500)).after kernel (.allocate 8)
      let session := second.after kernel (.allocate 1)
      ∃ history, obtained history = {⟨65536, 4096⟩, ⟨69632, 4096⟩} ∧ returned history = 0 ∧
        Conserves history session.list.mappings ∧
        ∃ machine list,
          FixedList.release kernel (session.machine, session.list) = (.ok (), machine, list) ∧
          obtained (machine.since session.machine ++ history) =
            returned (machine.since session.machine ++ history)) ∧
    let starved : Environment := { kernel with grantsPages := fun _ _ => false }
    ∃ reason machine, FixedList.ofBlockSize 1500 starved .fresh = (.error reason, machine) ∧
      machine.since .fresh = [.fixedReleasing 0 65536, .mapRefused 65536] ∧
      Conserves (machine.since .fresh) 0 := by
  intro kernel empty second third session
  have fits : kernel.FitsAddresses := Environment.ordinary_fitsAddresses
  have unmaps : kernel.UnmapsLive := fun _ _ _ _ => rfl
  have freed : (SegregatedList.Call.free 65616).Allowed second := by
    show 65616 ∈ _
    decide +kernel
  refine ⟨?segregated, ?fixed, ?refused⟩
  case segregated =>
    have hsecond : SegregatedList.Session.History _ second :=
      ((SegregatedList.Session.History.start .fresh).step kernel fits (.allocate 300000 true)
        trivial).step kernel fits (.allocate 64 false) trivial
    have hthird : SegregatedList.Session.History _ third :=
      hsecond.step kernel fits (.free 65616) freed
    have hsession : SegregatedList.Session.History _ session :=
      hthird.step kernel fits .trim trivial
    have hserved : session.Served := ((((SegregatedList.Session.Run.start .fresh).step kernel fits
      (.allocate 300000 true) trivial unmaps).step kernel fits (.allocate 64 false) trivial
      unmaps).step kernel fits (.free 65616) freed unmaps).step kernel fits .trim trivial unmaps
    obtain ⟨hspares, -, -⟩ := (mappings_conserved.1 _ _ hthird).2 kernel
    obtain ⟨hconserves, hends⟩ := mappings_conserved.1 _ _ hsession
    obtain ⟨-, hcloses, hdone⟩ := hends kernel
    refine ⟨_, by decide +kernel, by decide +kernel, by decide +kernel, hconserves, hspares, ?_⟩
    rcases hlast : SegregatedList.release kernel (session.machine, session.list) with
      ⟨result, machine, list⟩
    rw [hlast] at hcloses hdone
    -- no fault stopped a call, so the end of the list succeeds and its books balance
    obtain rfl := hdone hserved.intact unmaps
    exact ⟨machine, list, rfl, hcloses.balanced rfl⟩
  case fixed =>
    have hmade : FixedList.ofConfig ⟨1500, 4096, true⟩ kernel .fresh = (.ok _, _) := rfl
    refine ⟨_, _, hmade, ?_⟩
    intro start second session
    have hsession : FixedList.Session.History _ session :=
      (((FixedList.Session.History.start (.ofConfig _) hmade).step kernel (.allocate 1500)
        trivial).step kernel (.allocate 8) trivial).step kernel (.allocate 1) trivial
    obtain ⟨hconserves, hends⟩ := mappings_conserved.2.1 _ _ hsession
    obtain ⟨hcloses, hdone⟩ := hends kernel
    refine ⟨_, by decide +kernel, by decide +kernel, hconserves, ?_⟩
    rcases hlast : FixedList.release kernel (session.machine, session.list) with
      ⟨result, machine, list⟩
    rw [hlast] at hcloses hdone
    obtain rfl := hdone unmaps
    exact ⟨machine, list, rfl, hcloses.balanced rfl⟩
  case refused =>
    intro starved
    have hrun : FixedList.ofBlockSize 1500 starved .fresh = (.error _, _) := rfl
    exact ⟨_, _, hrun, rfl, mappings_conserved.2.2 _ (.ofBlockSize 1500) _ _ _ _ hrun⟩

end PagedAlloc
