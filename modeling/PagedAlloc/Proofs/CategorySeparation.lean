import PagedAlloc.Proofs.Accounts
import PagedAlloc.Proofs.SegregatedLayouts

/-!
# Separation of the categories

A caller names sizes when it allocates and addresses when it frees, and nothing but the header in
front of an address and the tag of its chunk leads from one to the other. The two agree: a live
payload lies where the size that was asked for last belongs. So each call works on the category of its
size or its address, and leaves all others as they were, whatever comes of it
(`SegregatedList.Session.Reachable.categories_separate`).
-/

namespace PagedAlloc.SegregatedList.Session

variable {paging : Size.Paging}

/-- The payloads of different categories have nothing to do with each other. Each chunk is tagged with
the category that it is in, each live payload lies in the category of its size, and a call changes no
category but those of the sizes that it is about. -/
structure Separate [Size.Paging] (session : Session) : Prop where
  tagged : ∀ (index : Fin categoryCount),
    ∀ entry ∈ (session.list.category index).chunks.toList, entry.2.category = index
  lies : ∀ entry ∈ session.live, ∃ start before usable behind,
    session.list.Lies entry.1 (categoryFor entry.2) start before usable behind ∧ entry.2 ≤ usable
  allocate : ∀ environment : Environment, environment.FitsAddresses → ∀ size zero,
    Confined {categoryFor size} session.list
      (session.after environment (.allocate size zero)).list
  free : ∀ environment : Environment, ∀ entry ∈ session.live,
    Confined {categoryFor entry.2} session.list (session.after environment (.free entry.1)).list
  reallocate : ∀ environment : Environment, environment.FitsAddresses →
    ∀ entry ∈ session.live, ∀ size zero,
      Confined {categoryFor entry.2, categoryFor size} session.list
        (session.after environment (.reallocate (some entry.1) size zero)).list

variable {environment : Environment} {session : Session} {call : Call}

/-- A live payload is a block in use of the category of its size, and large enough. -/
theorem Reachable.exists_uses_categoryFor (h : session.Reachable) {entry : Nat × Nat}
    (hlive : entry ∈ session.live) :
    ∃ ref usable, entry.1 = ref.payload ∧
      (session.list.category (categoryFor entry.2)).Uses ref usable ∧ entry.2 ≤ usable := by
  obtain ⟨ref, usable, hplace, huses⟩ := h.accounts.held entry hlive
  obtain ⟨other, hother, index, room, hroom, hle⟩ := h.sound.held entry.1 entry.2 hlive
  have hsame := h.sound.list.inUse_unique hroom huses (hother.symm.trans hplace)
  obtain ⟨-, -, rfl⟩ : index = categoryFor entry.2 ∧ other = ref ∧ room = usable := by
    simpa using hsame
  exact ⟨ref, room, hplace, huses, hle⟩

/-- In every session the categories are separate. Rounding a size to that of a payload never leads to
another category. -/
theorem Reachable.categories_separate (h : session.Reachable) :
    session.Separate ∧ ∀ request size, Block.payloadSize? request = some size →
      categoryFor size = categoryFor request := by
  refine ⟨⟨?_, ?_, ?_, ?_, ?_⟩, fun _ _ => categoryFor_payloadSize⟩
  · rintro index ⟨address, chunk⟩ hmem
    exact h.sound.list.category_eq hmem
  · intro entry hlive
    obtain ⟨ref, usable, hplace, huses, hle⟩ := h.exists_uses_categoryFor hlive
    obtain ⟨start, before, behind, hlies⟩ := h.sound.list.exists_lies huses
    exact ⟨start, before, usable, behind, hplace ▸ hlies, hle⟩
  · intro environment fits size zero
    rw [Session.after, Call.run, Session.turn_list]
    exact h.sound.list.allocate_confined fits size zero
  · intro environment entry hlive
    obtain ⟨ref, usable, hplace, huses, -⟩ := h.exists_uses_categoryFor hlive
    rw [Session.after, Call.run, Session.turn_list, hplace]
    exact h.sound.list.free_confined huses environment
  · intro environment fits entry hlive size zero
    obtain ⟨ref, usable, hplace, huses, -⟩ := h.exists_uses_categoryFor hlive
    rw [Session.after, Call.run, Session.turn_list, hplace]
    exact h.sound.list.reallocate_confined fits huses size zero

end PagedAlloc.SegregatedList.Session

namespace PagedAlloc.SegregatedList.Session

attribute [local instance] Size.Paging.common

/-- Payloads of two categories, of which the first one is resized into the second one. -/
theorem categories_separate_of_two :
    let session := (Session.after ⟨.fresh, .empty, []⟩ .ordinary (.allocate 64 true)).after
      .ordinary (.allocate 100 false)
    let after := session.after .ordinary (.reallocate (some 65616) 200 false)
    session.live = [(131152, 100), (65616, 64)] ∧ after.live.map Prod.snd = [200, 100] ∧
      session.Separate ∧ Confined {categoryFor 64, categoryFor 200} session.list after.list := by
  intro session after
  have fits := Environment.ordinary_fitsAddresses
  have reachable : session.Reachable :=
    ((Session.Reachable.start .fresh).step .ordinary fits (.allocate 64 true) trivial).step
      .ordinary fits (.allocate 100 false) trivial
  have live : session.live = [(131152, 100), (65616, 64)] := by decide +kernel
  have separate := reachable.categories_separate.1
  exact ⟨live, by decide +kernel, separate,
    separate.reallocate .ordinary fits (65616, 64) (by rw [live]; decide) 200 false⟩

end PagedAlloc.SegregatedList.Session
