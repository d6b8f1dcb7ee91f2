import PagedAlloc.Proofs.FixedSessions
import PagedAlloc.Proofs.Ledger
import PagedAlloc.Proofs.Mappings

/-!
# Mappings of a fixed list

The mappings of a fixed list are the chunks of its chain. Making a list, every call and giving the
list back account for them, whatever comes of it, so along every session the chunks are just what
was obtained and not given back (`Session.History.conserves`). A list that cannot be made keeps
nothing (`Makes.conserves_error`). On a kernel that takes every live mapping back a list can be
given back (`Session.History.release`), and then nothing is left (`Session.History.closes`).
-/

namespace PagedAlloc

variable {paging : Size.Paging}

/-! ## Lengths of chunks -/

namespace FixedChunk

/-- A chunk of which a block is taken is as long as it was. -/
theorem size_take (chunk : FixedChunk) (address offset blockSize : Nat) :
    Gives (chunk.take address offset blockSize) fun taken => taken.size = chunk.size := by
  rw [take]
  split
  · exact .error ..
  · exact .pure rfl

end FixedChunk

namespace FixedList

open Procedure Owner

/-- The chunks of a list as mappings. -/
def mappings (list : FixedList) : Multiset Mapping := list.chunks.mappings FixedChunk.size

/-- The chunks of a list are mappings of whole pages, and chunks to come are whole pages too. -/
structure Mapped [Size.Paging] (machine : Machine) (list : FixedList) : Prop where
  chunks : list.chunks.Mapped FixedChunk.size machine
  whole : Size.pageSize ∣ list.chunkSize

/-- A fixed list owns its chunks. -/
def owner [Size.Paging] : Owner FixedList where
  mappings := mappings
  Good := Mapped
  of_log _ h := ⟨h.chunks.of_held h.chunks.held, h.whole⟩

variable {environment : Environment} {machine machine' : Machine} {list after : FixedList}
  {address : Nat} {chunk : FixedChunk}

/-! ## Operations of a list -/

/-- What changes a chunk and not its length accounts for the mappings. -/
theorem keeps_updateChunk (address : Nat) {step : FixedChunk → Except Fault FixedChunk}
    (same : ∀ chunk, Gives (step chunk) fun changed => changed.size = chunk.size) :
    Follows owner.Keeps (updateChunk address step) := by
  refine ⟨fun environment state good => ?_⟩
  obtain ⟨machine, list⟩ := state
  cases hfound : list.chunks.get? address with
  | none =>
    rw [updateChunk, bind_apply_ok _ _ (own_apply ..)]
    simp only [hfound]
    exact Keeps.refl _ good
  | some chunk =>
    cases hstep : step chunk with
    | error fault =>
      rw [updateChunk, bind_apply_ok _ _ (own_apply ..)]
      simp only [hfound, hstep]
      exact Keeps.refl _ good
    | ok changed =>
      obtain ⟨hchunks, hmappings⟩ := good.chunks.put hfound ((same chunk).holds hstep)
      have hsame : (list.changed address changed list.inUse).mappings = list.mappings := hmappings
      rw [updateChunk_eq step hfound hstep]
      exact ⟨⟨hchunks, good.whole⟩, (Accounted.refl machine _).of_eq hsame⟩

/-- A chunk is chained just if it was mapped. -/
theorem keeps_extend : Follows owner.Keeps extend := by
  refine ⟨fun environment state good => ?_⟩
  obtain ⟨machine, list⟩ := state
  have good : Mapped machine list := good
  obtain ⟨_, middle, -, ⟨-, hrefused, hrun⟩ | ⟨start, -, hgranted, hrun⟩⟩ :=
    extend_cases good.whole environment machine
  · rw [hrun]
    exact ⟨⟨good.chunks.of_held (hrefused.ledger ▸ good.chunks.held), good.whole⟩,
      hrefused.accounted _⟩
  · obtain ⟨hchunks, hmappings⟩ := good.chunks.append list.fresh hgranted good.whole
    let chained : FixedList := { list with chunks := list.chunks.append start list.fresh }
    have hobtained : owner.Keeps (machine, list) (middle, chained) := fun _ =>
      ⟨⟨hchunks, good.whole⟩, (hgranted.accounted good.whole _).of_eq hmappings⟩
    rw [hrun]
    exact hobtained.trans ((keeps_note ⟨rfl, rfl⟩).holds environment (middle, chained)) good

theorem keeps_take (address offset : Nat) : Follows owner.Keeps (take address offset) :=
  keeps_bind keeps_own fun _ =>
    keeps_bind (keeps_updateChunk _ fun chunk => chunk.size_take ..) fun _ =>
    keeps_bind (keeps_modifyOwn fun _ _ good => ⟨⟨good.chunks, good.whole⟩, rfl⟩) fun _ =>
      keeps_pure _

/-- An allocation accounts for the chunk that it may chain. -/
theorem keeps_allocate (size : Nat) : Follows owner.Keeps (allocate size) := by
  have hend : ∀ chunk offset, Follows owner.Keeps (do
      let address ← take chunk offset
      note (.fixedTaken address)
      return address) := fun _ _ =>
    keeps_bind (keeps_take ..) fun _ => keeps_bind (keeps_note ⟨rfl, rfl⟩) fun _ => keeps_pure _
  refine keeps_bind keeps_own fun list => ?_
  split
  · exact keeps_stop _
  dsimp only
  split
  · exact keeps_bind (keeps_pure _) fun _ => hend ..
  · split
    · exact keeps_bind keeps_extend fun _ => keeps_bind (keeps_pure _) fun _ => hend ..
    · exact keeps_bind (keeps_note ⟨rfl, rfl⟩) fun _ => keeps_bind (keeps_stop _) fun _ => hend ..

/-- Giving a block back leaves the mappings alone. -/
theorem keeps_free (address : Nat) : Follows owner.Keeps (free address) := by
  refine keeps_bind keeps_own fun list => ?_
  split
  · exact keeps_stop _
  · exact keeps_bind (keeps_ensure _) fun _ => keeps_bind (keeps_ensure _) fun _ =>
      keeps_bind (keeps_updateChunk _ fun _ => .pure rfl) fun _ =>
      keeps_bind (keeps_checked _) fun _ => keeps_bind (keeps_modifyOwn fun _ _ good =>
        ⟨⟨good.chunks, good.whole⟩, rfl⟩) fun _ => keeps_note ⟨rfl, rfl⟩

theorem keeps_clear : Follows owner.Keeps clear := by
  have heach : ∀ addresses, Follows owner.Keeps (freeEach addresses) := by
    intro addresses
    induction addresses with
    | nil => exact keeps_pure _
    | cons address rest ih => exact keeps_bind (keeps_updateChunk _ fun _ => .pure rfl) fun _ => ih
  exact keeps_bind keeps_own fun _ => keeps_bind (heach _) fun _ =>
    keeps_modifyOwn fun _ _ good => ⟨⟨good.chunks, good.whole⟩, rfl⟩

theorem keeps_write (address offset : Nat) (content : Stretch FreeLink) :
    Follows owner.Keeps (write address offset content) := by
  refine keeps_bind keeps_own fun list => ?_
  split
  · exact keeps_stop _
  · exact keeps_updateChunk _ fun _ => .pure rfl

/-- Every call accounts for the mappings, whatever comes of it. -/
theorem Call.keeps (call : Call) : Follows owner.Keeps call.run := by
  cases call with
  | allocate size => exact keeps_map (keeps_allocate _) _
  | free address => exact keeps_map (keeps_free _) _
  | clear => exact keeps_map keeps_clear _
  | write address offset content => exact keeps_map (keeps_write ..) _

/-! ## Giving everything back -/

/-- A chunk that is given back, maybe in vain, is out of the chain. -/
theorem Mapped.unmap (h : Mapped machine list) (hmem : (address, chunk) ∈ list.chunks.toList)
    {result : Except Stop Unit}
    (hrun : Pages.unmap address chunk.size environment machine = (result, machine')) :
    let rest : FixedList := { list with chunks := list.chunks.remove address }
    Mapped machine' rest ∧ Accounted machine machine' list.mappings rest.mappings := by
  obtain ⟨hchunks, haccounted⟩ := h.chunks.unmap hmem hrun
  exact ⟨⟨hchunks, h.whole⟩, haccounted⟩

/-- Chunks are given back one after the other. -/
theorem releaseEach_cons (found : list.chunks.get? address = some chunk) (rest : List Nat)
    (environment : Environment) (machine : Machine) :
    releaseEach (address :: rest) environment (machine, list) =
      match Pages.unmap address chunk.size environment machine with
      | (.ok _, after) =>
        releaseEach rest environment (after, { list with chunks := list.chunks.remove address })
      | (.error reason, after) =>
        (.error reason, after, { list with chunks := list.chunks.remove address }) := by
  rw [releaseEach, bind_apply_ok _ _ (own_apply ..)]
  simp only [found]
  rw [bind_apply_ok _ _ (modifyOwn_apply ..)]
  rcases hunmap : Pages.unmap address chunk.size environment machine with ⟨reason | _, after⟩
  · rw [bind_apply_error _ _ (ask_apply _ hunmap _)]
  · rw [bind_apply_ok _ _ (ask_apply _ hunmap _)]

/-- Giving several chunks back accounts for each of them. -/
theorem keeps_releaseEach (addresses : List Nat) : Follows owner.Keeps (releaseEach addresses) := by
  induction addresses with
  | nil => exact keeps_pure _
  | cons address rest ih =>
    refine ⟨fun environment state good => ?_⟩
    obtain ⟨machine, list⟩ := state
    have good : Mapped machine list := good
    cases hfound : list.chunks.get? address with
    | none =>
      rw [releaseEach, bind_apply_ok _ _ (own_apply ..)]
      simp only [hfound]
      exact Keeps.refl _ good
    | some chunk =>
      rw [releaseEach_cons hfound]
      rcases hunmap : Pages.unmap address chunk.size environment machine with ⟨reason | _, middle⟩
      all_goals
        have hreturned : owner.Keeps (machine, list)
            (middle, { list with chunks := list.chunks.remove address }) := fun _ =>
          good.unmap (good.chunks.sequence.get?_eq_some_iff.1 hfound) hunmap
      · exact hreturned good
      · exact hreturned.trans (ih.holds environment _) good

theorem keeps_release : Follows owner.Keeps release :=
  keeps_bind keeps_own fun _ => keeps_bind (keeps_note ⟨rfl, rfl⟩) fun _ => keeps_releaseEach _

/-- If giving back all chunks succeeds, then none is left. -/
theorem Mapped.releaseEach_ok (h : Mapped machine list) {addresses : List Nat}
    (all : ∀ entry ∈ list.chunks.toList, entry.1 ∈ addresses)
    (hrun : releaseEach addresses environment (machine, list) = (.ok (), machine', after)) :
    after.chunks.toList = [] := by
  induction addresses generalizing machine list with
  | nil =>
    cases hrun
    exact List.eq_nil_iff_forall_not_mem.2 fun entry hentry => List.not_mem_nil (all entry hentry)
  | cons address rest ih =>
    cases hfound : list.chunks.get? address with
    | none =>
      rw [releaseEach, bind_apply_ok _ _ (own_apply ..)] at hrun
      simp only [hfound] at hrun
      cases hrun
    | some chunk =>
      have hmem := h.chunks.sequence.get?_eq_some_iff.1 hfound
      rw [releaseEach_cons hfound] at hrun
      rcases hunmap : Pages.unmap address chunk.size environment machine with ⟨reason | _, middle⟩
      all_goals rw [hunmap] at hrun
      · cases hrun
      · refine ih (h.unmap hmem hunmap).1 (fun entry hentry => ?_) hrun
        obtain ⟨hother, hold⟩ := (h.chunks.sequence.mem_remove_iff hmem).1 hentry
        exact (List.mem_cons.1 (all entry hold)).resolve_left hother

/-- A kernel that takes every live mapping back takes the chunks back. -/
theorem Mapped.releaseEach (h : Mapped machine list) (hunmaps : environment.UnmapsLive)
    {addresses : List Nat} (distinct : addresses.Nodup)
    (hin : ∀ address ∈ addresses, ∃ chunk, (address, chunk) ∈ list.chunks.toList) :
    ∃ machine' after, FixedList.releaseEach addresses environment (machine, list) =
      (.ok (), machine', after) := by
  induction addresses generalizing machine list with
  | nil => exact ⟨_, _, rfl⟩
  | cons address rest ih =>
    obtain ⟨hfirst, hrest⟩ := List.nodup_cons.1 distinct
    obtain ⟨chunk, hmem⟩ := hin address (List.mem_cons_self ..)
    have hopen := Chain.mem_mappings FixedChunk.size hmem
    obtain ⟨middle, hunmap, -⟩ := Pages.unmap_ok machine (h.chunks.whole _ hopen).2
      (hunmaps _ _ _ (h.chunks.held _ hopen))
    rw [releaseEach_cons (h.chunks.sequence.get?_eq_some_iff.2 hmem), hunmap]
    refine ih (h.unmap hmem hunmap).1 hrest fun place hplace => ?_
    obtain ⟨other, hother⟩ := hin place (List.mem_cons_of_mem _ hplace)
    exact ⟨other, (h.chunks.sequence.mem_remove_iff hmem).2
      ⟨ne_of_mem_of_not_mem hplace hfirst, hother⟩⟩

/-- Giving everything back is giving back the chunks at the addresses of the chain. -/
theorem release_apply (environment : Environment) (machine : Machine) (list : FixedList) :
    FixedList.release environment (machine, list) =
      FixedList.releaseEach list.chunks.addresses environment
        ({ machine with log := .fixedReleasing list.chunks.length list.chunkSize :: machine.log },
          list) := by
  rw [FixedList.release, bind_apply_ok _ _ (own_apply ..), bind_apply_ok _ _ (note_apply ..)]

/-- A list that was given back has no mapping left. -/
theorem Mapped.release_ok (h : Mapped machine list)
    (hrun : FixedList.release environment (machine, list) = (.ok (), machine', after)) :
    after.mappings = 0 := by
  rw [release_apply] at hrun
  have hempty := (owner.of_log _ h).releaseEach_ok
    (fun entry hentry => List.mem_map.2 ⟨entry, hentry, rfl⟩) hrun
  rw [mappings, Chain.mappings, hempty]
  rfl

theorem Mapped.release (h : Mapped machine list) (hunmaps : environment.UnmapsLive) :
    ∃ machine' after, FixedList.release environment (machine, list) =
      (.ok (), machine', after) := by
  rw [release_apply]
  refine (owner.of_log _ h).releaseEach hunmaps h.chunks.sequence.distinct
    fun address haddress => ?_
  obtain ⟨entry, hentry, rfl⟩ := List.mem_map.1 haddress
  exact ⟨entry.2, hentry⟩

/-! ## Making a list -/

section Making

variable {config : FixedConfig}

/-- A planned list has no mapping yet. -/
theorem mapped_plan (hplan : plan config = .ok list) (machine : Machine) :
    Mapped machine list ∧ list.mappings = 0 := by
  obtain ⟨-, -, hwhole, -, hchunks, -⟩ := plan_cases hplan
  have hnone : list.mappings = 0 := by
    rw [mappings, hchunks]
    exact Chain.mappings_empty _
  exact ⟨⟨hchunks ▸ Chain.mapped_empty _ machine, hwhole⟩, hnone⟩

/-- A list that was made accounts for its mappings. -/
theorem mapped_ofConfig (hrun : ofConfig config environment machine = (.ok list, machine')) :
    Mapped machine' list ∧ Accounted machine machine' 0 list.mappings := by
  rw [ofConfig] at hrun
  cases hplan : plan config with
  | error failure =>
    rw [hplan] at hrun
    cases hrun
  | ok planned =>
    obtain ⟨hmapped, hnone⟩ := mapped_plan hplan machine
    have hkeeps := keeps_extend.holds environment (machine, planned) hmapped
    simp only [hplan, making, cleanedBy] at hrun
    rcases hextend : extend environment (machine, planned) with ⟨reason | start, middle, between⟩
    all_goals
      rw [hextend] at hrun hkeeps
      cases hrun
    exact ⟨hkeeps.1, hnone ▸ hkeeps.2⟩

/-- A list that cannot be made leaves no mapping open. -/
theorem conserves_ofConfig_error {reason : Stop}
    (hrun : ofConfig config environment machine = (.error reason, machine')) :
    Conserves (machine'.since machine) 0 := by
  suffices haccounted : Accounted machine machine' 0 0 from haccounted.conserves_since
  rw [ofConfig] at hrun
  cases hplan : plan config with
  | error failure =>
    rw [hplan] at hrun
    cases hrun
    exact .refl ..
  | ok planned =>
    obtain ⟨-, -, hwhole, -, hchunks, -⟩ := plan_cases hplan
    simp only [hplan, making, cleanedBy] at hrun
    obtain ⟨_, middle, -, ⟨-, hrefused, hextend⟩ | ⟨start, -, -, hextend⟩⟩ :=
      extend_cases hwhole environment machine
    all_goals
      rw [hextend] at hrun
      cases hrun
    -- nothing was chained, so there is nothing to give back
    have haddresses : planned.chunks.addresses = [] := by
      rw [hchunks]
      rfl
    show Accounted machine (release environment (middle, planned)).2.1 0 0
    rw [release_apply, haddresses]
    exact (hrefused.accounted 0).trans (.of_silent ⟨rfl, rfl⟩ middle 0)

/-- A size of blocks either is too large, or stands for a configuration whose chunks are large
enough for a block. -/
theorem ofBlockSize_cases (blockSize : Nat) (environment : Environment) (machine : Machine) :
    ofBlockSize blockSize environment machine = (.error (.failure .overflow), machine) ∨
      ∃ rounded, Size.pointerSize ∣ rounded ∧ blockSize ≤ rounded ∧
        ofBlockSize blockSize environment machine =
          ofConfig ⟨blockSize, max (max (FixedChunk.headerSize + rounded)
            (2 * FixedChunk.headerSize)) FixedConfig.defaultChunkSize, true⟩ environment machine := by
  rw [ofBlockSize]
  cases hround : Size.roundUp? blockSize Size.pointerSize with
  | none => exact Or.inl (bind_apply_error _ _ (orFail_none ..))
  | some rounded =>
    rw [bind_apply_ok _ _ (orFail_some ..), FixedChunk.minSize?, Size.add?]
    split
    · exact Or.inr ⟨rounded, Size.dvd_of_roundUp?_eq_some hround,
        Size.le_of_roundUp?_eq_some (by decide) hround, bind_apply_ok _ _ (orFail_some ..)⟩
    · exact Or.inl (bind_apply_error _ _ (orFail_none ..))

/-- The ways to make a list. -/
inductive Makes [Size.Paging] : Procedure Machine FixedList → Prop where
  | ofConfig (config : FixedConfig) : Makes (ofConfig config)
  | ofBlockSize (blockSize : Nat) : Makes (ofBlockSize blockSize)

variable {make : Procedure Machine FixedList}

/-- A list that was made has its one chunk mapped. -/
theorem Makes.mapped (h : Makes make) (hrun : make environment machine = (.ok list, machine')) :
    Mapped machine' list ∧ Accounted machine machine' 0 list.mappings := by
  cases h with
  | ofConfig config => exact mapped_ofConfig hrun
  | ofBlockSize blockSize =>
    obtain hlarge | ⟨rounded, -, -, hsame⟩ := ofBlockSize_cases blockSize environment machine
    · cases hlarge.symm.trans hrun
    · exact mapped_ofConfig (hsame.symm.trans hrun)

/-- A list that could not be made leaves nothing behind. -/
theorem Makes.conserves_error (h : Makes make) {reason : Stop}
    (hrun : make environment machine = (.error reason, machine')) :
    Conserves (machine'.since machine) 0 := by
  cases h with
  | ofConfig config => exact conserves_ofConfig_error hrun
  | ofBlockSize blockSize =>
    obtain hlarge | ⟨rounded, -, -, hsame⟩ := ofBlockSize_cases blockSize environment machine
    · cases hlarge.symm.trans hrun
      exact (Accounted.refl machine 0).conserves_since
    · exact conserves_ofConfig_error (hsame.symm.trans hrun)

end Making

/-! ## Sessions -/

namespace Session

/-- Sessions with the events of making the list and of the calls, the latest first. What others do
in between is not theirs, and others leave the chunks of the list alone. -/
inductive History [Size.Paging] : List Event → Session → Prop where
  | start {make : Procedure Machine FixedList} (makes : Makes make) {environment : Environment}
      {machine machine' : Machine} {list : FixedList}
      (made : make environment machine = (.ok list, machine')) :
      History (machine'.since machine) ⟨machine', list, []⟩
  | step {history : List Event} {session : Session} (before : History history session)
      (environment : Environment) (call : Call) (allowed : call.Allowed session) :
      History ((session.after environment call).machine.since session.machine ++ history)
        (session.after environment call)
  | others {history : List Event} {session : Session} {machine : Machine}
      (before : History history session)
      (held : session.list.StaysMapped session.machine machine) :
      History history { session with machine := machine }

variable {session : Session} {history : List Event}

/-- Along every session the open mappings are the chunks. -/
theorem History.mapped (h : History history session) :
    Mapped session.machine session.list ∧ Conserves history session.list.mappings := by
  induction h with
  | start makes made =>
    obtain ⟨hmapped, haccounted⟩ := makes.mapped made
    exact ⟨hmapped, haccounted.conserves_since⟩
  | @step history session before environment call allowed ih =>
    obtain ⟨hmapped, hconserves⟩ := ih
    have hkeeps := call.keeps.holds environment (session.machine, session.list) hmapped
    rw [← Session.turn_state session call.run (call.record session.live)] at hkeeps
    exact ⟨hkeeps.1, hkeeps.2.conserves hconserves⟩
  | others before held ih =>
    obtain ⟨hmapped, hconserves⟩ := ih
    exact ⟨⟨hmapped.chunks.of_stays held, hmapped.whole⟩, hconserves⟩

/-- Along every session the chunks are what was mapped and not yet given back. -/
theorem History.conserves (h : History history session) : Conserves history session.list.mappings :=
  h.mapped.2

/-- Whether giving the list back succeeds or is stopped, the open mappings are the chunks that are
left, and if it succeeds then everything was given back. -/
theorem History.closes (h : History history session) (environment : Environment) :
    let last := release environment (session.machine, session.list)
    Closes (last.2.1.since session.machine ++ history) last.1 last.2.2.mappings := by
  obtain ⟨hmapped, hconserves⟩ := h.mapped
  have hkeeps := keeps_release.holds environment (session.machine, session.list) hmapped
  exact (hkeeps.2.conserves hconserves).closes fun hdone =>
    hmapped.release_ok (Prod.ext hdone rfl)

/-- A kernel that takes every live mapping back lets the list be given back. -/
theorem History.release (h : History history session) {environment : Environment}
    (hunmaps : environment.UnmapsLive) :
    (FixedList.release environment (session.machine, session.list)).1 = .ok () := by
  obtain ⟨machine', after, hrun⟩ := h.mapped.1.release hunmaps
  rw [hrun]

end Session

end FixedList

end PagedAlloc
