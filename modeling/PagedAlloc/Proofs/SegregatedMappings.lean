import PagedAlloc.Proofs.Accounts
import PagedAlloc.Proofs.CategoryMappings
import PagedAlloc.Proofs.FaultFreedom

/-!
# Mappings of a segregated list

The mappings of a segregated list are the chunks of its categories. Every call accounts for them,
whether it succeeds, fails or is stopped by a fault, so along every session the chunks are just what
was obtained and not given back (`Session.History.conserves`). Trimming gives back no byte of a live
payload (`Session.Sound.trim_spares`), and once a list was given back nothing is left
(`Session.History.closes`).
-/

namespace PagedAlloc.SegregatedList

variable {paging : Size.Paging}

open Procedure Owner

/-- The chunks of all categories as mappings. -/
def mappings (list : SegregatedList) : Multiset Mapping :=
  ∑ index, (list.category index).chunks.mappings Chunk.size

/-- The chunks of every category are mappings, and those of different ones lie apart. -/
structure Mapped [Size.Paging] (machine : Machine) (list : SegregatedList) : Prop where
  category : ∀ index : Fin categoryCount, (list.category index).Mapped machine
  apart : ∀ i j : Fin categoryCount, i ≠ j → ∀ p ∈ (list.category i).chunks.mappings Chunk.size,
    p.holding.Avoids ((list.category j).chunks.mappings Chunk.size)

/-- A segregated list owns the chunks of its categories. -/
def owner [Size.Paging] : Owner SegregatedList where
  mappings := mappings
  Good := Mapped
  of_log log h := ⟨fun index => Category.owner.of_log log (h.category index), h.apart⟩

variable {environment : Environment} {machine machine' : Machine} {list after : SegregatedList}

/-! ## Operations of a list -/

/-- What one category does accounts for the mappings of all of them. -/
theorem keeps_onCategory {α : Type} (index : Fin categoryCount)
    {procedure : Procedure (Machine × Category) α} (h : Follows Category.owner.Keeps procedure) :
    Follows owner.Keeps (onCategory index procedure) := by
  refine ⟨fun environment state good => ?_⟩
  obtain ⟨machine, list⟩ := state
  have good : Mapped machine list := good
  have hkeeps := h.holds environment (machine, list.category index) (good.category index)
  rw [onCategory, within]
  rcases hrun : procedure environment (machine, list.category index) with
    ⟨result, machine', category⟩
  rw [hrun] at hkeeps
  obtain ⟨hgood, haccounted⟩ := hkeeps
  -- to the category that runs, the chunks of the other ones are regions of others
  have hspared : ∀ other, other ≠ index →
      ∀ mapping ∈ (list.category other).chunks.mappings Chunk.size,
        mapping.holding ∈ machine'.ledger ∧
          mapping.holding.Avoids (category.chunks.mappings Chunk.size) := fun other hne mapping hmem =>
    haccounted.spares _ ((good.category other).chunks.held mapping hmem)
      (good.apart other index hne mapping hmem)
  refine ⟨⟨forall_withCategory (fun _ category => category.Mapped machine') hgood fun other hne =>
    ⟨(good.category other).chunks.of_held fun mapping hmem => (hspared other hne mapping hmem).1,
      (good.category other).whole⟩, fun i j hne p hp q hq => ?_⟩, ?_⟩
  · by_cases hi : i = index <;> by_cases hj : j = index
    · exact absurd (hi.trans hj.symm) hne
    · subst hi
      rw [category_withCategory_self] at hp
      rw [category_withCategory_ne list hj] at hq
      exact ((hspared j hj q hq).2 p hp).symm
    · subst hj
      rw [category_withCategory_ne list hi] at hp
      rw [category_withCategory_self] at hq
      exact (hspared i hi p hp).2 q hq
    · rw [category_withCategory_ne list hi] at hp
      rw [category_withCategory_ne list hj] at hq
      exact good.apart i j hne p hp q hq
  · obtain ⟨rest, hbefore, hafter⟩ := exists_sum_withCategory
      (fun category => category.chunks.mappings Chunk.size) list index
    show Accounted machine machine' (mappings list) (mappings (list.withCategory index category))
    rw [mappings, mappings, hbefore, hafter]
    exact haccounted.add rest

/-- A write maps and unmaps nothing. -/
theorem keeps_write (address offset : Nat) (content : Stretch BlockHeader) :
    Follows owner.Keeps (write address offset content) := by
  refine keeps_bind keeps_own fun list => ?_
  split
  · exact keeps_stop _
  · exact keeps_onCategory _ (Category.keeps_updateChunk _ fun _ => .pure rfl)

/-- An allocation accounts for the chunk that it may map, whether or not the payload is zeroed. -/
theorem keeps_allocate (size : Nat) (zero : Bool) : Follows owner.Keeps (allocate size zero) := by
  refine keeps_bind (keeps_orFail ..) fun size =>
    keeps_bind (keeps_onCategory _ (Category.keeps_allocate size)).attempt fun result => ?_
  cases result with
  | error failure => exact keeps_bind (keeps_note ⟨rfl, rfl⟩) fun _ => keeps_stop _
  | ok ref =>
    have hend : Follows owner.Keeps (do
        note (.allocated (categoryFor size) size ref.payload)
        return ref.payload) := keeps_bind (keeps_note ⟨rfl, rfl⟩) fun _ => keeps_pure _
    cases zero with
    | false => exact hend
    | true =>
      exact keeps_bind (keeps_onCategory _ (Category.keeps_header ref)) fun _ =>
        keeps_bind (keeps_write ..) fun _ => hend

theorem keeps_free (address : Nat) : Follows owner.Keeps (free address) := by
  refine keeps_bind keeps_own fun list => keeps_bind (keeps_checked _) fun found =>
    keeps_bind (keeps_checked _) fun index => ?_
  split
  · exact keeps_bind (keeps_ensure _) fun _ => keeps_bind (keeps_note ⟨rfl, rfl⟩) fun _ =>
      keeps_onCategory _ (Category.keeps_free _)
  · exact keeps_stop _

/-- Resizing in place maps and unmaps nothing. -/
theorem keeps_resizeInPlace (index : Fin categoryCount) (ref : BlockRef) (old size : Nat)
    (zero : Bool) : Follows owner.Keeps (resizeInPlace index ref old size zero) := by
  rw [resizeInPlace]
  split
  · exact keeps_bind (keeps_onCategory _ (Category.keeps_shrink ..)) fun _ => keeps_pure _
  refine keeps_bind (keeps_onCategory _ (Category.keeps_grow ..)) fun grown => ?_
  cases grown with
  | false => exact keeps_pure _
  | true =>
    cases zero with
    | false => exact keeps_pure _
    | true =>
      exact keeps_bind (keeps_onCategory _ (Category.keeps_header ref)) fun _ =>
        keeps_bind (keeps_checked _) fun _ => keeps_bind (keeps_write ..) fun _ => keeps_pure _

/-- A move accounts for the chunk that it may map for the new payload. -/
theorem keeps_move (address old size : Nat) (zero : Bool) :
    Follows owner.Keeps (move address old size zero) := by
  refine keeps_bind (keeps_allocate ..) fun target => keeps_bind keeps_own fun list =>
    keeps_bind (keeps_checked _) fun usable => keeps_bind keeps_own fun list =>
    keeps_bind (keeps_checked _) fun content => keeps_bind (keeps_write ..) fun _ => ?_
  have hend : Follows owner.Keeps (do
      note (.contentsMoved (min old size) address target)
      free address
      return target) :=
    keeps_bind (keeps_note ⟨rfl, rfl⟩) fun _ => keeps_bind (keeps_free _) fun _ => keeps_pure _
  cases zero with
  | false => exact hend
  | true =>
    exact keeps_bind (keeps_checked _) fun _ => keeps_bind (keeps_write ..) fun _ => hend

/-- A reallocation accounts for its chunks, in place or by a move. -/
theorem keeps_reallocate (address : Option Nat) (size : Nat) (zero : Bool) :
    Follows owner.Keeps (reallocate address size zero) := by
  cases address with
  | none => exact keeps_allocate ..
  | some address =>
    refine keeps_bind (keeps_orFail ..) fun size => keeps_bind keeps_own fun list =>
      keeps_bind (keeps_checked _) fun found => keeps_bind (keeps_checked _) fun present => ?_
    dsimp only
    split
    · refine keeps_bind (keeps_resizeInPlace ..) fun done => ?_
      cases done with
      | true => exact keeps_pure _
      | false => exact keeps_move ..
    · exact keeps_move ..

/-- What each category accounts for, the list does. -/
theorem keeps_sumOver {procedure : Procedure (Machine × Category) Nat}
    (h : Follows Category.owner.Keeps procedure) (indices : List (Fin categoryCount)) :
    Follows owner.Keeps (sumOver procedure indices) := by
  induction indices with
  | nil => exact keeps_pure _
  | cons index rest ih =>
    exact keeps_bind (keeps_onCategory index h) fun _ => keeps_bind ih fun _ => keeps_checked _

/-- What each category accounts for, the list does. -/
theorem keeps_onEach {procedure : Procedure (Machine × Category) Unit}
    (h : Follows Category.owner.Keeps procedure) (indices : List (Fin categoryCount)) :
    Follows owner.Keeps (onEach procedure indices) := by
  induction indices with
  | nil => exact keeps_pure _
  | cons index rest ih => exact keeps_bind (keeps_onCategory index h) fun _ => ih

theorem keeps_release : Follows owner.Keeps release := keeps_onEach Category.keeps_release _

/-- Every call accounts for the mappings, whatever comes of it. -/
theorem Call.keeps (call : Call) : Follows owner.Keeps call.run := by
  cases call with
  | allocate size zero => exact keeps_map (keeps_allocate ..) _
  | reallocate address size zero => exact keeps_map (keeps_reallocate ..) _
  | free address => exact keeps_map (keeps_free _) _
  | clear => exact keeps_map (keeps_onEach Category.keeps_clear _) _
  | trim => exact keeps_map (keeps_sumOver Category.keeps_trim _) _
  | write address offset content => exact keeps_map (keeps_write ..) _

/-! ## What goes back -/

theorem mappings_empty : mappings empty = 0 :=
  Finset.sum_eq_zero fun index _ => by
    rw [SegregatedList.category, empty]
    simp only [Fin.getElem_fin, Vector.getElem_ofFn]
    exact Chain.mappings_empty _

/-- The chunks of a sound list are mapped. -/
theorem Sound.mapped (h : Sound machine list) : Mapped machine list := by
  refine ⟨fun index => (h.sound index).mapped, fun i j hne p hp q hq => ?_⟩
  obtain ⟨entry, hentry, rfl⟩ := List.mem_map.1 (Multiset.mem_coe.1 hp)
  obtain ⟨other, hother, rfl⟩ := List.mem_map.1 (Multiset.mem_coe.1 hq)
  exact h.apart i j hne entry hentry other hother

/-- Trimming gives back chunks without a block in use only. -/
theorem Sound.sumOver_trim_returned (h : Sound machine list) {indices : List (Fin categoryCount)}
    (distinct : indices.Nodup) (environment : Environment) {mapping : Mapping}
    (hmem : mapping ∈ returned
      ((sumOver Category.trim indices environment (machine, list)).2.1.since machine)) :
    ∃ index ∈ indices, ∃ chunk, (mapping.address, chunk) ∈ (list.category index).chunks.toList ∧
      chunk.size = mapping.length ∧ Category.Idle (mapping.address, chunk) := by
  induction indices generalizing machine list with
  | nil => simp [sumOver, Machine.since, returned] at hmem
  | cons index rest ih =>
    obtain ⟨hfirst, hrest⟩ := List.nodup_cons.1 distinct
    obtain ⟨result, middle, state, hrun, hsound, hevolves, -, -⟩ :=
      (h.sound index).trim environment
    obtain ⟨hrun', hsound', -⟩ := h.onCategory index hrun hsound hevolves
    have hhere : mapping ∈ returned (middle.since machine) → ∃ i ∈ index :: rest, ∃ chunk,
        (mapping.address, chunk) ∈ (list.category i).chunks.toList ∧ chunk.size = mapping.length ∧
          Category.Idle (mapping.address, chunk) := fun hreturned =>
      ⟨index, List.mem_cons_self .., (h.sound index).trim_returned environment (by rwa [hrun])⟩
    rw [sumOver] at hmem
    cases result with
    | error reason =>
      rw [bind_apply_error _ _ hrun'] at hmem
      exact hhere hmem
    | ok here =>
      have hlog := (Category.keeps_trim.holds environment (machine, list.category index)
        (h.sound index).mapped).2.log
      have hlog' := ((keeps_sumOver Category.keeps_trim rest).holds environment
        (middle, list.withCategory index state) hsound'.mapped).2.log
      rw [hrun] at hlog
      -- the events of the other categories come after those of the first one
      have hstate : ((sumOver Category.trim rest >>= fun others => checked (Size.add here others))
          environment (middle, list.withCategory index state)).2 =
            (sumOver Category.trim rest environment (middle, list.withCategory index state)).2 := by
        rcases hothers : sumOver Category.trim rest environment
          (middle, list.withCategory index state) with ⟨reason | others, last⟩
        · rw [bind_apply_error _ _ hothers]
        · rw [bind_apply_ok _ _ hothers]
          cases Size.add here others <;> rfl
      rw [bind_apply_ok _ _ hrun', hstate, Machine.since_trans hlog hlog', returned_append,
        Multiset.mem_add] at hmem
      refine hmem.elim (fun hlater => ?_) hhere
      obtain ⟨i, hin, chunk, hchunk, hrest⟩ := ih hsound' hrest hlater
      rw [category_withCategory_ne list (ne_of_mem_of_not_mem hin hfirst)] at hchunk
      exact ⟨i, List.mem_cons_of_mem _ hin, chunk, hchunk, hrest⟩

/-- Giving back the chunks of some categories leaves none of them, if it succeeds. -/
theorem onEach_release_ok (good : Mapped machine list) {indices : List (Fin categoryCount)}
    (distinct : indices.Nodup)
    (hrun : onEach Category.release indices environment (machine, list) =
      (.ok (), machine', after)) :
    (∀ index ∈ indices, (after.category index).chunks.toList = []) ∧
      ∀ index, index ∉ indices → after.category index = list.category index := by
  induction indices generalizing machine list with
  | nil =>
    cases hrun
    exact ⟨by simp, fun _ _ => rfl⟩
  | cons index rest ih =>
    obtain ⟨hfirst, hrest⟩ := List.nodup_cons.1 distinct
    have hkeeps := (keeps_onCategory index Category.keeps_release).holds environment
      (machine, list) good
    rw [onEach] at hrun
    obtain ⟨_, ⟨middle, between⟩, hone, hrun⟩ := bind_ok hrun
    rcases hrelease : Category.release environment (machine, list.category index) with
      ⟨result, machine₁, state⟩
    rw [onCategory_apply hrelease] at hone hkeeps
    cases hone
    -- what is given back later does not touch this category again
    obtain ⟨hempty, hothers⟩ := ih hkeeps.1 hrest hrun
    refine ⟨fun other hother => ?_, fun other hother => ?_⟩
    · by_cases heq : other = index
      · rw [heq, hothers index hfirst, category_withCategory_self]
        exact (good.category index).release_ok hrelease
      · exact hempty other ((List.mem_cons.1 hother).resolve_left heq)
    · rw [List.mem_cons, not_or] at hother
      rw [hothers other hother.2, category_withCategory_ne list hother.1]

/-- A list that was given back without an error has no mapping left. -/
theorem release_ok (good : Mapped machine list)
    (hrun : release environment (machine, list) = (.ok (), machine', after)) :
    after.mappings = 0 := by
  obtain ⟨hempty, -⟩ := onEach_release_ok good (List.nodup_finRange categoryCount) hrun
  refine Finset.sum_eq_zero fun index _ => ?_
  rw [Chain.mappings, hempty index (List.mem_finRange index)]
  rfl

/-! ## Sessions -/

namespace Session

/-- Sessions with the events of their calls, the latest first. What others do in between is not
theirs. -/
inductive History [Size.Paging] : List Event → Session → Prop where
  | start (machine : Machine) : History [] ⟨machine, .empty, []⟩
  | step {history : List Event} {session : Session} (before : History history session)
      (environment : Environment) (fits : environment.FitsAddresses) (call : Call)
      (allowed : call.Allowed session) :
      History ((session.after environment call).machine.since session.machine ++ history)
        (session.after environment call)
  | others {history : List Event} {session : Session} {machine : Machine}
      (before : History history session)
      (held : session.list.StaysMapped session.machine machine) :
      History history { session with machine := machine }

/-- No mapping that is given back in some events has a byte of a live payload. -/
def Spares (session : Session) (events : List Event) : Prop :=
  ∀ mapping ∈ returned events, ∀ address ∈ session.live.map Prod.fst,
    ∃ usable, session.list.usableSize address = .ok usable ∧
      (address + usable ≤ mapping.address ∨ mapping.address + mapping.length ≤ address)

variable {session : Session} {history : List Event}

/-- A history is a session with its mappings written down. -/
theorem History.reachable (h : History history session) : session.Reachable := by
  induction h with
  | start machine => exact .start machine
  | step before environment fits call allowed ih => exact ih.step environment fits call allowed
  | others before held ih => exact ih.others held

/-- Along every session the open mappings are the chunks. -/
theorem History.conserves (h : History history session) :
    Conserves history session.list.mappings := by
  induction h with
  | start machine =>
    rw [mappings_empty]
    exact ⟨rfl, by simp⟩
  | @step history session before environment fits call allowed ih =>
    have hkeeps := call.keeps.holds environment (session.machine, session.list)
      before.reachable.sound.list.mapped
    rw [← Session.turn_state session call.run (call.record session.live)] at hkeeps
    exact hkeeps.2.conserves ih
  | others before held ih => exact ih

/-- Whether giving the list back succeeds or is stopped, the open mappings are the chunks that are
left, and if it succeeds then everything was given back. -/
theorem History.closes (h : History history session) (environment : Environment) :
    let last := release environment (session.machine, session.list)
    Closes (last.2.1.since session.machine ++ history) last.1 last.2.2.mappings := by
  have good := h.reachable.sound.list.mapped
  have hkeeps := keeps_release.holds environment (session.machine, session.list) good
  exact (hkeeps.2.conserves h.conserves).closes fun hdone => release_ok good (Prod.ext hdone rfl)

/-- Trimming gives back no byte of a live payload. -/
theorem Sound.trim_spares (h : session.Sound) (environment : Environment) :
    session.Spares
      ((trim environment (session.machine, session.list)).2.1.since session.machine) := by
  intro mapping hmem address hlive
  obtain ⟨ref, index, usable, rfl, huses⟩ := h.exists_uses hlive
  obtain ⟨i, -, chunk, hchunk, hlength, hidle⟩ :=
    h.list.sumOver_trim_returned (List.nodup_finRange categoryCount) environment hmem
  obtain ⟨holder, hholder, -, hend⟩ := h.list.uses_bounds huses
  refine ⟨usable, h.list.usableSize_eq huses, ?_⟩
  by_cases hapart : Chunk.Apart (ref.chunk, holder) (mapping.address, chunk)
  · simp only [Chunk.Apart] at hapart
    rw [BlockRef.payload]
    omega
  · -- a chunk without a block in use would hold this block
    obtain ⟨rfl, heq⟩ := h.list.eq_of_overlap hholder hchunk hapart
    obtain ⟨used, hused, hspot⟩ := huses
    obtain ⟨hplace, rfl⟩ := Prod.mk.inj heq
    obtain rfl := (h.list.sound index).sequence.mem_unique hused hholder
    rw [hplace] at hspot
    exact absurd hspot (hidle.not_used _ _)

end Session

end PagedAlloc.SegregatedList
