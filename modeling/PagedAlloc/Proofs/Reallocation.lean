import PagedAlloc.Proofs.PayloadIntegrity

/-!
# Resizing a payload

A payload that is resized stays where it is, or moves within its category or to another one, and each
of these ways has its own ranges to copy and to zero. For the caller they are all the same
(`SegregatedList.Session.Reachable.reallocates`): the bytes that both sizes have are kept, the others
are zero on demand, and the counters follow the bytes that may be used. A resize that fails leaves
everything as it was.
-/

namespace PagedAlloc.SegregatedList

variable {paging : Size.Paging}

/-- What a caller may rely on when the payload at `address` was resized and is at `new` now. -/
structure Session.Reallocates (before : Session) (address request : Nat) (zero : Bool) (new : Nat)
    (after : Session) : Prop where
  live : (new, request) ∈ after.live
  moved : new ≠ address → address ∉ after.live.map Prod.fst ∧
    ∀ (index : Fin categoryCount) ref size, (after.list.category index).Uses ref size →
      ref.payload ≠ address
  bytes : ∃ size usable room, Block.payloadSize? request = some size ∧
    before.list.usableSize address = .ok usable ∧ after.list.usableSize new = .ok room ∧
    request ≤ room ∧
    ∑ index, (after.list.category index).usage.used + usable =
      ∑ index, (before.list.category index).usage.used + room ∧
    ∃ old cells, before.list.contents address = .ok old ∧ after.list.contents new = .ok cells ∧
      old.length = usable ∧ cells.length = room ∧
      (∀ x < min usable size, cells[x]? = old[x]?) ∧
      (zero = true → ∀ x, usable ≤ x → x < room → cells[x]? = some (.byte 0))

variable {environment : Environment} {machine machine' : Machine} {list after : SegregatedList}
  {index : Fin categoryCount} {ref : BlockRef} {size : Nat}

namespace Sound

/-- The contents of a payload are its cells, as many as may be used. -/
theorem contents_cells (h : Sound machine list) (huses : (list.category index).Uses ref size) :
    ∃ cells, list.contents ref.payload = .ok cells ∧ cells.length = size ∧
      ∀ x < size, cells[x]? = list.payloadCell? index ref x := by
  obtain ⟨content, hread, hlength, hcells⟩ := h.read_eq huses size
  refine ⟨content.cells, ?_, by rw [Stretch.length_cells, hlength], hcells⟩
  rw [contents, h.usableSize_eq huses]
  simp only [bind, Except.bind, hread, pure, Except.pure]

/-- Nobody has the address of a block that was moved away. -/
theorem ne_of_moved (h : Sound machine list) {zero : Bool} {old usable : Nat} {target : BlockRef}
    (huses : (list.category index).Uses ref old)
    (hresizes : Resizes list after size zero index ref old target usable)
    (hmoved : target.payload ≠ ref.payload) {i : Fin categoryCount} {other : BlockRef} {count : Nat}
    (hother : (after.category i).Uses other count) : other.payload ≠ ref.payload := by
  have hmem : (i, other, count) ∈ after.inUse := hother
  rw [hresizes.inUse] at hmem
  rcases hmem with heq | ⟨hold, hkept⟩
  · rw [show other = target from congrArg (fun block => block.2.1) heq]
    exact hmoved
  · exact fun heq => hkept (h.inUse_unique hold huses heq)

end Sound

/-- A resize that succeeds keeps the bytes that both sizes have, zeroes the others on demand, gives
the old address up where it answers another one, and is counted by the bytes that may be used. A
resize that fails leaves the list and the live addresses as they were. -/
theorem Session.Reachable.reallocates {session : Session} (h : session.Reachable)
    {environment : Environment} (fits : environment.FitsAddresses) {address : Nat}
    (live : address ∈ session.live.map Prod.fst) (request : Nat) (zero : Bool) :
    let answer := (SegregatedList.reallocate (some address) request zero environment
      (session.machine, session.list)).1
    let after := session.after environment (.reallocate (some address) request zero)
    (∀ new, answer = .ok new → session.Reallocates address request zero new after) ∧
      ∀ failure, answer = .error (.failure failure) →
        after.list = session.list ∧ after.live = session.live := by
  have hsound := h.sound
  obtain ⟨ref, index, usable, rfl, huses⟩ := hsound.exists_uses live
  obtain ⟨result, machine', list', hrun, hsound', hsupplied, -, hok⟩ :=
    hsound.list.reallocate fits huses request zero
  simp only [hrun]
  constructor
  · rintro new rfl
    obtain ⟨-, size, target, room, hsize, rfl, hresizes⟩ := hok new rfl
    obtain ⟨old, hold, hlength, hcells⟩ := hsound.list.contents_cells huses
    obtain ⟨cells, hnew, hlength', hcells'⟩ := hsound'.contents_cells hresizes.uses
    have henough := (valid_of_payloadSize?_eq_some hsize).1.trans hresizes.enough
    have hle := hresizes.enough
    rw [Session.after, Call.run, Session.turn_ok hrun]
    refine ⟨List.mem_cons_self .., fun hmoved => ⟨?_, fun i other count hother =>
      hsound.list.ne_of_moved huses hresizes hmoved hother⟩, size, usable, room, hsize,
      hsound.list.usableSize_eq huses, hsound'.usableSize_eq hresizes.uses, henough, hresizes.used,
      old, cells, hold, hnew, hlength, hlength', fun x hx => ?_, fun hzero x hx hlt => ?_⟩
    · -- the old address was taken off the record, and the new one is another
      refine List.not_mem_cons_of_ne_of_not_mem (Ne.symm hmoved) fun hmem => ?_
      obtain ⟨entry, hentry, heq⟩ := List.mem_map.1 hmem
      exact of_decide_eq_true (List.mem_filter.1 hentry).2 (congrArg some heq)
    · rw [hcells' x (by omega), hcells x (by omega)]
      exact hresizes.kept x hx
    · rw [hcells' x hlt]
      exact hresizes.zeroed hzero x hx hlt
  · rintro failure rfl
    rw [Session.after, Call.run, Session.turn_error hrun]
    exact ⟨(hsupplied.failed failure rfl).1, rfl⟩

end PagedAlloc.SegregatedList

namespace PagedAlloc.SegregatedList

attribute [local instance] Size.Paging.common

/-- A payload that was written to outgrows its category. -/
theorem reallocates_by_move :
    let session := (Session.after ⟨.fresh, .empty, []⟩ .ordinary (.allocate 64 true)).after
      .ordinary (.write 65616 0 (Stretch.ofBytes [1, 2, 3]))
    65616 ∈ session.live.map Prod.fst ∧
      (SegregatedList.reallocate (some 65616) 100 true .ordinary
        (session.machine, session.list)).1 = .ok 131152 ∧
      session.Reallocates 65616 100 true 131152
        (session.after .ordinary (.reallocate (some 65616) 100 true)) := by
  intro session
  have first := (Session.Reachable.start .fresh).step .ordinary
    Environment.ordinary_fitsAddresses (.allocate 64 true) trivial
  have second : session.Reachable := first.step .ordinary Environment.ordinary_fitsAddresses
    (.write 65616 0 (Stretch.ofBytes [1, 2, 3]))
    ⟨by decide +kernel, 64, by decide +kernel, by decide +kernel⟩
  have live : 65616 ∈ session.live.map Prod.fst := by decide +kernel
  have answer : (SegregatedList.reallocate (some 65616) 100 true .ordinary
      (session.machine, session.list)).1 = .ok 131152 := by decide +kernel
  exact ⟨live, answer,
    (second.reallocates Environment.ordinary_fitsAddresses live 100 true).1 _ answer⟩

end PagedAlloc.SegregatedList
