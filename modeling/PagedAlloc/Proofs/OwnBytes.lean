import PagedAlloc.Proofs.Sessions

/-!
# Bytes of one's own

Memory goes from one payload to the next, through cuts, merges and moves, with whatever its last
owner and the headers in between left in it. A caller that always asks for zeroed bytes sees none of
this: beside each session runs a history of what the owner of each live payload wrote where, and
every byte that is read is zero or the last one of that history
(`SegregatedList.Session.Zeroing.own_bytes`).
-/

namespace PagedAlloc.SegregatedList

variable {paging : Size.Paging}

open Procedure

/-- What the owners of payloads wrote: for the address of a payload and a distance from it, the cell
that was written there last since the payload was handed out, if there is one. -/
def History : Type := Nat → Nat → Option (Cell BlockHeader)

/-- The history of a payload is replaced. -/
def History.replace (history : History) (address : Nat) (written : Nat → Option (Cell BlockHeader)) :
    History :=
  fun other => if other = address then written else history other

namespace Call

/-- A call that asks for bytes asks for zeroed ones. -/
def Zeroes : Call → Prop
  | allocate _ zero => zero = true
  | reallocate _ _ zero => zero = true
  | _ => True

/-- The history after a call that succeeded. It begins anew with a payload that is handed out, and
goes along with a payload that moves. -/
def retell (history : History) : Call → Option Nat → History
  | allocate .., some address => history.replace address fun _ => none
  | reallocate none .., some address => history.replace address fun _ => none
  | reallocate (some old) .., some address => history.replace address (history old)
  | write address offset content, _ =>
    history.replace address fun x =>
      if offset ≤ x ∧ x < offset + content.length then content.cells[x - offset]?
      else history address x
  | _, _ => history

end Call

namespace Session

/-- The history after a call. A call that does not succeed writes nothing. -/
def retold [Size.Paging] (session : Session) (environment : Environment) (call : Call)
    (history : History) : History :=
  match (call.run environment (session.machine, session.list)).1 with
  | .ok answer => call.retell history answer
  | .error _ => history

/-- The sessions of callers that always ask for zeroed bytes, with their histories. -/
inductive Zeroing [Size.Paging] : History → Session → Prop where
  | start (machine : Machine) : Zeroing (fun _ _ => none) ⟨machine, .empty, []⟩
  | step {history : History} {session : Session} (before : Zeroing history session)
      (environment : Environment) (fits : environment.FitsAddresses) (call : Call)
      (allowed : call.Allowed session) (zeroes : call.Zeroes) :
      Zeroing (session.retold environment call history) (session.after environment call)
  | others {history : History} {session : Session} {machine : Machine}
      (before : Zeroing history session)
      (held : session.list.StaysMapped session.machine machine) :
      Zeroing history { session with machine := machine }

/-- What is seen at a place of a payload is zero or what was written there last. -/
def Shows (seen written : Option (Cell BlockHeader)) : Prop :=
  seen = some (.byte 0) ∨ ∃ cell, seen = some cell ∧ written = some cell

/-- The block at the address of a payload shows nothing but zeros and what its owner wrote. -/
def Owns (list : SegregatedList) (written : Nat → Option (Cell BlockHeader)) (address : Nat) : Prop :=
  ∃ (index : Fin categoryCount) (ref : BlockRef) (usable : Nat), address = ref.payload ∧
    (list.category index).Uses ref usable ∧
      ∀ x < usable, Shows (list.payloadCell? index ref x) (written x)

/-- Whatever a caller reads of its live payloads, each byte is zero or the one that the owner of the
payload wrote there last. -/
def ReadsOwn (session : Session) (history : History) : Prop :=
  ∀ entry ∈ session.live, ∃ usable, session.list.usableSize entry.1 = .ok usable ∧
    ∀ offset count, offset + count ≤ usable →
      ∃ content, session.list.read entry.1 offset count = .ok content ∧ content.length = count ∧
        ∀ x < count, Shows content.cells[x]? (history entry.1 (offset + x))

variable {environment : Environment} {machine' : Machine} {list list' : SegregatedList}
  {session : Session} {history : History} {address size : Nat} {touched : Set BlockRef}
  {call : Call}

/-- A session that always asks for zeroed bytes is a session like any other. -/
theorem Zeroing.reachable (h : Zeroing history session) : session.Reachable := by
  induction h with
  | start machine => exact .start machine
  | step before environment fits call allowed zeroes ih => exact ih.step environment fits call allowed
  | others before held ih => exact ih.others held

/-! ## Histories -/

section Retold

variable {α : Type} {procedure : Procedure (Machine × SegregatedList) α} {answer : α → Option Nat}

/-- The history after a call that succeeded is told from its answer. -/
theorem retold_ok (hcall : call.run = answer <$> procedure) {value : α}
    (hrun : procedure environment (session.machine, session.list) = (.ok value, machine', list'))
    (history : History) :
    session.retold environment call history = call.retell history (answer value) := by
  rw [retold, hcall, map_apply _ answer hrun]
  rfl

/-- A call that stops adds nothing to the history. -/
theorem retold_error (hcall : call.run = answer <$> procedure) {reason : Stop}
    (hrun : procedure environment (session.machine, session.list) =
      (.error reason, machine', list')) (history : History) :
    session.retold environment call history = history := by
  rw [retold, hcall, map_apply _ answer hrun]
  rfl

end Retold

theorem replace_self (history : History) (address : Nat)
    (written : Nat → Option (Cell BlockHeader)) :
    history.replace address written address = written := if_pos rfl

theorem replace_of_ne (history : History) {address other : Nat} (h : other ≠ address)
    (written : Nat → Option (Cell BlockHeader)) :
    history.replace address written other = history other := if_neg h

/-- Where cells and history stay the same, a payload shows what it showed. -/
theorem Owns.kept {written : Nat → Option (Cell BlockHeader)} (h : Owns list written address)
    (hevolves : Evolves touched list list') (hother : ∀ ref ∈ touched, address ≠ ref.payload) :
    Owns list' written address := by
  obtain ⟨index, ref, usable, rfl, huses, hshows⟩ := h
  have huntouched : ref ∉ touched := fun hin => hother ref hin rfl
  refine ⟨index, ref, usable, rfl, hevolves.stays index ref usable huses huntouched, fun x hx => ?_⟩
  rw [hevolves.payloadCell?_eq huses huntouched hx]
  exact hshows x hx

/-! ## One call -/

section Step

variable (h : session.Sound)
  (howns : ∀ entry ∈ session.live, Owns session.list (history entry.1) entry.1)

include h howns

/-- A payload that is handed out zeroed shows zeros, and all others what they showed. -/
theorem owns_allocate (fits : environment.FitsAddresses)
    (hcall : call.run = some <$> SegregatedList.allocate size true)
    (hrecord : ∀ address, call.record session.live (some address) = (address, size) :: session.live)
    (hretell : ∀ address,
      call.retell history (some address) = history.replace address fun _ => none) :
    ∀ entry ∈ (session.after environment call).live, Owns (session.after environment call).list
      (session.retold environment call history entry.1) entry.1 := by
  have hdistinct := (h.step_allocate fits hcall hrecord).sound.distinct
  obtain ⟨result, machine', after, hrun, -, hevolves, -, -, hnew⟩ := h.list.allocate fits size true
  cases result with
  | error reason =>
    rw [Session.after, hcall, Session.turn_error hrun, retold_error hcall hrun]
    exact fun entry hentry => (howns entry hentry).kept hevolves (by simp)
  | ok address =>
    obtain ⟨ref, usable, rfl, hobtains⟩ := hnew address rfl
    rw [Session.after, hcall, Session.turn_ok hrun, hrecord, List.map_cons, List.nodup_cons] at hdistinct
    rw [Session.after, hcall, Session.turn_ok hrun, retold_ok hcall hrun, hrecord, hretell]
    intro entry hentry
    -- the new payload is all zeros, and the others were not touched
    rcases List.mem_cons.1 hentry with rfl | hold
    · exact ⟨_, ref, usable, rfl, hobtains.uses, fun x hx => Or.inl (hobtains.zeroed rfl x hx)⟩
    · have hne : entry.1 ≠ ref.payload := fun heq =>
        hdistinct.1 (List.mem_map.2 ⟨entry, hold, heq⟩)
      rw [replace_of_ne history hne]
      exact (howns entry hold).kept hevolves (by simp)

/-- A payload that was resized shows what it showed, and zeros where it gained or lost bytes. -/
theorem owns_reallocate (fits : environment.FitsAddresses)
    (hlive : address ∈ session.live.map Prod.fst) (size : Nat) :
    let call := Call.reallocate (some address) size true
    ∀ entry ∈ (session.after environment call).live, Owns (session.after environment call).list
      (session.retold environment call history entry.1) entry.1 := by
  intro call
  have hdistinct := (h.step_reallocate fits hlive size true).sound.distinct
  obtain ⟨old, hold, rfl⟩ := List.mem_map.1 hlive
  obtain ⟨index, ref, usable, hplace, huses, hshows⟩ := howns old hold
  obtain ⟨result, machine', after, hrun, -, -, herror, hok⟩ :=
    h.list.reallocate fits huses size true
  rw [← hplace] at hrun
  cases result with
  | error reason =>
    rw [Session.after, Call.run, Session.turn_error hrun, retold_error rfl hrun]
    exact fun entry hentry => (howns entry hentry).kept (herror reason rfl).1 (by simp)
  | ok new =>
    obtain ⟨hevolves, payload, target, room, -, rfl, hresizes⟩ := hok new rfl
    rw [Session.after, Call.run, Session.turn_ok hrun, Call.record, List.map_cons, List.nodup_cons] at hdistinct
    rw [Session.after, Call.run, Session.turn_ok hrun, retold_ok rfl hrun, Call.record, Call.retell]
    intro entry hentry
    rcases List.mem_cons.1 hentry with rfl | hkept
    · rw [replace_self]
      refine ⟨_, target, room, rfl, hresizes.uses, fun x hx => ?_⟩
      -- bytes that both sizes have are kept, and the others are zero or were the owner's already
      by_cases hboth : x < min usable payload
      · rw [hresizes.kept x hboth]
        exact hshows x (by omega)
      · rcases hresizes.rest rfl x (Nat.le_of_not_lt hboth) hx with ⟨hin, hcell⟩ | hzero
        · rw [hcell]
          exact hshows x hin
        · exact Or.inl hzero
    · have hne : entry.1 ≠ target.payload := fun heq =>
        hdistinct.1 (List.mem_map.2 ⟨entry, hkept, heq⟩)
      obtain ⟨hold', hother⟩ := List.mem_filter.1 hkept
      rw [replace_of_ne history hne]
      refine (howns entry hold').kept hevolves ?_
      rintro _ rfl heq
      exact of_decide_eq_true hother (congrArg some (heq.trans hplace.symm))

/-- A payload that was written to shows what was written there, and all others what they showed. -/
theorem owns_write {offset : Nat} {content : Stretch BlockHeader}
    (allowed : (Call.write address offset content).Allowed session) :
    let call := Call.write address offset content
    ∀ entry ∈ (session.after environment call).live, Owns (session.after environment call).list
      (session.retold environment call history entry.1) entry.1 := by
  intro call
  obtain ⟨hlive, usable, husable, hfits⟩ := allowed
  obtain ⟨old, hold, rfl⟩ := List.mem_map.1 hlive
  obtain ⟨index, ref, room, hplace, huses, hshows⟩ := howns old hold
  rw [hplace, h.list.usableSize_eq huses] at husable
  obtain rfl := Except.ok.inj husable
  obtain ⟨after, hrun, -, hevolves, hinUse, -, hcells, -⟩ := h.list.write huses hfits environment
  rw [← hplace] at hrun
  rw [Session.after, Call.run, Session.turn_ok hrun, retold_ok rfl hrun, Call.retell]
  intro entry hentry
  by_cases heq : entry.1 = old.1
  · -- inside the written range the cell is what was just written, outside of it what was seen
    -- before
    rw [heq, replace_self]
    refine ⟨index, ref, room, hplace, uses_of_inUse_eq hinUse huses, fun x hx => ?_⟩
    rw [hcells x hx]
    beta_reduce
    split
    · have hin : x - offset < content.cells.length := by
        rw [Stretch.length_cells]
        omega
      exact Or.inr ⟨_, List.getElem?_eq_getElem hin, List.getElem?_eq_getElem hin⟩
    · exact hshows x hx
  · rw [replace_of_ne history heq]
    refine (howns entry hentry).kept hevolves ?_
    rintro _ rfl hsame
    exact heq (hsame.trans hplace.symm)

/-- Whatever a caller calls that asks for zeroed bytes only, all live payloads show nothing but zeros
and what their owners wrote. -/
theorem owns_step (fits : environment.FitsAddresses) (allowed : call.Allowed session)
    (zeroes : call.Zeroes) :
    ∀ entry ∈ (session.after environment call).live, Owns (session.after environment call).list
      (session.retold environment call history entry.1) entry.1 := by
  cases call with
  | allocate size zero =>
    obtain rfl : zero = true := zeroes
    exact owns_allocate h howns fits rfl (fun _ => rfl) fun _ => rfl
  | reallocate address size zero =>
    obtain rfl : zero = true := zeroes
    cases address with
    | none => exact owns_allocate h howns fits rfl (fun _ => by simp [Call.record]) fun _ => rfl
    | some address => exact owns_reallocate h howns fits (allowed address rfl) size
  | free address =>
    obtain ⟨ref, index, usable, rfl, huses⟩ := h.exists_uses allowed
    obtain ⟨machine', after, hrun, -, hevolves, -⟩ := h.list.free huses environment
    rw [Session.after, Call.run, Session.turn_ok hrun, retold_ok rfl hrun]
    intro entry hentry
    obtain ⟨hold, hother⟩ := List.mem_filter.1 hentry
    refine (howns entry hold).kept hevolves ?_
    rintro _ rfl
    exact of_decide_eq_true hother
  | clear =>
    obtain ⟨after, hrun, -⟩ := h.list.clear environment
    rw [Session.after, Call.run, Session.turn_ok hrun]
    exact fun _ hentry => absurd hentry List.not_mem_nil
  | trim =>
    obtain ⟨result, machine', after, hrun, -, hevolves, -⟩ := h.list.trim environment
    have hstays : ∀ entry ∈ session.live, Owns after (history entry.1) entry.1 :=
      fun entry hentry => (howns entry hentry).kept hevolves (by simp)
    cases result with
    | error reason =>
      rw [Session.after, Call.run, Session.turn_error hrun, retold_error rfl hrun]
      exact hstays
    | ok bytes =>
      rw [Session.after, Call.run, Session.turn_ok hrun, retold_ok rfl hrun]
      exact hstays
  | write address offset content => exact owns_write h howns allowed

end Step

/-! ## All calls -/

/-- By induction over the session: each call and each turn of the others keeps every live payload
its owner's. -/
theorem Zeroing.owns (h : Zeroing history session) :
    ∀ entry ∈ session.live, Owns session.list (history entry.1) entry.1 := by
  induction h with
  | start machine => simp
  | step before environment fits call allowed zeroes ih =>
    exact owns_step before.reachable.sound ih fits allowed zeroes
  | others before held ih => exact ih

/-- A caller that always asks for zeroed bytes reads, at any place of a live payload, zero or what it
wrote there last since the payload was handed out to it, however often it was resized or moved. -/
theorem Zeroing.own_bytes (h : Zeroing history session) : session.ReadsOwn history := by
  intro entry hentry
  have hlist := h.reachable.sound.list
  obtain ⟨index, ref, usable, hplace, huses, hshows⟩ := h.owns entry hentry
  refine ⟨usable, hplace ▸ hlist.usableSize_eq huses, fun offset count hin => ?_⟩
  obtain ⟨content, hread, hlength, hcells⟩ := hlist.read_within huses offset count
  refine ⟨content, hplace ▸ hread, hlength, fun x hx => ?_⟩
  rw [hcells x hx]
  exact hshows (offset + x) (by omega)

end Session

end PagedAlloc.SegregatedList

namespace PagedAlloc.SegregatedList.Session

open Procedure

attribute [local instance] Size.Paging.common

/-- A payload that was written to is freed, and its bytes are handed out again, written to and moved
to another category. -/
theorem own_bytes_of_reused :
    let first := Session.after ⟨.fresh, .empty, []⟩ .ordinary (.allocate 64 true)
    let second := first.after .ordinary (.write 65616 0 (Stretch.ofBytes [1, 2, 3]))
    let third := second.after .ordinary (.free 65616)
    let fourth := third.after .ordinary (.allocate 32 true)
    let fifth := fourth.after .ordinary (.write 65616 1 (Stretch.ofBytes [9]))
    let session := fifth.after .ordinary (.reallocate (some 65616) 100 true)
    session.live = [(131152, 100)] ∧ ∃ history : History, history 131152 0 = none ∧
      history 131152 1 = some (.byte 9) ∧ session.ReadsOwn history := by
  have first := (Zeroing.start .fresh).step .ordinary Environment.ordinary_fitsAddresses
    (.allocate 64 true) trivial rfl
  have second := first.step .ordinary Environment.ordinary_fitsAddresses
    (.write 65616 0 (Stretch.ofBytes [1, 2, 3]))
    ⟨by decide +kernel, 64, by decide +kernel, by decide +kernel⟩ trivial
  have third := second.step .ordinary Environment.ordinary_fitsAddresses (.free 65616)
    (show 65616 ∈ _ by decide +kernel) trivial
  have fourth := third.step .ordinary Environment.ordinary_fitsAddresses (.allocate 32 true)
    trivial rfl
  have fifth := fourth.step .ordinary Environment.ordinary_fitsAddresses
    (.write 65616 1 (Stretch.ofBytes [9]))
    ⟨by decide +kernel, 32, by decide +kernel, by decide +kernel⟩ trivial
  have session := fifth.step .ordinary Environment.ordinary_fitsAddresses
    (.reallocate (some 65616) 100 true) (fun _ heq => by cases heq; decide +kernel) rfl
  exact ⟨by decide +kernel, _, by decide +kernel, by decide +kernel, session.own_bytes⟩

end PagedAlloc.SegregatedList.Session
