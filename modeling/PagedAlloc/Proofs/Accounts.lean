import PagedAlloc.Proofs.Sessions

/-!
# Accounts of a session

The blocks in use are those of the live addresses, each in the category of the size that was asked
for last (`Session.Reachable.accounts`), and a call makes one of five things of them
(`Session.Posting`). So freeing live addresses one after the other succeeds
(`Session.Reachable.freeing`).

A fault may stop a call halfway. Sessions in which none did so keep their counters exact
(`Session.Intact.exact`). With exact counters a kernel that takes every live mapping back leaves no
other outcome than success and, of a request for a payload, one of three replies (`Call.Reply`,
`Session.Sound.ends`), so under such a kernel no session is ever stopped (`Session.Served.intact`).
-/

namespace PagedAlloc.SegregatedList

variable {paging : Size.Paging}

open Procedure

namespace Call

/-- The size that a call asks a payload for. -/
def request? : Call → Option Nat
  | allocate size _ => some size
  | reallocate _ size _ => some size
  | _ => none

/-- A call asks for a payload of some size, and an address answers it. -/
def AnsweredBy [Size.Paging] (environment : Environment) (session : Session) (call : Call)
    (address request : Nat) : Prop :=
  call.request? = some request ∧
    (call.run environment (session.machine, session.list)).1 = .ok (some address)

/-- No fault stops a call. -/
def Returns [Size.Paging] (session : Session) (environment : Environment) (call : Call) : Prop :=
  ∀ fault, (call.run environment (session.machine, session.list)).1 ≠ .error (.fault fault)

instance [Size.Paging] (session : Session) (environment : Environment) (call : Call) :
    Decidable (call.Returns session environment) :=
  match h : (call.run environment (session.machine, session.list)).1 with
  | .ok _ => isTrue fun fault hfault => by rw [h] at hfault; cases hfault
  | .error (.failure _) => isTrue fun fault hfault => by rw [h] at hfault; cases hfault
  | .error (.fault fault) => isFalse fun hreturns => hreturns fault h

/-- The reply to a request for a payload, with the list after it. Where no payload of the size, or no
chunk for one, fits a machine word, the caller is told of the overflow. All else is answered with an
address that has room for the request, unless the kernel refuses a chunk for it. -/
inductive Reply [Size.Paging] (environment : Environment) (ledger : Ledger) (after : SegregatedList)
    (request : Nat) : Except Stop (Option Nat) → Prop
  | room {length address usable : Nat} (fits : lengthFor? request = some length)
      (holds : after.usableSize address = .ok usable) (enough : request ≤ usable) :
      Reply environment ledger after request (.ok (some address))
  | overflow (unfit : lengthFor? request = none) :
      Reply environment ledger after request (.error (.failure .overflow))
  | outOfMemory {length : Nat} (fits : lengthFor? request = some length)
      (refused : environment.grantsPages ledger length = false) :
      Reply environment ledger after request (.error (.failure (.outOfMemory length)))

/-- A failure that the kernel or a size is to blame for is one of the replies. -/
theorem Reply.of_ofPages {environment : Environment} {ledger : Ledger} {after : SegregatedList}
    {request : Nat} {failure : Failure}
    (h : failure.OfPages environment ledger (lengthFor? request)) :
    Reply environment ledger after request (.error (.failure failure)) := by
  generalize hlength : lengthFor? request = found at h
  cases h with
  | overflow => exact .overflow hlength
  | outOfMemory refused => exact .outOfMemory hlength refused

theorem Reply.ne_fault {environment : Environment} {ledger : Ledger} {after : SegregatedList}
    {request : Nat} {result : Except Stop (Option Nat)}
    (h : Reply environment ledger after request result) (fault : Fault) :
    result ≠ .error (.fault fault) := by
  cases h <;> nofun

/-- A request for a payload gets its reply, and all other calls succeed. -/
structure Answers [Size.Paging] (session : Session) (environment : Environment)
    (call : Call) : Prop where
  reply : ∀ request, call.request? = some request →
    Reply environment session.machine.ledger (session.after environment call).list request
      (call.run environment (session.machine, session.list)).1
  done : call.request? = none → (call.run environment (session.machine, session.list)).1 = .ok none

/-- A call that answers as it should returns. -/
theorem Answers.returns {session : Session} {environment : Environment} {call : Call}
    (h : call.Answers session environment) : call.Returns session environment := by
  intro fault hfault
  cases hrequest : call.request? with
  | some request => exact (h.reply request hrequest).ne_fault fault hfault
  | none =>
    rw [h.done hrequest] at hfault
    cases hfault

end Call

namespace Session

/-- The sessions whose calls all follow a rule. Between the calls others may use the machine, as
long as they leave the chunks of the list alone. -/
inductive Run [Size.Paging] (rule : Session → Environment → Call → Prop) : Session → Prop where
  | start (machine : Machine) : Run rule ⟨machine, .empty, []⟩
  | step {session : Session} (before : Run rule session) (environment : Environment)
      (fits : environment.FitsAddresses) (call : Call) (allowed : call.Allowed session)
      (follows : rule session environment call) : Run rule (session.after environment call)
  | others {session : Session} {machine : Machine} (before : Run rule session)
      (held : session.list.StaysMapped session.machine machine) :
      Run rule { session with machine := machine }

/-- The sessions that no fault has stopped: every call succeeded or failed. -/
def Intact [Size.Paging] (session : Session) : Prop :=
  Run (fun session environment call => call.Returns session environment) session

/-- The sessions on a kernel that takes every live mapping back. -/
def Served [Size.Paging] (session : Session) : Prop := Run
    (fun _ environment _ => environment.UnmapsLive) session

/-- A rule on the calls only leaves some sessions out. -/
theorem Run.reachable {rule : Session → Environment → Call → Prop} {session : Session}
    (h : Run rule session) : session.Reachable := by
  induction h with
  | start machine => exact .start machine
  | step before environment fits call allowed follows ih =>
    exact ih.step environment fits call allowed
  | others before held ih => exact ih.others held

variable {environment : Environment} {machine machine' : Machine} {list list' : SegregatedList}
  {live : List (Nat × Nat)} {session : Session} {call : Call}

/-! ## Live addresses and blocks in use -/

/-- Every live address is that of a block in use of the category that the size belongs to, and there
are no other blocks in use. -/
structure Accounts (inUse : Set (Fin categoryCount × BlockRef × Nat)) (live : List (Nat × Nat)) :
    Prop where
  held : ∀ entry ∈ live, ∃ ref usable, entry.1 = ref.payload ∧
    (categoryFor entry.2, ref, usable) ∈ inUse
  owned : ∀ block ∈ inUse, block.2.1.payload ∈ live.map Prod.fst

namespace Accounts

variable {inUse : Set (Fin categoryCount × BlockRef × Nat)}

theorem empty : Accounts ∅ [] := ⟨by simp, by simp⟩

/-- A payload that was just handed out is entered beside those that were live before. -/
theorem insert (h : Accounts inUse live) (asked : Nat) (ref : BlockRef) (usable : Nat) :
    Accounts (Insert.insert (categoryFor asked, ref, usable) inUse)
      ((ref.payload, asked) :: live) where
  held entry hentry := by
    rcases List.mem_cons.1 hentry with rfl | hold
    · exact ⟨ref, usable, rfl, Set.mem_insert ..⟩
    · obtain ⟨other, size, hplace, hmem⟩ := h.held entry hold
      exact ⟨other, size, hplace, Set.mem_insert_of_mem _ hmem⟩
  owned block hblock := by
    rcases hblock with rfl | hold
    · exact List.mem_cons_self ..
    · exact List.mem_cons_of_mem _ (h.owned block hold)

/-- Where an address belongs to one block, the block and the address are lost together. -/
theorem erase (h : Accounts inUse live) {lost : Fin categoryCount × BlockRef × Nat}
    (unique : ∀ block ∈ inUse, block.2.1.payload = lost.2.1.payload → block = lost) :
    Accounts (inUse \ {lost}) (live.filter fun entry => entry.1 ≠ lost.2.1.payload) where
  held entry hentry := by
    obtain ⟨hold, hother⟩ := List.mem_filter.1 hentry
    obtain ⟨ref, usable, hplace, hmem⟩ := h.held entry hold
    refine ⟨ref, usable, hplace, hmem, ?_⟩
    rintro rfl
    exact of_decide_eq_true hother hplace
  owned block hblock := by
    obtain ⟨entry, hentry, hplace⟩ := List.mem_map.1 (h.owned block hblock.1)
    have hother : entry.1 ≠ lost.2.1.payload := fun heq =>
      hblock.2 (unique block hblock.1 (hplace.symm.trans heq))
    exact List.mem_map.2 ⟨entry, List.mem_filter.2 ⟨hentry, decide_eq_true hother⟩, hplace⟩

end Accounts

/-- What a call makes of the blocks in use and of the live addresses. It gains a block with its
address, which answers the call, or loses one; it does both, or it keeps or loses all of them. -/
inductive Posting (answers : Nat → Nat → Prop)
    (inUse : Set (Fin categoryCount × BlockRef × Nat)) (live : List (Nat × Nat)) :
    Set (Fin categoryCount × BlockRef × Nat) → List (Nat × Nat) → Prop where
  | kept : Posting answers inUse live inUse live
  | gained {ref : BlockRef} {request : Nat} (usable : Nat) (answer : answers ref.payload request) :
      Posting answers inUse live (insert (categoryFor request, ref, usable) inUse)
        ((ref.payload, request) :: live)
  | lost {block : Fin categoryCount × BlockRef × Nat} (present : block ∈ inUse) :
      Posting answers inUse live (inUse \ {block})
        (live.filter fun entry => entry.1 ≠ block.2.1.payload)
  | replaced {block : Fin categoryCount × BlockRef × Nat} {ref : BlockRef} {request : Nat}
      (usable : Nat) (present : block ∈ inUse) (answer : answers ref.payload request) :
      Posting answers inUse live (insert (categoryFor request, ref, usable) (inUse \ {block}))
        ((ref.payload, request) :: live.filter fun entry => entry.1 ≠ block.2.1.payload)
  | cleared : Posting answers inUse live ∅ []

/-- No call makes a block that is nobody's, and none takes one away that is somebody's. -/
theorem Posting.accounts {answers : Nat → Nat → Prop}
    {inUse inUse' : Set (Fin categoryCount × BlockRef × Nat)} {live' : List (Nat × Nat)}
    (h : Posting answers inUse live inUse' live')
    (unique : ∀ first ∈ inUse, ∀ second ∈ inUse,
      first.2.1.payload = second.2.1.payload → first = second)
    (accounts : Accounts inUse live) : Accounts inUse' live' := by
  cases h with
  | kept => exact accounts
  | gained usable answer => exact accounts.insert _ _ usable
  | lost present => exact accounts.erase fun block hblock => unique block hblock _ present
  | replaced usable present answer =>
    exact (accounts.erase fun block hblock => unique block hblock _ present).insert _ _ usable
  | cleared => exact .empty

/-- A block in use is gained by an answer to the call only. -/
theorem Sound.posting (h : session.Sound) (fits : environment.FitsAddresses)
    (allowed : call.Allowed session) :
    Posting (call.AnsweredBy environment session) session.list.inUse session.live
      (session.after environment call).list.inUse (session.after environment call).live := by
  -- `reallocate` without an address is an allocation, so both go the same way
  have hallocate : ∀ {call : Call} {size : Nat} {zero : Bool},
      call.run = some <$> SegregatedList.allocate size zero → call.request? = some size →
      (∀ address, call.record session.live (some address) = (address, size) :: session.live) →
      Posting (call.AnsweredBy environment session) session.list.inUse session.live
        (session.after environment call).list.inUse (session.after environment call).live := by
    intro call size zero hcall hrequest hrecord
    obtain ⟨result, machine', list', hrun, -, -, -, hfailed, hok⟩ :=
      h.list.allocate fits size zero
    cases result with
    | error reason =>
      rw [Session.after, hcall, Session.turn_error hrun, hfailed reason rfl]
      exact .kept
    | ok address =>
      obtain ⟨ref, usable, rfl, hobtains⟩ := hok address rfl
      rw [Session.after, hcall, Session.turn_ok hrun, hobtains.inUse, hrecord]
      exact .gained usable ⟨hrequest, by rw [hcall, map_apply _ some hrun]; rfl⟩
  cases call with
  | allocate size zero => exact hallocate rfl rfl fun _ => rfl
  | reallocate address size zero =>
    cases address with
    | none => exact hallocate rfl rfl fun _ => by simp [Call.record]
    | some address =>
      obtain ⟨ref, index, usable, rfl, huses⟩ := h.exists_uses (allowed address rfl)
      obtain ⟨result, machine', list', hrun, -, -, hfailed, hok⟩ :=
        h.list.reallocate fits huses size zero
      cases result with
      | error reason =>
        rw [Session.after, Call.run, Session.turn_error hrun, (hfailed reason rfl).2]
        exact .kept
      | ok address =>
        obtain ⟨-, payload, target, room, hpayload, rfl, hresizes⟩ := hok address rfl
        rw [Session.after, Call.run, Session.turn_ok hrun, hresizes.inUse, categoryFor_payloadSize hpayload]
        simp only [Call.record, ne_eq, Option.some.injEq]
        exact .replaced room (show (index, ref, usable) ∈ session.list.inUse from huses)
          ⟨rfl, by rw [Call.run, map_apply _ some hrun]; rfl⟩
  | free address =>
    obtain ⟨ref, index, usable, rfl, huses⟩ := h.exists_uses allowed
    obtain ⟨machine', list', hrun, -, -, hinUse, -⟩ := h.list.free huses environment
    rw [Session.after, Call.run, Session.turn_ok hrun, hinUse]
    exact .lost (show (index, ref, usable) ∈ session.list.inUse from huses)
  | clear =>
    obtain ⟨list', hrun, hsound, -, hcleared⟩ := h.list.clear environment
    -- no block in use is as small as nothing, so a category that counts nothing has none
    have hnone : list'.inUse = ∅ := by
      refine Set.eq_empty_iff_forall_notMem.2 fun block hblock => ?_
      have hused := (hcleared block.1).balances.used
      have hin := Category.mem_inUse.2 hblock
      have hsum := (hsound.sound block.1).sum_inUse
      rw [show (list'.category block.1).used = 0 by omega, Finset.sum_eq_zero_iff] at hsum
      exact absurd (hsum _ hin) ((hsound.sound block.1).pos_of_mem_inUse hin).ne'
    rw [Session.after, Call.run, Session.turn_ok hrun, hnone]
    exact .cleared
  | trim =>
    obtain ⟨result, machine', list', hrun, -, -, hshed, -⟩ := h.list.trim environment
    rw [after_trim hrun, hshed.inUse]
    exact .kept
  | write address offset content =>
    obtain ⟨ref, index, usable, rfl, huses, hfits⟩ := h.exists_uses_of_write allowed
    obtain ⟨list', hrun, -, -, hinUse, -⟩ := h.list.write huses hfits environment
    rw [Session.after, Call.run, Session.turn_ok hrun, hinUse]
    exact .kept

/-- In every session the blocks in use are those of the live addresses. -/
theorem Reachable.accounts (h : session.Reachable) : Accounts session.list.inUse session.live := by
  induction h with
  | start machine =>
    have hnone : SegregatedList.empty.inUse = ∅ := by
      refine Set.eq_empty_iff_forall_notMem.2 ?_
      rintro ⟨index, ref, size⟩ ⟨chunk, hmem, -⟩
      rw [category_empty] at hmem
      exact List.not_mem_nil hmem
    rw [hnone]
    exact .empty
  | step before environment fits call allowed ih =>
    exact (before.sound.posting fits allowed).accounts
      (fun _ hfirst _ hsecond => before.sound.list.inUse_unique hfirst hsecond) ih
  | others before held ih => exact ih

/-! ## Freeing several addresses -/

/-- The session after some addresses were freed, one after the other. -/
def freeing [Size.Paging] (session : Session) (environment : Environment)
    (addresses : List Nat) : Session :=
  addresses.foldl (fun session address => session.after environment (.free address)) session

/-- Freeing a live address succeeds, so it is live no longer. -/
theorem Reachable.live_after_free (h : session.Reachable) {address : Nat}
    (hlive : address ∈ session.live.map Prod.fst) (environment : Environment) :
    (session.after environment (.free address)).live =
      session.live.filter fun entry => entry.1 ≠ address := by
  obtain ⟨ref, index, usable, rfl, huses⟩ := h.sound.exists_uses hlive
  obtain ⟨machine', list', hrun, -⟩ := h.sound.list.free huses environment
  rw [Session.after, Call.run, Session.turn_ok hrun]
  rfl

/-- The other live addresses stay live. -/
theorem Reachable.still_live (h : session.Reachable) {address other : Nat}
    (hlive : address ∈ session.live.map Prod.fst) (hother : other ∈ session.live.map Prod.fst)
    (hne : other ≠ address) (environment : Environment) :
    other ∈ (session.after environment (.free address)).live.map Prod.fst := by
  obtain ⟨entry, hentry, rfl⟩ := List.mem_map.1 hother
  rw [h.live_after_free hlive]
  exact List.mem_map.2 ⟨entry, List.mem_filter.2 ⟨hentry, decide_eq_true hne⟩, rfl⟩

/-- Freeing live addresses succeeds each time, so in the end they are live no longer. -/
theorem Reachable.freeing (h : session.Reachable) (fits : environment.FitsAddresses)
    {addresses : List Nat} (distinct : addresses.Nodup)
    (hlive : ∀ address ∈ addresses, address ∈ session.live.map Prod.fst) :
    (session.freeing environment addresses).Reachable ∧
      (session.freeing environment addresses).live =
        session.live.filter fun entry => entry.1 ∉ addresses := by
  induction addresses generalizing session with
  | nil => exact ⟨h, by simp [Session.freeing]⟩
  | cons address rest ih =>
    obtain ⟨hfirst, hrest⟩ := List.nodup_cons.1 distinct
    have haddress := hlive address (List.mem_cons_self ..)
    obtain ⟨hreachable, hsame⟩ := ih (h.step environment fits (.free address) haddress) hrest
      fun other hother => h.still_live haddress (hlive other (List.mem_cons_of_mem _ hother))
        (ne_of_mem_of_not_mem hother hfirst) environment
    -- what the rest of the addresses leaves of what the first one left
    refine ⟨hreachable, hsame.trans ?_⟩
    rw [h.live_after_free haddress, List.filter_filter]
    refine List.filter_congr fun entry _ => ?_
    simp only [List.mem_cons, not_or, Bool.decide_and, Bool.and_comm, ne_eq]

/-! ## Outcomes of calls -/

/-- What comes of a call. Without a fault the mapped bytes stay exact, and from exact ones a kernel
that takes every live mapping back gives no fault. -/
structure Ends [Size.Paging] (session : Session) (environment : Environment)
    (call : Call) : Prop where
  exact : session.list.Exact → call.Returns session environment →
    (session.after environment call).list.Exact
  answers : session.list.Exact → environment.UnmapsLive → call.Answers session environment

section Ends

variable {α : Type} {procedure : Procedure (Machine × SegregatedList) α} {answer : α → Option Nat}

/-- What a call answers is what its procedure gives. -/
theorem run_eq (hcall : call.run = answer <$> procedure) {result : Except Stop α}
    (hrun : procedure environment (session.machine, session.list) = (result, machine', list')) :
    (call.run environment (session.machine, session.list)).1 = result.map answer := by
  rw [hcall, map_apply _ answer hrun]

/-- A call that asks for no payload ends with its procedure. -/
theorem ends_of_ok (hcall : call.run = answer <$> procedure) (hnone : call.request? = none)
    {value : α} (hvalue : answer value = none)
    (hrun : procedure environment (session.machine, session.list) = (.ok value, machine', list'))
    (hexact : session.list.Exact → list'.Exact) : session.Ends environment call where
  exact exact _ := by
    rw [Session.after, hcall, Session.turn_list, hrun]
    exact hexact exact
  answers _ _ := ⟨by simp [hnone], fun _ => (run_eq hcall hrun).trans (congrArg Except.ok hvalue)⟩

/-- A call that asks for a payload ends as the request was supplied. -/
theorem ends_of_supplied {procedure : Procedure (Machine × SegregatedList) Nat} {request : Nat}
    (hcall : call.run = some <$> procedure) (hrequest : call.request? = some request)
    {result : Except Stop Nat}
    (hrun : procedure environment (session.machine, session.list) = (result, machine', list'))
    (hsound : list'.Sound machine')
    (hsupplied : Supplied environment session.machine request session.list list' result)
    (huses : ∀ address, result = .ok address → ∃ (index : Fin categoryCount) (ref : BlockRef)
      (usable : Nat), address = ref.payload ∧ (list'.category index).Uses ref usable ∧
        request ≤ usable) : session.Ends environment call where
  exact exact hreturns := by
    rw [Session.after, hcall, Session.turn_list, hrun]
    refine hsupplied.exact exact fun fault heq => hreturns fault ?_
    rw [run_eq hcall hrun, heq]
    rfl
  answers exact _ := by
    refine ⟨fun other hother => ?_, by simp [hrequest]⟩
    obtain rfl := Option.some.inj (hrequest.symm.trans hother)
    rw [run_eq hcall hrun, Session.after, hcall, Session.turn_list, hrun]
    rcases result with (failure | fault) | address
    · exact .of_ofPages (hsupplied.failed failure rfl).2
    · -- no request ends in a fault while the counters are exact
      exact absurd rfl (hsupplied.safe exact fault)
    · obtain ⟨index, ref, usable, rfl, huses, enough⟩ := huses address rfl
      obtain ⟨length, hlength⟩ := hsound.exists_lengthFor? huses enough
      exact .room hlength (hsound.usableSize_eq huses) enough

end Ends

/-- How each call on a sound session ends, by the spec of the operation behind it. -/
theorem Sound.ends (h : session.Sound) (fits : environment.FitsAddresses)
    (allowed : call.Allowed session) : session.Ends environment call := by
  have hallocate : ∀ {call : Call} {size : Nat} {zero : Bool},
      call.run = some <$> SegregatedList.allocate size zero → call.request? = some size →
      session.Ends environment call := by
    intro call size zero hcall hrequest
    obtain ⟨result, machine', list', hrun, hsound, -, hsupplied, -, hok⟩ :=
      h.list.allocate fits size zero
    refine ends_of_supplied hcall hrequest hrun hsound hsupplied fun address hresult => ?_
    obtain ⟨ref, usable, rfl, hobtains⟩ := hok address hresult
    exact ⟨_, ref, usable, rfl, hobtains.uses, hobtains.enough⟩
  cases call with
  | allocate size zero => exact hallocate rfl rfl
  | reallocate address size zero =>
    cases address with
    | none => exact hallocate rfl rfl
    | some address =>
      obtain ⟨ref, index, usable, rfl, huses⟩ := h.exists_uses (allowed address rfl)
      obtain ⟨result, machine', list', hrun, hsound, hsupplied, -, hok⟩ :=
        h.list.reallocate fits huses size zero
      refine ends_of_supplied rfl rfl hrun hsound hsupplied fun address hresult => ?_
      obtain ⟨-, payload, target, room, hpayload, rfl, hresizes⟩ := hok address hresult
      exact ⟨_, target, room, rfl, hresizes.uses,
        (valid_of_payloadSize?_eq_some hpayload).1.trans hresizes.enough⟩
  | free address =>
    obtain ⟨ref, index, usable, rfl, huses⟩ := h.exists_uses allowed
    obtain ⟨machine', list', hrun, -, -, -, hbalances⟩ := h.list.free huses environment
    exact ends_of_ok rfl rfl rfl hrun hbalances.exact
  | clear =>
    obtain ⟨list', hrun, -, hexact, -⟩ := h.list.clear environment
    exact ends_of_ok rfl rfl rfl hrun hexact
  | trim =>
    obtain ⟨result, machine', list', hrun, -, -, hshed, hsafe⟩ := h.list.trim environment
    have hanswer : (Call.trim.run environment (session.machine, session.list)).1 =
        result.map fun _ => none := run_eq rfl hrun
    refine ⟨fun exact hreturns => ?_, fun exact hunmaps => ?_⟩
    · -- trimming that stops has met a fault, and this one did return
      rw [Session.after, Call.run, Session.turn_list, hrun]
      cases result with
      | error reason =>
        obtain ⟨fault, rfl⟩ := hshed.stopped reason rfl
        exact absurd hanswer (hreturns fault)
      | ok bytes => exact hshed.exact bytes rfl exact
    · obtain ⟨bytes, rfl⟩ := hsafe exact hunmaps
      exact ⟨by simp [Call.request?], fun _ => hanswer⟩
  | write address offset content =>
    obtain ⟨ref, index, usable, rfl, huses, hfits⟩ := h.exists_uses_of_write allowed
    obtain ⟨list', hrun, -, -, -, hbalances, -⟩ := h.list.write huses hfits environment
    exact ends_of_ok rfl rfl rfl hrun hbalances.exact

/-- A list that has nothing mapped has exact counters. -/
theorem exact_empty : SegregatedList.empty.Exact where
  mapped index := by
    rw [category_empty]
    rfl
  bounded := by
    have hnone : SegregatedList.empty.totalSize = 0 :=
      Finset.sum_eq_zero fun index _ => by
        rw [category_empty]
        rfl
    rw [hnone]
    decide

/-- No counter is off unless a fault stopped a call halfway. -/
theorem Intact.exact (h : session.Intact) : session.list.Exact := by
  induction h with
  | start machine => exact exact_empty
  | step before environment fits call allowed follows ih =>
    exact (before.reachable.sound.ends fits allowed).exact ih follows
  | others before held ih => exact ih

/-- A kernel that takes every live mapping back never stops a session. -/
theorem Served.intact (h : session.Served) : session.Intact := by
  induction h with
  | start machine => exact .start machine
  | step before environment fits call allowed follows ih =>
    exact ih.step environment fits call allowed
      ((before.reachable.sound.ends fits allowed).answers (Intact.exact ih) follows).returns
  | others before held ih => exact ih.others held

end Session

end PagedAlloc.SegregatedList
