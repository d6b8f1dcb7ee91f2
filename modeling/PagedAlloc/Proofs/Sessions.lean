import PagedAlloc.Proofs.SegregatedSteps

/-!
# Sessions

A caller of a segregated list holds addresses, each with the size that was asked for last. A session
is the machine, the list and these addresses; each call takes it to the next one, whether the call
succeeds, fails or is stopped. What a caller has to promise is little: to name only addresses that
are live, and to write only into the bytes that may be used (`Call.Allowed`).

Main statement: `Session.Sound.step`, every call keeps the list sound, gives addresses that were not
live, and touches no block but the one that it was called on.
-/

namespace PagedAlloc.SegregatedList

variable {paging : Size.Paging}

open Procedure

/-- The calls of a caller, and writes into payloads. -/
inductive Call where
  | allocate (size : Nat) (zero : Bool)
  | reallocate (address : Option Nat) (size : Nat) (zero : Bool)
  | free (address : Nat)
  | clear
  | trim
  | write (address offset : Nat) (content : Stretch BlockHeader)

/-- The machine, the list, and the live addresses with the sizes that were asked for last. -/
abbrev Session := PagedAlloc.Session SegregatedList (Nat × Nat)

namespace Call

/-- What a caller promises: to name live addresses only, and to write only where it may. -/
def Allowed (session : Session) : Call → Prop
  | allocate .. => True
  | reallocate address .. => ∀ old ∈ address, old ∈ session.live.map Prod.fst
  | free address => address ∈ session.live.map Prod.fst
  | clear => True
  | trim => True
  | write address offset content => address ∈ session.live.map Prod.fst ∧
    ∃ usable, session.list.usableSize address = .ok usable ∧ offset + content.length ≤ usable

/-- The addresses whose payloads a call is about. -/
def Touches : Call → Nat → Prop
  | reallocate address .., other => address = some other
  | free address, other => address = other
  | write address .., other => address = other
  | clear, _ => True
  | _, _ => False

/-- What a call does. It may answer with an address. -/
def run [Size.Paging] : Call → Procedure (Machine × SegregatedList) (Option Nat)
  | allocate size zero => some <$> SegregatedList.allocate size zero
  | reallocate address size zero => some <$> SegregatedList.reallocate address size zero
  | free address => (fun _ => none) <$> SegregatedList.free address
  | clear => (fun _ => none) <$> SegregatedList.clear
  | trim => (fun _ => none) <$> SegregatedList.trim
  | write address offset content =>
    (fun _ => none) <$> SegregatedList.write address offset content

/-- The live addresses after a call that succeeded. -/
def record (live : List (Nat × Nat)) : Call → Option Nat → List (Nat × Nat)
  | allocate size _, some address => (address, size) :: live
  | reallocate old size _, some address =>
    (address, size) :: live.filter fun entry => some entry.1 ≠ old
  | free address, _ => live.filter fun entry => entry.1 ≠ address
  | clear, _ => []
  | _, _ => live

end Call

namespace Session

/-- The session after a call. A call that does not succeed leaves the live addresses as they
were. -/
def after [Size.Paging] (session : Session) (environment : Environment) (call : Call) : Session :=
  session.turn call.run (call.record session.live) environment

/-- The sessions that began with an empty list. Between the calls others may use the machine, as
long as they leave the chunks of the list alone. -/
inductive Reachable [Size.Paging] : Session → Prop where
  | start (machine : Machine) : Reachable ⟨machine, .empty, []⟩
  | step {session : Session} (before : Reachable session) (environment : Environment)
      (fits : environment.FitsAddresses) (call : Call) (allowed : call.Allowed session) :
      Reachable (session.after environment call)
  | others {session : Session} {machine : Machine} (before : Reachable session)
      (held : session.list.StaysMapped session.machine machine) :
      Reachable { session with machine := machine }

/-- What holds of a session between two calls: the list is sound, and every live address is that of
a block in use, which has the size that was asked for. -/
structure Sound [Size.Paging] (session : Session) : Prop where
  list : SegregatedList.Sound session.machine session.list
  distinct : (session.live.map Prod.fst).Nodup
  held : ∀ address size, (address, size) ∈ session.live →
    ∃ ref, address = ref.payload ∧ session.list.Holds ref size

/-- After a call the session is sound, and the live addresses that the call is not about are still
live; their blocks are none of those that were touched. -/
structure Keeps [Size.Paging] (session : Session) (call : Call) (after : Session) : Prop where
  sound : after.Sound
  others : ∃ touched, Evolves touched session.list after.list ∧
    ∀ entry ∈ session.live, ¬ call.Touches entry.1 →
      entry ∈ after.live ∧ ∀ ref ∈ touched, entry.1 ≠ ref.payload

variable {environment : Environment} {machine machine' : Machine} {list list' : SegregatedList}
  {live live' : List (Nat × Nat)} {session : Session} {touched : Set BlockRef} {ref : BlockRef}
  {size : Nat}

/-- Trimming leaves the live addresses as they are, whatever comes of it. -/
theorem after_trim {result : Except Stop Nat}
    (hrun : SegregatedList.trim environment (session.machine, session.list) =
      (result, machine', list')) :
    session.after environment .trim = ⟨machine', list', session.live⟩ := by
  cases result with
  | error reason => exact Session.turn_error hrun
  | ok bytes => exact Session.turn_ok hrun

namespace Sound

/-- Live addresses of blocks that were not touched stay live. -/
theorem kept (h : session.Sound) (hsound : SegregatedList.Sound machine' list')
    (hevolves : Evolves touched session.list list') (hsub : live'.Sublist session.live)
    (hother : ∀ entry ∈ live', ∀ ref ∈ touched, entry.1 ≠ ref.payload) :
    Sound ⟨machine', list', live'⟩ where
  list := hsound
  distinct := h.distinct.sublist (hsub.map Prod.fst)
  held address size hmem := by
    obtain ⟨ref, rfl, index, usable, huses, hle⟩ := h.held address size (hsub.subset hmem)
    exact ⟨ref, rfl, index, usable, hevolves.stays index ref usable huses
      fun hin => hother _ hmem ref hin rfl, hle⟩

/-- An address that nobody holds can be recorded. -/
theorem gained (h : Sound ⟨machine, list, live⟩) (hholds : list.Holds ref size)
    (hnew : ∀ entry ∈ live, entry.1 ≠ ref.payload) :
    Sound ⟨machine, list, (ref.payload, size) :: live⟩ where
  list := h.list
  distinct := by
    refine List.nodup_cons.2 ⟨?_, h.distinct⟩
    intro hmem
    obtain ⟨entry, hentry, heq⟩ := List.mem_map.1 hmem
    exact hnew entry hentry heq
  held address asked hmem := by
    rcases List.mem_cons.1 hmem with heq | hold
    · obtain ⟨rfl, rfl⟩ := Prod.mk.inj heq
      exact ⟨ref, rfl, hholds⟩
    · exact h.held address asked hold

/-- A block that was not in use has the address of none that was and stayed in use. -/
theorem ne_of_unused (h : session.Sound) (hsound : SegregatedList.Sound machine' list')
    (hevolves : Evolves touched session.list list') (hholds : list'.Holds ref size)
    (hunused : session.list.Unused ref) {entry : Nat × Nat} (hentry : entry ∈ session.live)
    (hother : ∀ ref ∈ touched, entry.1 ≠ ref.payload) : entry.1 ≠ ref.payload := by
  intro heq
  obtain ⟨old, hold, index, usable, huses, -⟩ := h.held entry.1 entry.2 hentry
  obtain ⟨i, found, hfound, -⟩ := hholds
  have hstays := hevolves.stays index old usable huses fun hin => hother old hin hold
  obtain rfl := hsound.eq_of_payload hstays hfound (hold.symm.trans heq)
  exact hunused index usable huses

/-- Where no block is touched, all addresses stay live. -/
theorem keeps_all (h : session.Sound) (hsound : SegregatedList.Sound machine' list')
    (hevolves : Evolves ∅ session.list list') (call : Call) :
    session.Keeps call ⟨machine', list', session.live⟩ :=
  ⟨h.kept hsound hevolves (List.Sublist.refl _) (by simp), ∅, hevolves,
    fun _ hentry _ => ⟨hentry, by simp⟩⟩

/-- A live address is the payload of a block in use. -/
theorem exists_uses (h : session.Sound) {address : Nat}
    (hlive : address ∈ session.live.map Prod.fst) :
    ∃ (ref : BlockRef) (index : Fin categoryCount) (usable : Nat), address = ref.payload ∧
      (session.list.category index).Uses ref usable := by
  obtain ⟨⟨_, asked⟩, hmem, rfl⟩ := List.mem_map.1 hlive
  obtain ⟨ref, rfl, index, usable, huses, -⟩ := h.held _ asked hmem
  exact ⟨ref, index, usable, rfl, huses⟩

/-- What a caller may write lies in the payload of a block in use. -/
theorem exists_uses_of_write (h : session.Sound) {address offset : Nat}
    {content : Stretch BlockHeader} (allowed : (Call.write address offset content).Allowed session) :
    ∃ (ref : BlockRef) (index : Fin categoryCount) (usable : Nat), address = ref.payload ∧
      (session.list.category index).Uses ref usable ∧ offset + content.length ≤ usable := by
  obtain ⟨hlive, usable, husable, hfits⟩ := allowed
  obtain ⟨ref, index, room, rfl, huses⟩ := h.exists_uses hlive
  rw [h.list.usableSize_eq huses] at husable
  exact ⟨ref, index, room, rfl, huses, Except.ok.inj husable ▸ hfits⟩

/-- Allocating records an address that was not live and touches no block. -/
theorem step_allocate (h : session.Sound) (fits : environment.FitsAddresses) {call : Call}
    {zero : Bool} (hcall : call.run = some <$> SegregatedList.allocate size zero)
    (hrecord : ∀ address, call.record session.live (some address) = (address, size) :: session.live) :
    session.Keeps call (session.after environment call) := by
  obtain ⟨result, machine', after, hrun, hsound, hevolves, -, -, hnew⟩ :=
    h.list.allocate fits size zero
  cases result with
  | error reason =>
    rw [Session.after, hcall, Session.turn_error hrun]
    exact h.keeps_all hsound hevolves call
  | ok address =>
    obtain ⟨ref, usable, rfl, hobtains⟩ := hnew address rfl
    have hkept := h.kept hsound hevolves (List.Sublist.refl _) (by simp)
    rw [Session.after, hcall, Session.turn_ok hrun, hrecord]
    refine ⟨hkept.gained hobtains.holds ?_, ∅, hevolves, fun entry hentry _ =>
      ⟨List.mem_cons_of_mem _ hentry, by simp⟩⟩
    intro entry hentry
    exact h.ne_of_unused hsound hevolves hobtains.holds hobtains.unused hentry (by simp)

/-- Reallocating touches the block of the address that it is given, and records where the payload
is. -/
theorem step_reallocate (h : session.Sound) (fits : environment.FitsAddresses) {address : Nat}
    (hlive : address ∈ session.live.map Prod.fst) (size : Nat) (zero : Bool) :
    session.Keeps (.reallocate (some address) size zero)
      (session.after environment (.reallocate (some address) size zero)) := by
  obtain ⟨ref, index, usable, rfl, huses⟩ := h.exists_uses hlive
  obtain ⟨result, machine', after, hrun, hsound, -, herror, hok⟩ :=
    h.list.reallocate fits huses size zero
  cases result with
  | error reason =>
    rw [Session.after, Call.run, Session.turn_error hrun]
    exact h.keeps_all hsound (herror reason rfl).1 _
  | ok address =>
    obtain ⟨hevolves, payload, target, room, hpayload, rfl, hresizes⟩ := hok address rfl
    have hholds : after.Holds target size := ⟨_, room, hresizes.uses,
      (valid_of_payloadSize?_eq_some hpayload).1.trans hresizes.enough⟩
    have hother : ∀ entry ∈ session.live.filter fun entry => some entry.1 ≠ some ref.payload,
        ∀ touched ∈ ({ref} : Set BlockRef), entry.1 ≠ touched.payload := by
      rintro entry hentry _ rfl heq
      exact of_decide_eq_true (List.mem_filter.1 hentry).2 (congrArg some heq)
    have hkept := h.kept hsound hevolves List.filter_sublist hother
    rw [Session.after, Call.run, Session.turn_ok hrun]
    refine ⟨hkept.gained hholds ?_, {ref}, hevolves, ?_⟩
    · intro entry hentry
      -- the address that is answered is the old one or that of a block nobody had
      rcases hresizes.place with rfl | hunused
      · exact hother entry hentry target rfl
      · exact h.ne_of_unused hsound hevolves hholds hunused (List.mem_filter.1 hentry).1
          (hother entry hentry)
    · intro entry hentry huntouched
      have hne : some entry.1 ≠ some ref.payload := fun heq => huntouched heq.symm
      have hstays : entry ∈ session.live.filter fun entry => some entry.1 ≠ some ref.payload :=
        List.mem_filter.2 ⟨hentry, decide_eq_true hne⟩
      exact ⟨List.mem_cons_of_mem _ hstays, hother entry hstays⟩

/-- Freeing takes one address off the record and touches its block only. -/
theorem step_free (h : session.Sound) {address : Nat}
    (hlive : address ∈ session.live.map Prod.fst) (environment : Environment) :
    session.Keeps (.free address) (session.after environment (.free address)) := by
  obtain ⟨ref, index, usable, rfl, huses⟩ := h.exists_uses hlive
  obtain ⟨machine', after, hrun, hsound, hevolves, -⟩ := h.list.free huses environment
  have hother : ∀ entry ∈ session.live.filter fun entry => entry.1 ≠ ref.payload,
      ∀ touched ∈ ({ref} : Set BlockRef), entry.1 ≠ touched.payload := by
    rintro entry hentry _ rfl
    exact of_decide_eq_true (List.mem_filter.1 hentry).2
  rw [Session.after, Call.run, Session.turn_ok hrun]
  refine ⟨h.kept hsound hevolves List.filter_sublist hother, {ref}, hevolves, ?_⟩
  intro entry hentry huntouched
  have hne : entry.1 ≠ ref.payload := fun heq => huntouched heq.symm
  have hstays : entry ∈ session.live.filter fun entry => entry.1 ≠ ref.payload :=
    List.mem_filter.2 ⟨hentry, decide_eq_true hne⟩
  exact ⟨hstays, hother entry hstays⟩

/-- Clearing takes all addresses off the record. -/
theorem step_clear (h : session.Sound) (environment : Environment) :
    session.Keeps .clear (session.after environment .clear) := by
  obtain ⟨after, hrun, hsound, -⟩ := h.list.clear environment
  rw [Session.after, Call.run, Session.turn_ok hrun]
  exact ⟨⟨hsound, List.nodup_nil, by simp [Call.record]⟩, Set.univ, Evolves.univ ..,
    fun _ _ huntouched => absurd trivial huntouched⟩

/-- Trimming leaves the record and all blocks in use alone. -/
theorem step_trim (h : session.Sound) (environment : Environment) :
    session.Keeps .trim (session.after environment .trim) := by
  obtain ⟨result, machine', after, hrun, hsound, hevolves, -⟩ := h.list.trim environment
  rw [after_trim hrun]
  exact h.keeps_all hsound hevolves _

/-- Writing leaves all blocks in use, the one that is written to among them. -/
theorem step_write (h : session.Sound) {address offset : Nat} {content : Stretch BlockHeader}
    (allowed : (Call.write address offset content).Allowed session) (environment : Environment) :
    session.Keeps (.write address offset content)
      (session.after environment (.write address offset content)) := by
  obtain ⟨ref, index, usable, rfl, huses, hfits⟩ := h.exists_uses_of_write allowed
  obtain ⟨after, hrun, hsound, hevolves, hinUse, -⟩ := h.list.write huses hfits environment
  rw [Session.after, Call.run, Session.turn_ok hrun]
  refine ⟨⟨hsound, h.distinct, ?_⟩, {ref}, hevolves,
    fun entry hentry huntouched => ⟨hentry, ?_⟩⟩
  · intro place asked hmem
    obtain ⟨other, rfl, i, size, hother, hsize⟩ := h.held place asked hmem
    exact ⟨other, rfl, i, size, uses_of_inUse_eq hinUse hother, hsize⟩
  · rintro _ rfl heq
    exact huntouched heq.symm

/-- Every call leaves a session sound, whatever comes of it, and keeps the blocks that it is not
about. -/
theorem step (h : session.Sound) (fits : environment.FitsAddresses) {call : Call}
    (allowed : call.Allowed session) : session.Keeps call (session.after environment call) := by
  cases call with
  | allocate size zero => exact h.step_allocate fits rfl fun _ => rfl
  | reallocate address size zero =>
    cases address with
    | none => exact h.step_allocate fits rfl fun _ => by simp [Call.record]
    | some address => exact h.step_reallocate fits (allowed address rfl) size zero
  | free address => exact h.step_free allowed environment
  | clear => exact h.step_clear environment
  | trim => exact h.step_trim environment
  | write address offset content => exact h.step_write allowed environment

end Sound

/-- By induction over the calls: every reachable session is sound. -/
theorem Reachable.sound (h : session.Reachable) : session.Sound := by
  induction h with
  | start machine => exact ⟨SegregatedList.Sound.empty machine, List.nodup_nil, by simp⟩
  | step before environment fits call allowed ih => exact (ih.step fits allowed).sound
  | others before held ih => exact ⟨ih.list.of_machine held, ih.distinct, ih.held⟩

end Session

end PagedAlloc.SegregatedList
