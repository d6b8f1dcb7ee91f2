import PagedAlloc.Proofs.FixedSteps

/-!
# Sessions with a fixed list

A caller of a fixed list holds the addresses of the blocks that were handed out and not given back.
A session is the machine, the list and these live addresses. The caller promises to name only live
addresses and to write only into their blocks (`Call.Allowed`).

Main statements: `Session.Reachable.sound`, the live addresses are those of the blocks in use, and
`Session.Leads.kept`, calls that are about other blocks leave a live block with what it holds.
-/

namespace PagedAlloc.FixedList

variable {paging : Size.Paging}

open Procedure

/-- The calls of a caller, and writes into blocks. -/
inductive Call where
  | allocate (size : Nat)
  | free (address : Nat)
  | clear
  | write (address offset : Nat) (content : Stretch FreeLink)

/-- The machine, the list, and the live addresses. -/
abbrev Session := PagedAlloc.Session FixedList Nat

namespace Call

/-- What a caller promises: to name live addresses only, and to write only into blocks. -/
def Allowed (session : Session) : Call → Prop
  | allocate _ => True
  | free address => address ∈ session.live
  | clear => True
  | write address offset content =>
    address ∈ session.live ∧ offset + content.length ≤ session.list.blockSize

/-- The addresses whose blocks a call is about. -/
def Touches : Call → Nat → Prop
  | allocate _, _ => False
  | free address, other => other = address
  | clear, _ => True
  | write address .., other => other = address

/-- What a call does. It may answer with an address. -/
def run [Size.Paging] : Call → Procedure (Machine × FixedList) (Option Nat)
  | allocate size => some <$> FixedList.allocate size
  | free address => (fun _ => none) <$> FixedList.free address
  | clear => (fun _ => none) <$> FixedList.clear
  | write address offset content => (fun _ => none) <$> FixedList.write address offset content

/-- The live addresses after a call that succeeded. -/
def record (live : List Nat) : Call → Option Nat → List Nat
  | allocate _, some address => address :: live
  | free address, _ => live.erase address
  | clear, _ => []
  | _, _ => live

end Call

namespace Session

/-- The session with a list that was just made. -/
def start [Size.Paging] (config : FixedConfig) (environment : Environment) (machine : Machine) :
    Except Stop Session :=
  match ofConfig config environment machine with
  | (.ok list, machine) => .ok ⟨machine, list, []⟩
  | (.error reason, _) => .error reason

/-- The session after a call. A call that does not succeed leaves the live addresses as they
were. -/
def after [Size.Paging] (session : Session) (environment : Environment) (call : Call) : Session :=
  session.turn call.run (call.record session.live) environment

/-- Sessions that follow on a session, by calls that are none of the `excluded` ones. Between the
calls others may use the machine, and leave the chunks of the list alone. -/
inductive Leads [Size.Paging] (excluded : Call → Prop) (first : Session) : Session → Prop where
  | refl : Leads excluded first first
  | step {session : Session} (before : Leads excluded first session) (environment : Environment)
      (call : Call) (allowed : call.Allowed session) (other : ¬ excluded call) :
      Leads excluded first (session.after environment call)
  | others {session : Session} {machine : Machine} (before : Leads excluded first session)
      (held : session.list.StaysMapped session.machine machine) :
      Leads excluded first { session with machine := machine }

/-- The sessions of all lists that can be made, after any calls. -/
def Reachable [Size.Paging] (session : Session) : Prop :=
  ∃ config environment machine first, start config environment machine = .ok first ∧
    Leads (fun _ => False) first session

/-- What holds of a session between two calls: the list is sound, and the live addresses are those
of the blocks in use. -/
structure Sound [Size.Paging] (session : Session) : Prop where
  list : FixedList.Sound session.machine session.list
  distinct : session.live.Nodup
  live : ∀ address, address ∈ session.live ↔ session.list.Uses address

/-- After a call the session is sound, and the live addresses that the call is not about are live
and hold what they held. -/
structure Keeps [Size.Paging] (session : Session) (call : Call) (after : Session) : Prop where
  sound : after.Sound
  kept : ∀ address ∈ session.live, ¬ call.Touches address →
    address ∈ after.live ∧ after.list.contents address = session.list.contents address

variable {environment : Environment} {machine machine' : Machine} {list list' : FixedList}
  {session first : Session} {call : Call} {touched : Nat → Prop} {address : Nat}

/-! ## What one call keeps -/

namespace Sound

/-- Others may use the machine as long as the chunks stay in its books. -/
theorem of_machine (h : session.Sound) {machine : Machine}
    (held : session.list.StaysMapped session.machine machine) :
    Sound { session with machine := machine } :=
  { h with list := h.list.of_machine held }

theorem of_start {config : FixedConfig} (hstart : start config environment machine = .ok session) :
    session.Sound := by
  rw [start] at hstart
  cases hmade : ofConfig config environment machine with
  | mk result machine' =>
    rw [hmade] at hstart
    cases result with
    | error reason => cases hstart
    | ok list =>
      obtain rfl := Except.ok.inj hstart
      obtain ⟨hsound, hnone⟩ := sound_ofConfig hmade
      exact ⟨hsound, List.nodup_nil, fun address => by simp [hnone address]⟩

/-- Where blocks evolve, the live blocks that are not touched hold what they held. -/
theorem kept (h : session.Sound) (hevolves : Evolves touched session.list list')
    (hlive : address ∈ session.live) (hother : ¬ touched address) :
    list'.contents address = session.list.contents address :=
  hevolves.contents address hother ((h.live address).1 hlive)

/-- An allocation gives an address that was not live, or fails. -/
theorem step_allocate (h : session.Sound) (environment : Environment) (size : Nat) :
    session.Keeps (.allocate size) (session.after environment (.allocate size)) := by
  obtain ⟨result, machine', after, hrun, hsound, hcases⟩ := h.list.allocate environment size
  rcases hcases with ⟨⟨failure, rfl⟩, hevolves⟩ | ⟨address, rfl, hprovides⟩
  · rw [Session.after, Call.run, Session.turn_error hrun]
    refine ⟨⟨hsound, h.distinct, fun other => ?_⟩,
      fun other hlive _ => ⟨hlive, h.kept hevolves hlive not_false⟩⟩
    rw [h.live, hevolves.uses other not_false]
  · rw [Session.after, Call.run, Session.turn_ok hrun]
    have hnew : address ∉ session.live := fun hlive => hprovides.unused ((h.live address).1 hlive)
    refine ⟨⟨hsound, List.nodup_cons.2 ⟨hnew, h.distinct⟩, fun other => ?_⟩,
      fun other hlive _ => ⟨List.mem_cons_of_mem _ hlive,
        h.kept hprovides.evolves hlive fun heq => hnew (heq ▸ hlive)⟩⟩
    show other ∈ address :: session.live ↔ _
    rw [List.mem_cons, h.live]
    by_cases heq : other = address
    · simp [heq, hprovides.used]
    · simp [heq, hprovides.evolves.uses other heq]

/-- Giving back makes one address less live. -/
theorem step_free (h : session.Sound) (hlive : address ∈ session.live)
    (environment : Environment) :
    session.Keeps (.free address) (session.after environment (.free address)) := by
  obtain ⟨machine', after, hrun, hsound, hevolves, hunused⟩ :=
    h.list.free ((h.live address).1 hlive) environment
  rw [Session.after, Call.run, Session.turn_ok hrun]
  have hmem : ∀ other, other ∈ session.live.erase address ↔
      other ≠ address ∧ other ∈ session.live := fun other => h.distinct.mem_erase_iff
  refine ⟨⟨hsound, h.distinct.erase address, fun other => ?_⟩, fun other hother huntouched =>
    ⟨(hmem other).2 ⟨huntouched, hother⟩, h.kept hevolves hother huntouched⟩⟩
  refine (hmem other).trans ?_
  by_cases heq : other = address
  · simp [heq, hunused]
  · simp [heq, h.live, hevolves.uses other heq]

/-- Clearing makes no address live. -/
theorem step_clear (h : session.Sound) (environment : Environment) :
    session.Keeps .clear (session.after environment .clear) := by
  obtain ⟨after, hrun, hsound, -, -, hnone⟩ := h.list.clear environment
  rw [Session.after, Call.run, Session.turn_ok hrun]
  exact ⟨⟨hsound, List.nodup_nil, fun address => by simp [Call.record, hnone address]⟩,
    fun _ _ huntouched => absurd trivial huntouched⟩

/-- Writing into a live block leaves all others alone. -/
theorem step_write (h : session.Sound) {offset : Nat} {content : Stretch FreeLink}
    (allowed : (Call.write address offset content).Allowed session) (environment : Environment) :
    session.Keeps (.write address offset content)
      (session.after environment (.write address offset content)) := by
  obtain ⟨hlive, hfits⟩ := allowed
  have huses := (h.live address).1 hlive
  obtain ⟨after, hrun, hsound, hevolves, hused⟩ := h.list.write huses hfits environment
  rw [Session.after, Call.run, Session.turn_ok hrun]
  refine ⟨⟨hsound, h.distinct, fun other => ?_⟩, fun other hother huntouched =>
    ⟨hother, h.kept hevolves hother huntouched⟩⟩
  show other ∈ session.live ↔ _
  by_cases heq : other = address
  · simp [heq, hlive, hused]
  · rw [h.live, hevolves.uses other heq]

/-- Every call leaves a session sound, whatever comes of it, and keeps the blocks that it is not
about. -/
theorem step (h : session.Sound) (allowed : call.Allowed session) (environment : Environment) :
    session.Keeps call (session.after environment call) := by
  cases call with
  | allocate size => exact h.step_allocate environment size
  | free address => exact h.step_free allowed environment
  | clear => exact h.step_clear environment
  | write address offset content => exact h.step_write allowed environment

end Sound

/-! ## What all calls keep -/

/-- Wherever calls lead from a sound session, it is sound. -/
theorem Leads.sound {excluded : Call → Prop} (h : Leads excluded first session)
    (hfirst : first.Sound) : session.Sound := by
  induction h with
  | refl => exact hfirst
  | step before environment call allowed other ih => exact (ih.step allowed environment).sound
  | others before held ih => exact ih.of_machine held

namespace Reachable

theorem of_start {config : FixedConfig} (hstart : start config environment machine = .ok session) :
    session.Reachable :=
  ⟨config, environment, machine, session, hstart, .refl⟩

/-- One more allowed call leads on. -/
theorem step (h : session.Reachable) (environment : Environment) (call : Call)
    (allowed : call.Allowed session) : (session.after environment call).Reachable := by
  obtain ⟨config, place, machine, first, hstart, hleads⟩ := h
  exact ⟨config, place, machine, first, hstart, hleads.step environment call allowed not_false⟩

/-- Every session is sound. -/
theorem sound (h : session.Reachable) : session.Sound := by
  obtain ⟨config, environment, machine, first, hstart, hleads⟩ := h
  exact hleads.sound (Sound.of_start hstart)

end Reachable

/-- Until a call is about it, a live block stays live and holds what it held. -/
theorem Leads.kept (h : Leads (·.Touches address) first session) (hfirst : first.Sound)
    (hlive : address ∈ first.live) :
    address ∈ session.live ∧ session.list.contents address = first.list.contents address := by
  induction h with
  | refl => exact ⟨hlive, rfl⟩
  | step before environment call allowed other ih =>
    obtain ⟨hlive', hsame⟩ := ih
    obtain ⟨hstays, hcontents⟩ :=
      ((before.sound hfirst).step allowed environment).kept address hlive' other
    exact ⟨hstays, hcontents.trans hsame⟩
  | others before held ih => exact ih

end Session

end PagedAlloc.FixedList
