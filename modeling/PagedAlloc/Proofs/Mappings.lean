import Mathlib.Algebra.BigOperators.Group.Multiset.Basic
import PagedAlloc.Proofs.Chain
import PagedAlloc.Proofs.Outcomes

/-!
# Mappings

Each mapping that an allocator obtains is logged, and so is each one that it gives back. From the log
one can tell which mappings are open, unless one was given back that was not open (`openAfter`).

An allocator keeps its mappings as the chunks of its chains. A step of it accounts for its mappings if
what it logs leads from the ones that it had to the ones that it has, and if what others have stays in
the books (`Accounted`). Such steps compose (`Owner.Keeps`), so whatever is made of them accounts for
its mappings, whether it succeeds or stops.
-/

namespace PagedAlloc

variable {paging : Size.Paging}

/-- A range of pages as it was mapped. -/
structure Mapping where
  /-- Address of the first byte. -/
  address : Nat
  /-- Number of bytes. -/
  length : Nat
  deriving DecidableEq, Repr

/-- A mapping as the books know it. -/
def Mapping.holding (mapping : Mapping) : Holding := ⟨mapping.address, mapping.length, .pages false⟩

/-- A live region shares no address with any of some mappings. -/
def Holding.Avoids (holding : Holding) (mappings : Multiset Mapping) : Prop :=
  ∀ mapping ∈ mappings, holding.Apart mapping.holding

namespace Event

/-- The mapping that was obtained. -/
def obtained? : Event → Option Mapping
  | mapped length address => some ⟨address, length⟩
  | _ => none

/-- The mapping that was given back. -/
def returned? : Event → Option Mapping
  | unmapping length address => some ⟨address, length⟩
  | _ => none

/-- The open mappings after an event, from those before it. There are none if one was given back that
was not open. -/
def book (event : Event) (held : Multiset Mapping) : Option (Multiset Mapping) :=
  match event.obtained?, event.returned? with
  | some mapping, _ => some (mapping ::ₘ held)
  | none, some mapping => if mapping ∈ held then some (held.erase mapping) else none
  | none, none => some held

/-- No mapping was obtained or given back. -/
def Silent (event : Event) : Prop := event.obtained? = none ∧ event.returned? = none

/-- What was obtained or given back are whole pages. -/
def Whole [Size.Paging] (event : Event) : Prop :=
  ∀ mapping, event.obtained? = some mapping ∨ event.returned? = some mapping →
    Size.pageSize ∣ mapping.length

variable {event : Event} {held now : Multiset Mapping}

theorem Silent.whole (h : event.Silent) : event.Whole := by
  rintro mapping (hsome | hsome)
  · exact absurd (h.1.symm.trans hsome) (by simp)
  · exact absurd (h.2.symm.trans hsome) (by simp)

/-- An event that is about no mapping opens and closes none. -/
theorem Silent.book_eq (h : event.Silent) (held : Multiset Mapping) :
    event.book held = some held := by
  rw [book, h.1, h.2]

/-- An event gives nothing back but mappings at some addresses, and obtains nothing. -/
def GivesBack (addresses : List Nat) (event : Event) : Prop :=
  event.obtained? = none ∧ ∀ mapping ∈ event.returned?, mapping.address ∈ addresses

theorem Silent.givesBack (h : event.Silent) (addresses : List Nat) : event.GivesBack addresses :=
  ⟨h.1, fun mapping hmem => absurd (h.2.symm.trans hmem) (by simp)⟩

theorem book_mapped (length address : Nat) (held : Multiset Mapping) :
    (mapped length address).book held = some (⟨address, length⟩ ::ₘ held) := rfl

theorem book_unmapping {length address : Nat} (h : ⟨address, length⟩ ∈ held) :
    (unmapping length address).book held = some (held.erase ⟨address, length⟩) := if_pos h

/-- Other mappings do not matter. -/
theorem book_add (h : event.book held = some now) (rest : Multiset Mapping) :
    event.book (held + rest) = some (now + rest) := by
  unfold book at h ⊢
  split at h
  · rw [← Option.some.inj h, Multiset.cons_add]
  · split at h
    · rename_i hmem
      rw [if_pos (Multiset.mem_add.2 (Or.inl hmem)), ← Option.some.inj h,
        Multiset.erase_add_left_pos _ hmem]
    · cases h
  · rw [Option.some.inj h]

end Event

/-- The open mappings after some events, the latest first, from those before them. There are none if
one was given back that was not open. -/
def openAfter : List Event → Multiset Mapping → Option (Multiset Mapping)
  | [], held => some held
  | event :: earlier, held => (openAfter earlier held).bind event.book

/-- The mappings that were obtained in some events. -/
def obtained (events : List Event) : Multiset Mapping := ↑(events.filterMap Event.obtained?)

/-- The mappings that were given back in some events. -/
def returned (events : List Event) : Multiset Mapping := ↑(events.filterMap Event.returned?)

section Events

variable {events later earlier : List Event} {held middle now : Multiset Mapping}

/-- What is open after two stretches of a log is open after the second one, from what the first one
left. -/
theorem openAfter_append (hearlier : openAfter earlier held = some middle)
    (hlater : openAfter later middle = some now) : openAfter (later ++ earlier) held = some now := by
  induction later generalizing now with
  | nil =>
    rw [← Option.some.inj hlater]
    exact hearlier
  | cons event rest ih =>
    obtain ⟨between, hrest, hevent⟩ := Option.bind_eq_some_iff.1 hlater
    exact Option.bind_eq_some_iff.2 ⟨between, ih hrest, hevent⟩

/-- Mappings that a log does not name stay open. -/
theorem openAfter_add (h : openAfter events held = some now) (rest : Multiset Mapping) :
    openAfter events (held + rest) = some (now + rest) := by
  induction events generalizing now with
  | nil => rw [← Option.some.inj h, openAfter]
  | cons event earlier ih =>
    obtain ⟨between, hearlier, hevent⟩ := Option.bind_eq_some_iff.1 h
    exact Option.bind_eq_some_iff.2 ⟨_, ih hearlier, Event.book_add hevent rest⟩

/-- What was there or was obtained is still there or was given back. -/
theorem obtained_add (h : openAfter events held = some now) :
    held + obtained events = now + returned events := by
  induction events generalizing now with
  | nil => rw [← Option.some.inj h, obtained, returned, List.filterMap_nil, List.filterMap_nil]
  | cons event earlier ih =>
    obtain ⟨between, hearlier, hevent⟩ := Option.bind_eq_some_iff.1 h
    have hbefore := ih hearlier
    unfold Event.book at hevent
    simp only [obtained, returned, List.filterMap_cons] at hbefore ⊢
    split at hevent
    · rename_i mapping hobtained
      have hreturned : event.returned? = none := by
        cases event <;> first | rfl | cases hobtained
      simp only [hobtained, hreturned, ← Option.some.inj hevent, ← Multiset.cons_coe,
        Multiset.add_cons, Multiset.cons_add, hbefore]
    · rename_i mapping hobtained hreturned
      split at hevent
      · rename_i hmem
        simp only [hobtained, hreturned, ← Option.some.inj hevent, ← Multiset.cons_coe,
          Multiset.add_cons, ← Multiset.cons_add, Multiset.cons_erase hmem, hbefore]
      · cases hevent
    · rename_i hobtained hreturned
      simp only [hobtained, hreturned, ← Option.some.inj hevent, hbefore]

/-- What is returned in two stretches of a log is what each one returns. -/
theorem returned_append (later earlier : List Event) :
    returned (later ++ earlier) = returned later + returned earlier := by
  rw [returned, List.filterMap_append]
  rfl

theorem obtained_eq_zero (h : ∀ event ∈ events, event.obtained? = none) : obtained events = 0 := by
  rw [obtained, List.filterMap_eq_nil_iff.2 h]
  rfl

end Events

/-- After a history of events the open mappings are these, and all that was obtained or given back
were whole pages. -/
structure Conserves [Size.Paging] (history : List Event) (mappings : Multiset Mapping) : Prop where
  opens : openAfter history 0 = some mappings
  whole : ∀ event ∈ history, event.Whole

/-- A history is conserved to its end, and if the end was reached, then everything that was obtained
was given back. -/
structure Closes [Size.Paging] (history : List Event) (result : Except Stop Unit)
    (mappings : Multiset Mapping) : Prop where
  conserves : Conserves history mappings
  none : result = .ok () → mappings = 0
  balanced : result = .ok () → obtained history = returned history

/-- A history that ends with no mapping left is closed. -/
theorem Conserves.closes {history : List Event} {mappings : Multiset Mapping}
    {result : Except Stop Unit} (h : Conserves history mappings)
    (hnone : result = .ok () → mappings = 0) : Closes history result mappings := by
  refine ⟨h, hnone, fun hdone => ?_⟩
  have hbalance := obtained_add h.opens
  rwa [hnone hdone, zero_add, zero_add] at hbalance

/-! ## Accounting for mappings -/

/-- The events that were logged since an earlier state of the machine, the latest first. -/
def Machine.since (after before : Machine) : List Event :=
  after.log.take (after.log.length - before.log.length)

theorem Machine.since_eq {before after : Machine} {events : List Event}
    (h : after.log = events ++ before.log) : after.since before = events := by
  rw [since, h, List.length_append, Nat.add_sub_cancel, List.take_left]

/-- What was logged since the start is what was logged in both steps. -/
theorem Machine.since_trans {first second third : Machine}
    (h : second.log = second.since first ++ first.log)
    (h' : third.log = third.since second ++ second.log) :
    third.since first = third.since second ++ second.since first := by
  refine since_eq ?_
  rw [List.append_assoc, ← h, ← h']

/-- What was logged from one state of the machine to another leads from some mappings to others, and
is about whole pages. Other regions stay in the books, and beside the mappings. -/
structure Accounted [Size.Paging] (before after : Machine)
    (held now : Multiset Mapping) : Prop where
  log : after.log = after.since before ++ before.log
  opens : openAfter (after.since before) held = some now
  whole : ∀ event ∈ after.since before, event.Whole
  spares : ∀ holding ∈ before.ledger, holding.Avoids held →
    holding ∈ after.ledger ∧ holding.Avoids now

namespace Accounted

variable {first second third : Machine} {held middle now : Multiset Mapping}

/-- A step accounts for what its events open and close. -/
theorem of_events (events : List Event) (log : second.log = events ++ first.log)
    (opens : openAfter events held = some now) (whole : ∀ event ∈ events, event.Whole)
    (spares : ∀ holding ∈ first.ledger, holding.Avoids held →
      holding ∈ second.ledger ∧ holding.Avoids now) :
    Accounted first second held now := by
  obtain rfl := Machine.since_eq log
  exact ⟨log, opens, whole, spares⟩

theorem of_event {event : Event} (log : second.log = event :: first.log)
    (book : event.book held = some now) (whole : event.Whole)
    (spares : ∀ holding ∈ first.ledger, holding.Avoids held →
      holding ∈ second.ledger ∧ holding.Avoids now) : Accounted first second held now :=
  of_events [event] log book (by simpa using whole) spares

theorem refl (machine : Machine) (held : Multiset Mapping) : Accounted machine machine held held :=
  of_events [] rfl rfl (by simp) fun _ hheld havoids => ⟨hheld, havoids⟩

/-- Two steps account for what both of them open and close. -/
theorem trans (h : Accounted first second held middle) (h' : Accounted second third middle now) :
    Accounted first third held now := by
  refine of_events (third.since second ++ second.since first) ?_
    (openAfter_append h.opens h'.opens) (fun event hevent => ?_) fun holding hheld havoids => ?_
  · rw [List.append_assoc, ← h.log, ← h'.log]
  · rcases List.mem_append.1 hevent with hlater | hearlier
    · exact h'.whole event hlater
    · exact h.whole event hearlier
  · obtain ⟨hkept, hbeside⟩ := h.spares holding hheld havoids
    exact h'.spares holding hkept hbeside

theorem of_eq {now' : Multiset Mapping} (h : Accounted first second held now) (same : now' = now) :
    Accounted first second held now' := same ▸ h

theorem of_silent {event : Event} (silent : event.Silent) (machine : Machine)
    (held : Multiset Mapping) :
    Accounted machine { machine with log := event :: machine.log } held held :=
  of_event rfl (silent.book_eq held) silent.whole fun _ hheld havoids => ⟨hheld, havoids⟩

/-- A step from nothing conserves what it leaves open. -/
theorem conserves_since (h : Accounted first second 0 now) : Conserves (second.since first) now :=
  ⟨h.opens, h.whole⟩

/-- What is logged next goes on the history. -/
theorem conserves {history : List Event} (h : Accounted first second held now)
    (before : Conserves history held) : Conserves (second.since first ++ history) now :=
  ⟨openAfter_append before.opens h.opens, fun event hevent =>
    (List.mem_append.1 hevent).elim (h.whole event) (before.whole event)⟩

/-- Other mappings do not matter. -/
theorem add (h : Accounted first second held now) (rest : Multiset Mapping) :
    Accounted first second (held + rest) (now + rest) := by
  refine ⟨h.log, openAfter_add h.opens rest, h.whole, fun holding hheld havoids => ?_⟩
  obtain ⟨hkept, hbeside⟩ := h.spares holding hheld fun mapping hmem =>
    havoids mapping (Multiset.mem_add.2 (Or.inl hmem))
  refine ⟨hkept, fun mapping hmem => ?_⟩
  rcases Multiset.mem_add.1 hmem with hnow | hrest
  · exact hbeside mapping hnow
  · exact havoids mapping (Multiset.mem_add.2 (Or.inr hrest))

end Accounted

namespace Pages

variable {environment : Environment} {before after : Machine} {address length : Nat}

/-- A granted request opens its mapping. -/
theorem Granted.accounted (h : Granted environment before after address length)
    (whole : Size.pageSize ∣ length) (held : Multiset Mapping) :
    Accounted before after held (⟨address, length⟩ ::ₘ held) := by
  refine .of_event h.log (Event.book_mapped length address held) ?_ fun holding hheld havoids => ?_
  · rintro mapping (hsome | hsome)
    · rwa [← Option.some.inj hsome]
    · cases hsome
  · rw [h.ledger]
    exact ⟨List.mem_cons_of_mem _ hheld,
      Multiset.forall_mem_cons.2 ⟨h.vacant holding hheld, havoids⟩⟩

/-- A refused request opens none. -/
theorem Refused.accounted (h : Refused before after length) (held : Multiset Mapping) :
    Accounted before after held held := by
  have hspares : ∀ holding ∈ before.ledger, holding.Avoids held →
      holding ∈ after.ledger ∧ holding.Avoids held :=
    fun _ hheld havoids => ⟨h.ledger ▸ hheld, havoids⟩
  rcases h.log with hlog | hlog
  · exact .of_events [] hlog rfl (by simp) hspares
  · exact .of_event hlog (Event.Silent.book_eq ⟨rfl, rfl⟩ held) (Event.Silent.whole ⟨rfl, rfl⟩)
      hspares

/-- Giving an open mapping back closes it, even if the kernel refuses. -/
theorem accounted_unmap {held : Multiset Mapping} {result : Except Stop Unit}
    (hrun : unmap address length environment before = (result, after))
    (whole : Size.pageSize ∣ length) (isOpen : ⟨address, length⟩ ∈ held) :
    Accounted before after held (held.erase ⟨address, length⟩) := by
  obtain ⟨_, _, hunmap, hlog, -⟩ := unmap_cases environment before address length
  obtain ⟨rfl, rfl⟩ := Prod.mk.inj (hunmap.symm.trans hrun)
  refine .of_event (hlog.resolve_right fun h => h.1 whole) (Event.book_unmapping isOpen) ?_
    fun holding hheld havoids => ⟨mem_ledger_unmap before hheld (havoids _ isOpen) hrun,
      fun mapping hmem => havoids mapping (Multiset.mem_of_mem_erase hmem)⟩
  rintro mapping (hsome | hsome)
  · cases hsome
  · rwa [← Option.some.inj hsome]

end Pages

/-! ## Owners of mappings -/

/-- What owns mappings beside a machine, where it is in good order. -/
structure Owner (σ : Type) where
  mappings : σ → Multiset Mapping
  Good : Machine → σ → Prop
  of_log : ∀ {machine : Machine} {own : σ} (log : List Event),
    Good machine own → Good { machine with log := log } own

namespace Owner

open Procedure

variable {σ α β : Type} {owner : Owner σ}

/-- A step keeps what is in good order so, and accounts for the mappings. -/
def Keeps [Size.Paging] (owner : Owner σ) (before after : Machine × σ) : Prop :=
  owner.Good before.1 before.2 → owner.Good after.1 after.2 ∧
    Accounted before.1 after.1 (owner.mappings before.2) (owner.mappings after.2)

theorem Keeps.refl (state : Machine × σ) : owner.Keeps state state :=
  fun good => ⟨good, .refl ..⟩

/-- Steps that account for the mappings do so together. -/
theorem Keeps.trans {first second third : Machine × σ} (h : owner.Keeps first second)
    (h' : owner.Keeps second third) : owner.Keeps first third := by
  intro good
  obtain ⟨hmiddle, haccounted⟩ := h good
  obtain ⟨hlast, haccounted'⟩ := h' hmiddle
  exact ⟨hlast, haccounted.trans haccounted'⟩

variable {procedure : Procedure (Machine × σ) α} {next : α → Procedure (Machine × σ) β}

/-- What is done one after the other accounts for the mappings if each part does. -/
theorem keeps_bind (h : Follows owner.Keeps procedure)
    (hnext : ∀ value, Follows owner.Keeps (next value)) :
    Follows owner.Keeps (procedure >>= next) :=
  h.bind (fun _ _ _ first second => first.trans second) hnext

theorem keeps_unchanged (h : ∀ environment state, (procedure environment state).2 = state) :
    Follows owner.Keeps procedure :=
  Follows.of_unchanged Keeps.refl h

theorem keeps_pure (value : α) : Follows owner.Keeps (pure value : Procedure _ α) :=
  keeps_unchanged fun _ _ => rfl

theorem keeps_stop (reason : Stop) : Follows owner.Keeps (stop reason : Procedure _ α) :=
  keeps_unchanged fun _ _ => rfl

theorem keeps_own : Follows owner.Keeps own := keeps_unchanged fun _ _ => rfl

theorem keeps_checked (result : Except Fault α) :
    Follows owner.Keeps (checked result : Procedure _ α) := by
  cases result
  · exact keeps_stop ..
  · exact keeps_pure ..

theorem keeps_orFail (failure : Failure) (option : Option α) :
    Follows owner.Keeps (orFail failure option : Procedure _ α) := by
  cases option
  · exact keeps_stop ..
  · exact keeps_pure ..

theorem keeps_ensure {condition : Prop} [Decidable condition] (fault : Fault) :
    Follows owner.Keeps (ensure condition fault) := by
  rw [ensure]
  split
  · exact keeps_pure ..
  · exact keeps_stop ..

theorem keeps_map (h : Follows owner.Keeps procedure) (answer : α → β) :
    Follows owner.Keeps (answer <$> procedure) := by
  refine ⟨fun environment state => ?_⟩
  rw [map_state]
  exact h.holds environment state

theorem keeps_discard (h : Follows owner.Keeps procedure) :
    Follows owner.Keeps (discard procedure) := keeps_map h _

/-- A change of the allocator accounts for its mappings if it has the same ones after it. -/
theorem keeps_modifyOwn {change : σ → σ} (h : ∀ machine own, owner.Good machine own →
      owner.Good machine (change own) ∧ owner.mappings (change own) = owner.mappings own) :
    Follows owner.Keeps (modifyOwn change) := by
  refine ⟨fun environment state good => ?_⟩
  obtain ⟨hgood, hsame⟩ := h state.1 state.2 good
  rw [modifyOwn_apply]
  exact ⟨hgood, (Accounted.refl state.1 _).of_eq hsame⟩

theorem keeps_note {event : Event} (silent : event.Silent) : Follows owner.Keeps (note event) := by
  refine ⟨fun environment state good => ?_⟩
  rw [note_apply]
  exact ⟨owner.of_log _ good, .of_silent silent _ _⟩

end Owner

/-! ## Kinds of events -/

namespace Procedure

variable {σ α β : Type} {kind : Event → Prop}

/-- From one state to another only events of a kind are logged. -/
def Logs (kind : Event → Prop) (before after : Machine × σ) : Prop :=
  ∃ events, after.1.log = events ++ before.1.log ∧ ∀ event ∈ events, kind event

theorem logs_unchanged {procedure : Procedure (Machine × σ) α}
    (h : ∀ environment state, (procedure environment state).2.1 = state.1) :
    Follows (Logs kind) procedure :=
  ⟨fun environment state => ⟨[], by rw [h]; rfl, by simp⟩⟩

theorem logs_bind {procedure : Procedure (Machine × σ) α} {next : α → Procedure (Machine × σ) β}
    (h : Follows (Logs kind) procedure) (hnext : ∀ value, Follows (Logs kind) (next value)) :
    Follows (Logs kind) (procedure >>= next) := by
  refine h.bind (fun first second third => ?_) hnext
  rintro ⟨earlier, hearlier, hkind⟩ ⟨later, hlater, hkind'⟩
  refine ⟨later ++ earlier, by rw [hlater, hearlier, List.append_assoc], fun event hevent => ?_⟩
  exact (List.mem_append.1 hevent).elim (hkind' event) (hkind event)

theorem logs_note {event : Event} (h : kind event) :
    Follows (Logs kind) (note event : Procedure (Machine × σ) Unit) :=
  ⟨fun _ _ => ⟨[event], rfl, by simpa using h⟩⟩

theorem logs_checked (result : Except Fault α) :
    Follows (Logs kind) (checked result : Procedure (Machine × σ) α) :=
  logs_unchanged fun _ _ => by cases result <;> rfl

/-- What unmapping logs is that the pages are given back. -/
theorem logs_unmap {address length : Nat} (h : kind (.unmapping length address)) :
    Follows (Logs kind) (ask (Pages.unmap address length) : Procedure (Machine × σ) Unit) := by
  refine ⟨fun environment state => ?_⟩
  obtain ⟨result, after, hrun, hlog, -⟩ :=
    Pages.unmap_cases environment state.1 address length
  rw [ask_apply _ hrun]
  rcases hlog with hlog | ⟨-, hlog⟩
  · exact ⟨[_], hlog, by simpa using h⟩
  · exact ⟨[], hlog, by simp⟩

end Procedure

/-! ## Mappings in a chain -/

namespace Chain

variable {α : Type} {length : α → Nat} {chain : Chain α} {machine machine' : Machine}
  {address : Nat} {data data' : α}

/-- The nodes of a chain as mappings. -/
def mappings (length : α → Nat) (chain : Chain α) : Multiset Mapping :=
  ↑(chain.toList.map fun entry => (⟨entry.1, length entry.2⟩ : Mapping))

/-- The nodes of a chain are mappings of whole pages in the books, apart from each other. -/
structure Mapped [Size.Paging] (length : α → Nat) (machine : Machine) (chain : Chain α) : Prop where
  sequence : chain.IsSequence chain.toList
  whole : ∀ mapping ∈ chain.mappings length, 0 < mapping.length ∧ Size.pageSize ∣ mapping.length
  held : ∀ mapping ∈ chain.mappings length, mapping.holding ∈ machine.ledger
  apart : ∀ p ∈ chain.mappings length, ∀ q ∈ chain.mappings length,
    p = q ∨ p.holding.Apart q.holding

theorem mappings_empty (length : α → Nat) : mappings length (empty : Chain α) = 0 := rfl

theorem mapped_empty (length : α → Nat) (machine : Machine) :
    Mapped length machine (empty : Chain α) :=
  ⟨isSequence_empty, by simp [mappings_empty], by simp [mappings_empty], by simp [mappings_empty]⟩

/-- Each chunk is a mapping of its length. -/
theorem mem_mappings (length : α → Nat) (hmem : (address, data) ∈ chain.toList) :
    ⟨address, length data⟩ ∈ chain.mappings length :=
  Multiset.mem_coe.2 (List.mem_map.2 ⟨(address, data), hmem, rfl⟩)

namespace Mapped

/-- Mappings are those of the books that have them. -/
theorem of_held (h : Mapped length machine chain)
    (held : ∀ mapping ∈ chain.mappings length, mapping.holding ∈ machine'.ledger) :
    Mapped length machine' chain :=
  { h with held := held }

/-- Mappings outlive all changes of the books that leave them. -/
theorem of_stays (h : Mapped length machine chain)
    (held : chain.StaysMapped length machine.ledger machine'.ledger) :
    Mapped length machine' chain := by
  refine h.of_held fun mapping hmem => ?_
  have hheld := h.held mapping hmem
  obtain ⟨entry, hentry, rfl⟩ := List.mem_map.1 (Multiset.mem_coe.1 hmem)
  exact held entry hentry hheld

/-- The contents of a node may change, but not its length. -/
theorem put (h : Mapped length machine chain) (found : chain.get? address = some data)
    (same : length data' = length data) :
    Mapped length machine (chain.put address data') ∧
      (chain.put address data').mappings length = chain.mappings length := by
  have hmem := h.sequence.get?_eq_some_iff.1 found
  obtain ⟨front, back, hlist, hnew⟩ := h.sequence.toList_put_middle hmem data'
  have hsequence := h.sequence.put address data'
  rw [← h.sequence.toList_put] at hsequence
  have hsame : (chain.put address data').mappings length = chain.mappings length := by
    simp only [mappings, hlist, hnew, List.map_append, List.map_cons, same]
  exact ⟨⟨hsequence, hsame ▸ h.whole, hsame ▸ h.held, hsame ▸ h.apart⟩, hsame⟩

/-- No mapping is counted twice. -/
theorem nodup (h : Mapped length machine chain) : (chain.mappings length).Nodup :=
  Multiset.coe_nodup.2 <| List.Nodup.of_map Mapping.address (by
    rw [List.map_map]
    exact h.sequence.distinct)

section Granted

variable {environment : Environment} (h : Mapped length machine chain) (data : α)
  (granted : Pages.Granted environment machine machine' address (length data))

include h granted

/-- Pages that were just granted are not those of a node. -/
theorem absent : address ∉ chain.toList.map Prod.fst := by
  intro hmem
  obtain ⟨⟨place, other⟩, hentry, rfl⟩ := List.mem_map.1 hmem
  have hmapping := mem_mappings length hentry
  have hapart := granted.vacant _ (h.held _ hmapping)
  have hpositive := (h.whole _ hmapping).1
  have hnew := granted.positive
  simp only [Mapping.holding, Holding.stop] at hapart hpositive
  omega

/-- Whole pages that were granted may be chained. -/
theorem append (whole : Size.pageSize ∣ length data) :
    Mapped length machine' (chain.append address data) ∧
      (chain.append address data).mappings length =
        ⟨address, length data⟩ ::ₘ chain.mappings length := by
  have hsequence := h.sequence.append (h.absent data granted) data
  have hlist := hsequence.toList_eq
  have hmappings : (chain.append address data).mappings length =
      ⟨address, length data⟩ ::ₘ chain.mappings length := by
    rw [mappings, hlist, List.map_append, ← Multiset.coe_add, Multiset.add_comm]
    rfl
  -- the kernel places pages where nothing is held, so apart from all mappings of the chain
  have hvacant : ∀ mapping ∈ chain.mappings length,
      mapping.holding.Apart ⟨address, length data, .pages false⟩ := fun mapping hmem =>
    granted.vacant _ (h.held mapping hmem)
  refine ⟨⟨hlist ▸ hsequence, ?_, ?_, ?_⟩, hmappings⟩
  all_goals rw [hmappings]
  · exact Multiset.forall_mem_cons.2 ⟨⟨granted.positive, whole⟩, h.whole⟩
  · rw [granted.ledger]
    exact Multiset.forall_mem_cons.2 ⟨List.mem_cons_self .., fun mapping hmem =>
      List.mem_cons_of_mem _ (h.held mapping hmem)⟩
  · intro p hp q hq
    rcases Multiset.mem_cons.1 hp with rfl | hp <;> rcases Multiset.mem_cons.1 hq with rfl | hq
    · exact Or.inl rfl
    · exact Or.inr (hvacant q hq).symm
    · exact Or.inr (hvacant p hp)
    · exact h.apart p hp q hq

end Granted

/-- Any node may be taken out of the chain. -/
theorem remove (h : Mapped length machine chain) (hmem : (address, data) ∈ chain.toList) :
    Mapped length machine (chain.remove address) ∧
      (chain.remove address).mappings length =
        (chain.mappings length).erase ⟨address, length data⟩ := by
  obtain ⟨front, back, hlist, hrest, hsequence⟩ := h.sequence.toList_remove_middle hmem
  have hmiddle : chain.mappings length = ⟨address, length data⟩ ::ₘ
      (chain.remove address).mappings length := by
    rw [mappings, mappings, hlist, hrest, List.map_append, List.map_append, List.map_cons,
      Multiset.cons_coe]
    exact Multiset.coe_eq_coe.2 List.perm_middle
  have hold : ∀ mapping ∈ (chain.remove address).mappings length, mapping ∈ chain.mappings length :=
    fun mapping hin => hmiddle ▸ Multiset.mem_cons_of_mem hin
  refine ⟨⟨hsequence, fun p hp => h.whole p (hold p hp), fun p hp => h.held p (hold p hp),
    fun p hp q hq => h.apart p (hold p hp) q (hold q hq)⟩, ?_⟩
  rw [hmiddle, Multiset.erase_cons_head]

/-- Any node may be given back, maybe in vain, and taken out of the chain. -/
theorem unmap (h : Mapped length machine chain) (hmem : (address, data) ∈ chain.toList)
    {environment : Environment} {result : Except Stop Unit}
    (hrun : Pages.unmap address (length data) environment machine = (result, machine')) :
    Mapped length machine' (chain.remove address) ∧
      Accounted machine machine' (chain.mappings length)
        ((chain.remove address).mappings length) := by
  obtain ⟨hmapped, hmappings⟩ := h.remove hmem
  have hopen := mem_mappings length hmem
  refine ⟨hmapped.of_held fun mapping hrest => ?_,
    (Pages.accounted_unmap hrun (h.whole _ hopen).2 hopen).of_eq hmappings⟩
  rw [hmappings] at hrest
  obtain ⟨hother, hold⟩ := (h.nodup.mem_erase_iff).1 hrest
  exact Pages.mem_ledger_unmap machine (h.held mapping hold)
    ((h.apart mapping hold _ hopen).resolve_left hother) hrun

end Mapped

end Chain

end PagedAlloc
