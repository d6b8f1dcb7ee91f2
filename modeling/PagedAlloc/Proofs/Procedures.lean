import PagedAlloc.Machine.Pages
import PagedAlloc.Proofs.Ledger

/-!
# Running procedures

The outcome of each elementary procedure, so that a run is computed step by step with
`Procedure.bind_apply`, what a caller of a list makes of a run (`Session.turn`), and what a request
for pages does to the books of the machine (`Pages.map_cases`, `Pages.unmap_cases`).
-/

namespace PagedAlloc

variable {paging : Size.Paging}

namespace Procedure

variable {σ τ α β : Type} (environment : Environment)

/-- Looking at what is owned changes nothing. -/
@[simp]
theorem own_apply (state : Machine × τ) :
    (own : Procedure (Machine × τ) τ) environment state = (.ok state.2, state) := rfl

/-- Changing what is owned leaves the machine alone. -/
@[simp]
theorem modifyOwn_apply (change : τ → τ) (machine : Machine) (own : τ) :
    modifyOwn change environment (machine, own) = (.ok (), machine, change own) := rfl

@[simp]
theorem checked_ok (value : α) (state : σ) :
    checked (.ok value) environment state = (.ok value, state) := rfl

@[simp]
theorem checked_error (fault : Fault) (state : σ) :
    (checked (.error fault) : Procedure σ α) environment state = (.error (.fault fault), state) :=
  rfl

@[simp]
theorem orFail_some (failure : Failure) (value : α) (state : σ) :
    orFail failure (some value) environment state = (.ok value, state) := rfl

@[simp]
theorem orFail_none (failure : Failure) (state : σ) :
    (orFail failure none : Procedure σ α) environment state = (.error (.failure failure), state) :=
  rfl

/-- A note is added to the log, and nothing else happens. -/
@[simp]
theorem note_apply (event : Event) (machine : Machine) (own : τ) :
    note event environment (machine, own) =
      (.ok (), { machine with log := event :: machine.log }, own) := rfl

@[simp]
theorem emit_apply (event : Event) (machine : Machine) :
    emit event environment machine = (.ok (), { machine with log := event :: machine.log }) := rfl

@[simp]
theorem environment_apply (state : σ) :
    (Procedure.environment : Procedure σ Environment) environment state =
      (.ok environment, state) := rfl

/-- A condition that holds is passed without a trace. -/
theorem ensure_apply {condition : Prop} [Decidable condition] (h : condition) (fault : Fault)
    (state : σ) : ensure condition fault environment state = (.ok (), state) := by
  rw [ensure, if_pos h]
  rfl

/-- A condition that does not hold stops the procedure before anything is changed. -/
theorem ensure_apply_not {condition : Prop} [Decidable condition] (h : ¬ condition) (fault : Fault)
    (state : σ) : ensure condition fault environment state = (.error (.fault fault), state) := by
  rw [ensure, if_neg h]
  rfl

/-- Asking the machine leaves what is owned alone. -/
theorem ask_apply {procedure : Procedure Machine α} {machine after : Machine}
    {result : Except Stop α} (h : procedure environment machine = (result, after)) (own : τ) :
    ask procedure environment (machine, own) = (result, after, own) := by
  rw [ask, within, h]

/-- An attempt at what succeeds gives its value. -/
theorem attempt_ok {procedure : Procedure σ α} {state after : σ} {value : α}
    (h : procedure environment state = (.ok value, after)) :
    attempt procedure environment state = (.ok (.ok value), after) := by
  rw [attempt, h]

/-- An attempt makes a value of a failure, and keeps the state that the failure left. -/
theorem attempt_failure {procedure : Procedure σ α} {state after : σ} {failure : Failure}
    (h : procedure environment state = (.error (.failure failure), after)) :
    attempt procedure environment state = (.ok (.error failure), after) := by
  rw [attempt, h]

/-- A fault is not caught by an attempt. -/
theorem attempt_fault {procedure : Procedure σ α} {state after : σ} {fault : Fault}
    (h : procedure environment state = (.error (.fault fault), after)) :
    attempt procedure environment state = (.error (.fault fault), after) := by
  rw [attempt, h]

/-- A run with a rephrased answer is the same run. -/
theorem map_apply {procedure : Procedure σ α} {state after : σ} {result : Except Stop α}
    (f : α → β) (h : procedure environment state = (result, after)) :
    (f <$> procedure) environment state = (result.map f, after) := by
  show (procedure >>= fun value => pure (f value)) environment state = _
  rw [bind_apply, h]
  cases result <;> rfl

/-- Rephrasing an answer has no effect on the state. -/
theorem map_state (f : α → β) (procedure : Procedure σ α) (state : σ) :
    ((f <$> procedure) environment state).2 = (procedure environment state).2 := by
  rw [map_apply environment f rfl]

/-- A rephrased answer comes from an answer. -/
theorem ok_of_map {f : α → β} {procedure : Procedure σ α} {state : σ} {answer : β}
    (h : ((f <$> procedure) environment state).1 = .ok answer) :
    ∃ value, (procedure environment state).1 = .ok value ∧ f value = answer := by
  rw [map_apply environment f rfl] at h
  cases hresult : (procedure environment state).1 with
  | error reason =>
    rw [hresult] at h
    cases h
  | ok value =>
    rw [hresult] at h
    exact ⟨value, rfl, Except.ok.inj h⟩

theorem discard_apply_ok {procedure : Procedure σ α} {state after : σ} {value : α}
    (h : procedure environment state = (.ok value, after)) :
    (discard procedure) environment state = (.ok (), after) := by
  show (procedure >>= fun _ => pure ()) environment state = _
  rw [bind_apply_ok _ _ h]
  rfl

/-- Forgetting a value has no effect on the state. -/
theorem discard_state (procedure : Procedure σ α) (state : σ) :
    ((discard procedure : Procedure σ Unit) environment state).2 =
      (procedure environment state).2 := by
  show ((procedure >>= fun _ => pure ()) environment state).2 = _
  rw [bind_apply]
  split <;> rename_i heq <;> rw [heq]
  rfl

end Procedure

/-! ## Callers -/

/-- The machine, a list that a caller uses, and an entry for each address that is live. -/
structure Session (σ ε : Type) where
  machine : Machine
  list : σ
  live : List ε

namespace Session

variable {σ ε α : Type} {environment : Environment} {session : Session σ ε} {machine : Machine}
  {list : σ} {record : Option Nat → List ε} {procedure : Procedure (Machine × σ) α}
  {answer : α → Option Nat}

/-- The session after a run, which may answer with an address. A run that does not succeed leaves the
live addresses as they were, whatever it did to the list. -/
def turn (session : Session σ ε) (run : Procedure (Machine × σ) (Option Nat))
    (record : Option Nat → List ε) (environment : Environment) : Session σ ε :=
  match run environment (session.machine, session.list) with
  | (.ok answer, machine, list) => ⟨machine, list, record answer⟩
  | (.error _, machine, list) => ⟨machine, list, session.live⟩

/-- A turn that succeeds records its answer. -/
theorem turn_ok {value : α}
    (h : procedure environment (session.machine, session.list) = (.ok value, machine, list)) :
    session.turn (answer <$> procedure) record environment =
      ⟨machine, list, record (answer value)⟩ := by
  rw [turn, Procedure.map_apply _ answer h]
  rfl

/-- A turn that stops leaves the record of live addresses as it is. -/
theorem turn_error {reason : Stop}
    (h : procedure environment (session.machine, session.list) = (.error reason, machine, list)) :
    session.turn (answer <$> procedure) record environment = ⟨machine, list, session.live⟩ := by
  rw [turn, Procedure.map_apply _ answer h]
  rfl

/-- A turn leaves the machine and the list as its run does. -/
theorem turn_state (session : Session σ ε) (run : Procedure (Machine × σ) (Option Nat))
    (record : Option Nat → List ε) (environment : Environment) :
    ((session.turn run record environment).machine, (session.turn run record environment).list) =
      (run environment (session.machine, session.list)).2 := by
  rw [turn]
  rcases run environment (session.machine, session.list) with ⟨reason | answer, _⟩ <;> rfl

/-- What a run does to the list does not depend on how its answer is read. -/
theorem turn_list : (session.turn (answer <$> procedure) record environment).list =
    (procedure environment (session.machine, session.list)).2.2 := by
  have hstate := congrArg Prod.snd (session.turn_state (answer <$> procedure) record environment)
  rwa [Procedure.map_state] at hstate

end Session

namespace Size

theorem eq_of_add_eq_ok {a b sum : Nat} (h : add a b = .ok sum) : sum = a + b := by
  rw [add] at h
  split at h
  · exact (Except.ok.inj h).symm
  · cases h

theorem add_of_sub_eq_ok {a b rest : Nat} (h : sub a b = .ok rest) : rest + b = a := by
  rw [sub] at h
  split at h
  · rename_i hle
    rw [← Except.ok.inj h]
    exact Nat.sub_add_cancel hle
  · cases h

/-- Rounding up is checked by the sum, and nothing else of it can fail. -/
theorem roundUp_of_fits {value align : Nat} (positive : 0 < align) (fits : value + align < limit) :
    roundUp value align = .ok (roundDown (value + align - 1) align) := by
  have hone : 1 ≤ value + align := Nat.le_add_left_of_le positive
  simp only [roundUp, add, sub, if_pos fits, if_pos hone, bind, Except.bind, pure, Except.pure]

/-- Rounding up to the limit or beyond is refused, as the sum is. -/
theorem roundUp_of_large {value align : Nat} (large : limit ≤ value + align) :
    roundUp value align = .error .addition := by
  simp only [roundUp, add, if_neg (Nat.not_lt.2 large), bind, Except.bind]

/-- Rounding up never gives less. -/
theorem le_of_roundUp?_eq_some {value align rounded : Nat} (positive : 0 < align)
    (h : roundUp? value align = some rounded) : value ≤ rounded := by
  rw [roundUp?, Option.map_eq_some_iff] at h
  obtain ⟨sum, hsum, rfl⟩ := h
  rw [add?] at hsum
  split at hsum
  · have hmod := Nat.mod_lt sum positive
    obtain rfl := Option.some.inj hsum
    rw [roundDown]
    omega
  · cases hsum

theorem le_of_roundToPages?_eq_some {size length : Nat} (h : roundToPages? size = some length) :
    size ≤ length :=
  le_of_roundUp?_eq_some pageSize_pos h

/-- What is rounded up is a multiple of the alignment. -/
theorem dvd_of_roundUp?_eq_some {value align rounded : Nat}
    (h : roundUp? value align = some rounded) : align ∣ rounded := by
  rw [roundUp?, Option.map_eq_some_iff] at h
  obtain ⟨sum, -, rfl⟩ := h
  exact Nat.dvd_sub_mod sum

theorem dvd_of_roundToPages?_eq_some {size length : Nat} (h : roundToPages? size = some length) :
    pageSize ∣ length :=
  dvd_of_roundUp?_eq_some h

/-- A whole number of pages is not rounded. -/
theorem roundToPages?_of_dvd {length : Nat} (whole : pageSize ∣ length) :
    roundToPages? length = none ∨ roundToPages? length = some length := by
  rw [roundToPages?, roundUp?, add?]
  split
  · obtain ⟨count, rfl⟩ := whole
    refine Or.inr (congrArg some ?_)
    simp only [roundDown, Nat.mul_add_mod, Nat.mod_eq_of_lt (Nat.sub_lt pageSize_pos Nat.one_pos),
      Nat.add_sub_cancel]
  · exact Or.inl rfl

/-- Whole pages that can be named are below the limit. -/
theorem lt_limit_of_roundToPages?_eq_some {size length : Nat}
    (h : roundToPages? size = some length) : length < limit := by
  rw [roundToPages?, roundUp?, Option.map_eq_some_iff] at h
  obtain ⟨sum, hsum, rfl⟩ := h
  rw [add?] at hsum
  split at hsum
  · cases hsum
    exact Nat.lt_of_le_of_lt (Nat.sub_le ..) ‹_›
  · cases hsum

/-- A whole number of pages below the limit is not rounded. -/
theorem roundToPages?_eq_self {length : Nat} (whole : pageSize ∣ length) (small : length < limit) :
    roundToPages? length = some length := by
  have hpage : pageSize ≤ limit - length :=
    Nat.le_of_dvd (Nat.sub_pos_of_lt small) (Nat.dvd_sub pageSize_dvd_limit whole)
  have hsum : length + (pageSize - 1) < limit := by
    have hpositive := pageSize_pos
    omega
  refine (roundToPages?_of_dvd whole).resolve_left ?_
  rw [roundToPages?, roundUp?, add?, if_pos hsum]
  simp

theorem roundToPages?_zero [Paging] : roundToPages? 0 = some 0 :=
  roundToPages?_eq_self (Nat.dvd_zero _) (by decide)

end Size

/-- A region that is entered into the books lies where nothing was live. -/
theorem Machine.claim_cases (environment : Environment) (machine : Machine) {align : Nat}
    (positive : 0 < align) (length : Nat) (origin : Origin) :
    ∃ address after, claim align length origin environment machine = (.ok address, after) ∧
      align ∣ address ∧ machine.ledger.Vacant address (address + length) ∧
      after.ledger = ⟨address, length, origin⟩ :: machine.ledger ∧
      after.strays = machine.strays ∧ after.log = machine.log :=
  ⟨_, _, rfl, environment.place_aligned _ _ _ positive, environment.place_vacant _ _ _ positive,
    rfl, rfl, rfl⟩

/-- The machine after a request that named a region, one that it knows or a stray one. -/
def Machine.counted (machine : Machine) (known : Bool) : Machine :=
  { machine with strays := if known then machine.strays else machine.strays + 1 }

theorem Machine.countStray_apply (known : Bool) (environment : Environment) (machine : Machine) :
    countStray known environment machine = (.ok (), machine.counted known) := by
  cases known <;> rfl

namespace Pages

/-- The kernel granted pages: the books hold a new region where nothing was live. -/
structure Granted [Size.Paging] (environment : Environment) (before after : Machine)
    (address length : Nat) : Prop where
  granted : environment.grantsPages before.ledger length = true
  positive : 0 < length
  aligned : Size.pageSize ∣ address
  vacant : before.ledger.Vacant address (address + length)
  ledger : after.ledger = ⟨address, length, .pages false⟩ :: before.ledger
  strays : after.strays = before.strays
  log : after.log = .mapped length address :: before.log

/-- No pages were granted: the books are as they were, and at most the refusal is logged. -/
structure Refused (before after : Machine) (length : Nat) : Prop where
  ledger : after.ledger = before.ledger
  strays : after.strays = before.strays
  log : after.log = before.log ∨ after.log = .mapRefused length :: before.log

variable (environment : Environment) (machine : Machine)

/-- A request for whole pages is granted or refused. -/
theorem serve_cases {length : Nat} (whole : Size.pageSize ∣ length) :
    ∃ result after, serve (.anonymous length) environment machine = (.ok result, after) ∧
      (result = none ∧ Refused machine after length ∨
        ∃ address, result = some address ∧ Granted environment machine after address length) := by
  have hwhole : (MapRequest.anonymous length).size % Size.pageSize = 0 :=
    Nat.mod_eq_zero_of_dvd whole
  rw [serve, Procedure.bind_apply_ok _ _ (Procedure.ensure_apply _ hwhole _ _)]
  by_cases hzero : (MapRequest.anonymous length).size = 0
  · exact ⟨none, machine, by rw [if_pos hzero]; rfl, Or.inl ⟨rfl, rfl, rfl, Or.inl rfl⟩⟩
  rw [if_neg hzero, Procedure.bind_apply_ok _ _ (Procedure.environment_apply ..),
    Procedure.bind_apply_ok _ _ (Procedure.get_apply ..)]
  by_cases hgrant : ((MapRequest.anonymous length).flags.isAnonymous &&
      environment.grantsPages machine.ledger (MapRequest.anonymous length).size) = true
  · obtain ⟨address, after, hclaim, haligned, hvacant, hledger, hstrays, hlog⟩ :=
      Machine.claim_cases environment machine Size.pageSize_pos (MapRequest.anonymous length).size
        (.pages ((MapRequest.anonymous length).protection = .none))
    rw [if_pos hgrant, Procedure.bind_apply_ok _ _ hclaim]
    exact ⟨some address, _, rfl, Or.inr ⟨_, rfl, (Bool.and_eq_true_iff.1 hgrant).2,
      Nat.pos_of_ne_zero hzero, haligned, hvacant, hledger, hstrays, congrArg (_ :: ·) hlog⟩⟩
  · rw [if_neg hgrant]
    exact ⟨none, _, rfl, Or.inl ⟨rfl, rfl, rfl, Or.inr rfl⟩⟩

/-- Mapping whole pages either fails to find any or gives pages of just this length. -/
theorem map_cases {length : Nat} (whole : Size.pageSize ∣ length) :
    ∃ result after, map length environment machine = (.ok result, after) ∧
      (result = none ∧ Refused machine after length ∨
        ∃ address, result = some address ∧ Granted environment machine after address length) := by
  have hround := Size.roundToPages?_of_dvd whole
  unfold map
  generalize Size.roundToPages? length = rounded at hround ⊢
  rcases hround with rfl | rfl
  · exact ⟨none, machine, rfl, Or.inl ⟨rfl, rfl, rfl, Or.inl rfl⟩⟩
  · exact serve_cases environment machine whole

/-- Unmapping whole pages that the kernel takes back takes them out of the books. -/
theorem unmap_apply {environment : Environment} {address length : Nat}
    (whole : Size.pageSize ∣ length)
    (grants : environment.grantsUnmap machine.ledger address length = true) :
    unmap address length environment machine =
      (.ok (), { machine.counted (machine.ledger.pages? address length).isSome with
        ledger := machine.ledger.withoutPages address (address + length)
        log := .unmapping length address :: machine.log }) := by
  have hwhole : length % Size.pageSize = 0 := Nat.mod_eq_zero_of_dvd whole
  rw [unmap, Procedure.bind_apply_ok _ _ (Procedure.ensure_apply _ hwhole _ _),
    Procedure.bind_apply_ok _ _ (Procedure.emit_apply ..),
    Procedure.bind_apply_ok _ _ (Procedure.environment_apply ..),
    Procedure.bind_apply_ok _ _ (Procedure.get_apply ..),
    Procedure.bind_apply_ok _ _ (Machine.countStray_apply ..),
    Procedure.bind_apply_ok _ _ (Procedure.ensure_apply _ grants _ _)]
  rfl

/-- Pages that the kernel takes back are gone from the books, and the unmapping is in the log. -/
theorem unmap_ok {environment : Environment} {address length : Nat}
    (whole : Size.pageSize ∣ length)
    (grants : environment.grantsUnmap machine.ledger address length = true) :
    ∃ after, unmap address length environment machine = (.ok (), after) ∧
      after.log = .unmapping length address :: machine.log ∧
      after.ledger = machine.ledger.withoutPages address (address + length) :=
  ⟨_, unmap_apply machine whole grants, rfl, rfl⟩

/-- Unmapping takes a range of pages out of the books, or stops and leaves the books alone. Whole pages
are logged in both cases. -/
theorem unmap_cases (address length : Nat) :
    ∃ result after, unmap address length environment machine = (result, after) ∧
      (after.log = .unmapping length address :: machine.log ∨
        ¬ Size.pageSize ∣ length ∧ after.log = machine.log) ∧
      (result = .ok () ∧ after.ledger = machine.ledger.withoutPages address (address + length) ∨
        (∃ fault, result = .error (.fault fault)) ∧ after.ledger = machine.ledger) := by
  by_cases hwhole : ¬ Size.pageSize ∣ length
  · rw [unmap, Procedure.bind_apply_error _ _
      (Procedure.ensure_apply_not _ (fun hmod => hwhole (Nat.dvd_of_mod_eq_zero hmod)) _ _)]
    exact ⟨_, _, rfl, Or.inr ⟨hwhole, rfl⟩, Or.inr ⟨⟨_, rfl⟩, rfl⟩⟩
  rw [Decidable.not_not] at hwhole
  -- what is not whole pages is not even logged; a refusal by the kernel is logged before it is
  -- known
  by_cases hgrant : environment.grantsUnmap machine.ledger address length = true
  · obtain ⟨after, hrun, hlog, hledger⟩ := unmap_ok machine hwhole hgrant
    exact ⟨_, after, hrun, Or.inl hlog, Or.inl ⟨rfl, hledger⟩⟩
  · rw [unmap, Procedure.bind_apply_ok _ _
      (Procedure.ensure_apply _ (Nat.mod_eq_zero_of_dvd hwhole) _ _),
      Procedure.bind_apply_ok _ _ (Procedure.emit_apply ..),
      Procedure.bind_apply_ok _ _ (Procedure.environment_apply ..),
      Procedure.bind_apply_ok _ _ (Procedure.get_apply ..),
      Procedure.bind_apply_ok _ _ (Machine.countStray_apply ..),
      Procedure.bind_apply_error _ _ (Procedure.ensure_apply_not _ hgrant _ _)]
    exact ⟨_, _, rfl, Or.inl rfl, Or.inr ⟨⟨_, rfl⟩, rfl⟩⟩

/-- Regions that share no address with the pages stay in the books, whatever comes of unmapping. -/
theorem mem_ledger_unmap {environment : Environment} {machine' : Machine} {address length : Nat}
    {result : Except Stop Unit} {holding : Holding} (hheld : holding ∈ machine.ledger)
    (apart : holding.stop ≤ address ∨ address + length ≤ holding.address)
    (hrun : unmap address length environment machine = (result, machine')) :
    holding ∈ machine'.ledger := by
  obtain ⟨_, _, hunmap, -, hcases⟩ := unmap_cases environment machine address length
  obtain ⟨rfl, rfl⟩ := Prod.mk.inj (hunmap.symm.trans hrun)
  rcases hcases with ⟨-, hdone⟩ | ⟨-, hrefused⟩
  · rw [hdone]
    exact Ledger.mem_withoutPages hheld apart
  · rwa [hrefused]

end Pages

end PagedAlloc
