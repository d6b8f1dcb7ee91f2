import PagedAlloc.Proofs.Bounds
import PagedAlloc.Proofs.OwnedRequests
import PagedAlloc.Proofs.Rounding

/-!
# Geometric growth

A buffer that may move grows by doubling: a request that exceeds the capacity is granted with the
least whole number of units that holds both what is needed and twice the capacity
(`Arena.Request.Geometric`), and nothing but such a request changes the capacity. Forced relocation
asks for the capacity that is there, which is a whole number of units, so it gets just this one.

The requests of a run are linked, each one finding the capacity that the one before left
(`Arena.Linked`). By induction over them the capacity has at least doubled with every growth, and is
never beyond twice of what was needed at most, rounded up (`Arena.Linked.bounds`).
-/

namespace PagedAlloc

variable {paging : Size.Paging}

/-- The lengths of regions of a family are rounded up to this one. -/
def Family.unit [Size.Paging] : Family → Nat
  | .heap => Arena.alignment
  | .pages => Size.pageSize

namespace Arena

open Procedure

/-- Buffers of either family are whole multiples of the alignment. -/
theorem alignment_dvd_unit [Size.Paging] (family : Family) : alignment ∣ family.unit := by
  cases family with
  | heap => exact Nat.dvd_refl alignment
  | pages => exact Size.dvd_pageSize alignment_power (by decide)

/-- A request for room: how many bytes are needed in all, the capacities before and after, and
whether it was granted. -/
structure Request where
  needed : Nat
  before : Nat
  after : Nat
  isGranted : Bool

/-- The request that a demand makes. -/
def Demand.request [Size.Paging] (environment : Environment) (state : Machine × Arena)
    (demand : Demand) : Request where
  needed := state.2.length + demand.size
  before := state.2.capacity
  after := (demand.run environment state).2.2.capacity
  isGranted := (demand.run environment state).1.isOk

/-- The requests that are made when demands are met, up to the first one that is not granted. -/
def requests [Size.Paging]
    (environment : Environment) : List Demand → Machine × Arena → List Request
  | [], _ => []
  | demand :: rest, state =>
    demand.request environment state ::
      match demand.run environment state with
      | (.ok (), after) => requests environment rest after
      | (.error _, _) => []

/-- The requests that an operation makes. -/
def Operation.requests [Size.Paging] (environment : Environment) (machine : Machine) (arena : Arena)
    (operation : Operation) : List Request :=
  Arena.requests environment (operation.demands arena) (machine, operation.entered arena)

/-- The arenas that were made with these strategies and an initial capacity and were never shrunk,
with all requests for room that they made so far. -/
inductive Grown [Size.Paging] (strategies : Strategies)
    (initial : Nat) : List Request → Arena → Prop where
  | start (environment : Environment) (machine machine' : Machine) (capacity : Nat)
      (diagnostics : Diagnostics) (arena : Arena)
      (made : create capacity strategies diagnostics environment machine = (.ok arena, machine'))
      (holds : arena.capacity = initial) : Grown strategies initial [] arena
  | step {history : List Request} {arena : Arena} (before : Grown strategies initial history arena)
      (environment : Environment) (machine : Machine) (operation : Operation)
      (other : operation ≠ .shrink) :
      Grown strategies initial (history ++ operation.requests environment machine arena)
        (arena.after environment machine operation)

/-- The capacity that requests leave. -/
def held (initial : Nat) (history : List Request) : Nat :=
  history.foldl (fun _ request => request.after) initial

/-- How often the capacity increased. -/
def growths (history : List Request) : Nat :=
  history.countP fun request => request.before < request.after

/-- The most that any granted request needed. -/
def peak : List Request → Nat
  | [] => 0
  | request :: rest => max (if request.isGranted then request.needed else 0) (peak rest)

/-- A request leaves the capacity as it is, or it exceeds the capacity and is granted with the least
number of units that holds what is needed and twice the capacity. -/
def Request.Geometric (unit : Nat) (request : Request) : Prop :=
  request.after = request.before ∨
    request.isGranted = true ∧ request.before < request.needed ∧
      IsLeast {size | unit ∣ size ∧ max (2 * request.before) request.needed ≤ size} request.after

/-- Requests that begin with a capacity, each with the one that the request before it left. -/
def Linked (unit : Nat) : Nat → List Request → Prop
  | _, [] => True
  | capacity, request :: rest =>
    request.before = capacity ∧ request.Geometric unit ∧ Linked unit request.after rest

variable {environment : Environment} {machine : Machine} {arena : Arena} {strategies : Strategies}
  {unit capacity initial value length : Nat} {request : Request}
  {history earlier later : List Request}

/-! ## What is granted -/

/-- A granted region is the least one of its family that holds a size which was rounded before. -/
theorem least_of_answer {source : Source} {ledger : Ledger}
    (least : IsLeast {size | alignment ∣ size ∧ value ≤ size} capacity)
    (h : source.answer environment ledger alignment capacity = .ok length) :
    IsLeast {size | source.family.unit ∣ size ∧ value ≤ size} length := by
  rcases Source.granted_of_answer h with ⟨hfamily, -, rfl⟩ | ⟨hfamily, hround, -⟩
  · rw [hfamily]
    exact least
  · rw [hfamily]
    have hleast := Size.isLeast_of_roundUp? Size.pageSize_pos Size.pageSize_dvd_limit hround
    refine ⟨⟨hleast.1.1, least.1.2.trans hleast.1.2⟩, ?_⟩
    -- whole pages are aligned, so they hold what was rounded before
    rintro size ⟨hdvd, hle⟩
    exact hleast.2 ⟨hdvd, least.2 ⟨Nat.dvd_trans (alignment_dvd_unit .pages) hdvd, hle⟩⟩

/-- What is asked for again as it is stays as long as it is. -/
theorem eq_of_answer {source : Source} {ledger : Ledger}
    (suits : source.family.Suits alignment capacity)
    (h : source.answer environment ledger alignment capacity = .ok length) : length = capacity := by
  rcases Source.granted_of_answer h with ⟨-, -, heq⟩ | ⟨hfamily, hround, -⟩
  · exact heq
  · rw [hfamily] at suits
    rw [Size.roundToPages?_eq_self suits.1 suits.2.2] at hround
    exact (Option.some.inj hround).symm

/-- A capacity beyond the present one is the least aligned one that holds what is needed and twice
the present one. -/
theorem least_of_wanted {needed : Nat} (exceeds : arena.capacity < needed)
    (wanted : arena.wanted? needed = some capacity) :
    IsLeast {size | alignment ∣ size ∧ max (2 * arena.capacity) needed ≤ size} capacity := by
  rw [wanted?, if_neg (Nat.not_le.2 exceeds)] at wanted
  obtain ⟨doubled, hdoubled, hround⟩ := Option.bind_eq_some_iff.1 wanted
  have htwice : doubled = 2 * arena.capacity := by
    rw [Size.mul?] at hdoubled
    split at hdoubled
    · rw [← Option.some.inj hdoubled, Nat.mul_comm]
    · cases hdoubled
  exact htwice ▸ Size.isLeast_of_roundUp? (by decide) (by decide) hround

/-- A request for a wanted capacity gives the present one, or one that is geometric. -/
theorem Backed.request_length (h : arena.Backed) (moves : arena.strategies.mayMove = true)
    {needed : Nat} (wanted : arena.wanted? needed = some capacity) {region : Region}
    (told : (arena.request capacity environment machine).1 = .ok region) :
    region.length = arena.capacity ∨ arena.capacity < needed ∧
      IsLeast {size | arena.strategies.source.family.unit ∣ size ∧
        max (2 * arena.capacity) needed ≤ size} region.length := by
  obtain ⟨source, hfamily, hanswer⟩ : ∃ source : Source,
      source.family = arena.strategies.source.family ∧
        source.answer environment machine.ledger alignment capacity = .ok region.length := by
    have hpositive := Nat.lt_of_lt_of_le h.positive (le_wanted wanted)
    obtain ⟨result, after, hrun, hcases⟩ := h.answer_request moves hpositive environment machine
    obtain rfl : result = .ok region := (congrArg Prod.fst hrun).symm.trans told
    rcases hcases with hanswer | hanswer | ⟨address, ledger, herror, -⟩
    · exact ⟨_, rfl, hanswer.symm⟩
    · exact ⟨_, h.family_resizing moves, hanswer.symm⟩
    · cases herror
  by_cases hfits : needed ≤ arena.capacity
  · rw [wanted?, if_pos hfits] at wanted
    obtain rfl := Option.some.inj wanted
    exact Or.inl (eq_of_answer (hfamily ▸ h.suits) hanswer)
  · have hexceeds := Nat.lt_of_not_le hfits
    exact Or.inr ⟨hexceeds, hfamily ▸ least_of_answer (least_of_wanted hexceeds wanted) hanswer⟩

/-- Making room leaves the capacity as it is, or it succeeds and the capacity is geometric. -/
theorem Backed.makeRoom_length (h : arena.Backed) (moves : arena.strategies.mayMove = true)
    (additional : Nat) (environment : Environment) (machine : Machine) :
    ∃ outcome machine' region, Arena.makeRoom additional environment (machine, arena) =
        (outcome, machine', { arena with region := region }) ∧
      (region.length = arena.capacity ∨
        outcome = .ok () ∧ arena.capacity < arena.length + additional ∧
          IsLeast {size | arena.strategies.source.family.unit ∣ size ∧
            max (2 * arena.capacity) (arena.length + additional) ≤ size} region.length) := by
  obtain ⟨outcome, machine', region, hrun, hmakes⟩ :=
    makeRoom_cases additional environment machine arena
  refine ⟨outcome, machine', region, hrun, ?_⟩
  cases hmakes with
  | present | refused | unrepresentable => exact Or.inl rfl
  | granted capacity _ wanted told =>
    exact (h.request_length moves wanted told).imp_right fun hgeometric => ⟨rfl, hgeometric⟩

/-! ## Requests of demands -/

/-- A demand that leaves all as it is. -/
theorem Demand.request_unchanged {demand : Demand}
    (h : (demand.run environment (machine, arena)).2.2 = arena) :
    (demand.request environment (machine, arena)).Geometric unit :=
  Or.inl (congrArg capacity h)

/-- The request of a demand is geometric, and it leaves the strategies alone. -/
theorem Backed.demand (h : arena.Backed) (moves : arena.strategies.mayMove = true)
    (demand : Demand) (environment : Environment) (machine : Machine) :
    (demand.run environment (machine, arena)).2.2.strategies = arena.strategies ∧
      (demand.request environment (machine, arena)).Geometric
        arena.strategies.source.family.unit := by
  obtain ⟨outcome, machine', region, hroom, hlength⟩ :=
    h.makeRoom_length moves demand.size environment machine
  -- a demand is met by one request for room, or by none
  have hgeometric {outcome' : Except Stop Unit} {state : Machine × Arena}
      (hrun : demand.run environment (machine, arena) = (outcome', state))
      (hcapacity : state.2.capacity = region.length) (hok : outcome = .ok () → outcome' = .ok ()) :
      (demand.request environment (machine, arena)).Geometric
        arena.strategies.source.family.unit := by
    rw [Demand.request, hrun]
    refine hlength.imp hcapacity.trans ?_
    rintro ⟨rfl, hexceeds, hleast⟩
    obtain rfl := hok rfl
    exact ⟨rfl, hexceeds, hcapacity ▸ hleast⟩
  cases demand with
  | room additional =>
    have hrun : (Demand.room additional).run environment (machine, arena) = _ := hroom
    exact ⟨by rw [hrun], hgeometric hrun rfl id⟩
  | cells content =>
    cases hbuild : arena.build with
    | none =>
      have hrun := congrArg (·.2.2) (add_idle hbuild content environment machine)
      exact ⟨congrArg strategies hrun, Demand.request_unchanged hrun⟩
    | some build =>
      obtain ⟨start, failure⟩ := build
      cases failure with
      | some first =>
        have hrun := congrArg (·.2.2) (add_failed hbuild content environment machine)
        exact ⟨congrArg strategies hrun, Demand.request_unchanged hrun⟩
      | none =>
        have hrun : (Demand.cells content).run environment (machine, arena) = _ :=
          add_building hbuild content environment machine
        rw [show Arena.makeRoom content.length environment (machine, arena) = _ from hroom] at hrun
        cases outcome with
        | ok => exact ⟨by rw [hrun], hgeometric hrun rfl id⟩
        | error reason =>
          cases reason with
          | failure failure => exact ⟨by rw [hrun]; rfl, hgeometric hrun rfl nofun⟩
          | fault fault => exact ⟨by rw [hrun], hgeometric hrun rfl nofun⟩

/-- The requests that are made when demands are met are linked, from the capacity before to the
capacity afterwards, and the strategies stay. -/
theorem Backed.requests (h : arena.Backed) (moves : arena.strategies.mayMove = true)
    (demands : List Demand) (environment : Environment) (machine : Machine) :
    Linked arena.strategies.source.family.unit arena.capacity
        (Arena.requests environment demands (machine, arena)) ∧
      held arena.capacity (Arena.requests environment demands (machine, arena)) =
        (meet demands environment (machine, arena)).2.2.capacity ∧
      (meet demands environment (machine, arena)).2.2.strategies = arena.strategies := by
  induction demands generalizing machine arena with
  | nil => exact ⟨trivial, rfl, rfl⟩
  | cons demand rest ih =>
    have hbacked : (demand.run environment (machine, arena)).2.2.Backed := by
      cases demand with
      | room additional =>
        exact (lasting_backs.room additional).holds environment (machine, arena) h
      | cells content => exact (lasting_backs.add content).holds environment (machine, arena) h
    obtain ⟨hstrategies, hgeometric⟩ := h.demand moves demand environment machine
    cases hrun : demand.run environment (machine, arena) with
    | mk outcome state =>
      rw [hrun] at hbacked hstrategies
      rw [Arena.requests, hrun, meet]
      cases outcome with
      -- the requests end here, and so does what was met
      | error reason =>
        rw [bind_apply_error _ _ hrun]
        refine ⟨⟨rfl, hgeometric, trivial⟩, ?_, hstrategies⟩
        show (demand.run environment (machine, arena)).2.2.capacity = _
        rw [hrun]
      | ok =>
        have hafter : (demand.request environment (machine, arena)).after = state.2.capacity :=
          congrArg (·.2.2.capacity) hrun
        have hmoves : state.2.strategies.mayMove = true := hstrategies ▸ moves
        obtain ⟨hlinked, hheld, hkept⟩ := ih hbacked hmoves state.1
        rw [bind_apply_ok _ _ hrun]
        rw [hstrategies] at hlinked
        refine ⟨⟨rfl, hgeometric, hafter ▸ hlinked⟩, ?_, hkept.trans hstrategies⟩
        show held (demand.request environment (machine, arena)).after _ = _
        rw [hafter]
        exact hheld

/-! ## Linked requests -/

/-- What requests leave is what the later ones leave of what the earlier ones left. -/
theorem held_append (initial : Nat) (earlier later : List Request) :
    held initial (earlier ++ later) = held (held initial earlier) later :=
  List.foldl_append

/-- Requests are linked just if both parts of them are, one after the other. -/
theorem linked_append :
    Linked unit capacity (earlier ++ later) ↔
      Linked unit capacity earlier ∧ Linked unit (held capacity earlier) later := by
  induction earlier generalizing capacity with
  | nil => exact (and_iff_right trivial).symm
  | cons request rest ih => simp only [List.cons_append, Linked, ih, and_assoc]; rfl

/-- A geometric request never decreases the capacity. -/
theorem Request.Geometric.le (h : request.Geometric unit) : request.before ≤ request.after := by
  rcases h with heq | ⟨-, -, hleast⟩
  · exact Nat.le_of_eq heq.symm
  · have htwice := Nat.le_trans (Nat.le_max_left ..) hleast.1.2
    omega

/-- Over linked requests the capacity has doubled with every growth, and it stays within twice of
what was needed at most. -/
theorem Linked.bounds (h : Linked unit capacity history) :
    capacity * 2 ^ growths history ≤ held capacity history ∧
      ∀ bound, unit ∣ bound → 2 * peak history ≤ bound →
        held capacity history ≤ max capacity bound := by
  induction history generalizing capacity with
  | nil => exact ⟨by simp [growths, held], fun bound _ _ => Nat.le_max_left ..⟩
  | cons request rest ih =>
    obtain ⟨rfl, hgeometric, hrest⟩ := h
    obtain ⟨hgrown, hwithin⟩ := ih hrest
    have hheld : held request.before (request :: rest) = held request.after rest := rfl
    have hpeak : peak rest ≤ peak (request :: rest) := Nat.le_max_right ..
    rw [hheld]
    rcases hgeometric with heq | ⟨hgranted, hexceeds, hleast⟩
    · -- a request that changes nothing is not counted
      have hcount : growths (request :: rest) = growths rest :=
        List.countP_cons_of_neg (by simp [heq])
      rw [hcount, ← heq]
      exact ⟨hgrown, fun bound hunit hbound => hwithin bound hunit (by omega)⟩
    · have htwice : 2 * request.before ≤ request.after :=
        Nat.le_trans (Nat.le_max_left ..) hleast.1.2
      have hneeded : request.needed ≤ request.after := Nat.le_trans (Nat.le_max_right ..) hleast.1.2
      have hcount : growths (request :: rest) = growths rest + 1 :=
        List.countP_cons_of_pos (by simp; omega)
      have hcounted : request.needed ≤ peak (request :: rest) := by
        rw [peak, if_pos hgranted]
        exact Nat.le_max_left ..
      refine ⟨?_, fun bound hunit hbound => ?_⟩
      · calc
          request.before * 2 ^ growths (request :: rest)
              = 2 * request.before * 2 ^ growths rest := by
                rw [hcount, Nat.pow_succ, Nat.mul_comm (2 ^ growths rest), ← Nat.mul_assoc,
                  Nat.mul_comm request.before]
          _ ≤ request.after * 2 ^ growths rest := Nat.mul_le_mul_right _ htwice
          _ ≤ held request.after rest := hgrown
      · have hafter : request.after ≤ bound := hleast.2 ⟨hunit, by omega⟩
        have := hwithin bound hunit (by omega)
        omega

/-! ## Runs -/

/-- The requests of an operation are linked, from the capacity before to the capacity afterwards. -/
theorem Reachable.requests (h : arena.Reachable) (moves : arena.strategies.mayMove = true)
    {operation : Operation} (other : operation ≠ .shrink) (environment : Environment)
    (machine : Machine) :
    Linked arena.strategies.source.family.unit arena.capacity
        (operation.requests environment machine arena) ∧
      held arena.capacity (operation.requests environment machine arena) =
        (arena.after environment machine operation).capacity ∧
      (arena.after environment machine operation).strategies = arena.strategies := by
  have hsits := h.run_sits other environment machine
  have hentered := (operation.sits_entered machine arena).buffer
  have hcapacity : (operation.entered arena).capacity = arena.capacity := hentered.capacity
  have hstrategies : (operation.entered arena).strategies = arena.strategies := hentered.strategies
  have hbacked : (operation.entered arena).Backed := by
    refine ⟨hstrategies ▸ h.backed.consistent, ?_⟩
    rw [hstrategies, hcapacity]
    exact h.backed.suits
  obtain ⟨hlinked, hheld, hkept⟩ :=
    hbacked.requests (hstrategies ▸ moves) (operation.demands arena) environment machine
  rw [hstrategies, hcapacity] at hlinked
  rw [hcapacity] at hheld
  exact ⟨hlinked, hheld.trans hsits.buffer.capacity.symm,
    hsits.buffer.strategies.trans (hkept.trans hstrategies)⟩

namespace Grown

/-- All of these arenas are reachable. -/
theorem reachable (h : Grown strategies initial history arena) : arena.Reachable := by
  induction h with
  | start environment machine machine' capacity diagnostics arena made =>
    exact .start environment machine machine' capacity strategies diagnostics arena made
  | step before environment machine operation other ih =>
    exact ih.step environment machine operation

/-- All requests of a run are linked. -/
theorem linked (h : Grown strategies initial history arena) (moves : strategies.mayMove = true) :
    arena.strategies = strategies ∧ Linked strategies.source.family.unit initial history ∧
      arena.capacity = held initial history := by
  induction h with
  | start environment machine machine' capacity diagnostics arena made holds =>
    obtain ⟨size, region, middle, -, -, -, -, rfl, -⟩ := create_ok made
    exact ⟨rfl, trivial, holds⟩
  | step before environment machine operation other ih =>
    obtain ⟨hstrategies, hlinked, hcapacity⟩ := ih
    obtain ⟨hnext, hheld, hkept⟩ :=
      before.reachable.requests (hstrategies ▸ moves) other environment machine
    rw [hstrategies, hcapacity] at hnext
    refine ⟨hkept.trans hstrategies, linked_append.2 ⟨hlinked, hnext⟩, ?_⟩
    rw [held_append, ← hcapacity, hheld]

/-- Whatever is done with an arena that may move, if only it is not shrunk: whenever it has grown
so often, its capacity has doubled so often, and it is no more than the initial capacity or twice
of what any granted request needed, rounded up to units. Every request finds the capacity that was
left before it, never decreases it, and changes it only if it is granted and exceeds it. -/
theorem geometric (h : Grown strategies initial history arena)
    (moves : strategies.mayMove = true) :
    arena.capacity = held initial history ∧
    (∀ earlier later, history = earlier ++ later →
      initial * 2 ^ growths earlier ≤ held initial earlier ∧
      (∀ bound, IsLeast {size | strategies.source.family.unit ∣ size ∧ 2 * peak earlier ≤ size} bound →
        held initial earlier ≤ max initial bound) ∧
      ∀ request ∈ later.head?, request.before = held initial earlier ∧
        request.before ≤ request.after ∧
        (request.after ≠ request.before →
          request.isGranted = true ∧ request.before < request.needed)) ∧
    ∀ operation : Operation, operation ≠ .shrink → ∀ environment machine,
      arena.capacity ≤ (arena.after environment machine operation).capacity := by
  obtain ⟨hstrategies, hlinked, hcapacity⟩ := h.linked moves
  refine ⟨hcapacity, ?_, ?_⟩
  · rintro earlier later rfl
    obtain ⟨hearlier, hlater⟩ := linked_append.1 hlinked
    obtain ⟨hgrown, hwithin⟩ := hearlier.bounds
    refine ⟨hgrown, fun bound hleast => hwithin bound hleast.1.1 hleast.1.2, ?_⟩
    intro request hfirst
    obtain ⟨rest, rfl⟩ := List.head?_eq_some_iff.1 hfirst
    obtain ⟨hbefore, hgeometric, -⟩ := hlater
    refine ⟨hbefore, hgeometric.le, fun hchanged => ?_⟩
    -- a request that left another capacity was granted, and exceeded the one before
    rcases hgeometric with heq | ⟨hgranted, hexceeds, -⟩
    · exact absurd heq hchanged
    · exact ⟨hgranted, hexceeds⟩
  · intro operation other environment machine
    obtain ⟨hnext, hheld, -⟩ :=
      h.reachable.requests (hstrategies ▸ moves) other environment machine
    rw [← hheld]
    exact Nat.le_trans (Nat.le_mul_of_pos_right _ (Nat.pow_pos (by decide))) hnext.bounds.1

end Grown

end Arena

end PagedAlloc

namespace PagedAlloc.Arena.Grown

open Procedure

attribute [local instance] Size.Paging.common

/-- Two pushes under forced relocation. The capacity doubled twice, from 16 bytes on, and is no
more than twice the 50 bytes of the larger request, rounded up. -/
theorem geometric_of_two_pushes :
    let arena : Arena :=
      ⟨⟨65536, 16, ⟨16, .leaf (Run.constant 0)⟩⟩, 16, .heap, ⟨true, true⟩, none⟩
    let first : Operation := .push (.bytes [7, 8, 9])
    let pushed := arena.after .ordinary .fresh first
    let second : Operation := .push (.text "one hundred and three bytes")
    let grown := pushed.after .ordinary .fresh second
    let history := first.requests .ordinary .fresh arena ++ second.requests .ordinary .fresh pushed
    history.length = 3 ∧ growths history = 2 ∧ peak history = 50 ∧ 16 * 2 ^ 2 ≤ grown.capacity ∧
      grown.capacity ≤ 112 := by
  intro arena first pushed second grown history
  have hcreated : Grown .heap 16 [] arena := .start .ordinary .fresh _ 16 ⟨true, true⟩ _ rfl rfl
  have hgrown : Grown .heap 16 ([] ++ first.requests .ordinary .fresh arena ++
      second.requests .ordinary .fresh pushed) grown :=
    (hcreated.step .ordinary .fresh first nofun).step .ordinary .fresh second nofun
  rw [List.nil_append] at hgrown
  obtain ⟨hcapacity, hsplit, -⟩ := hgrown.geometric rfl
  obtain ⟨hlow, hhigh, -⟩ := hsplit history [] (List.append_nil _).symm
  have hgrowths : growths history = 2 := by decide +kernel
  have hpeak : peak history = 50 := by decide +kernel
  have hleast : IsLeast {size | Strategies.heap.source.family.unit ∣ size ∧ 2 * peak history ≤ size}
      112 := by
    rw [hpeak]
    refine ⟨⟨by decide, by decide⟩, ?_⟩
    rintro size ⟨⟨count, rfl⟩, hle⟩
    have hle : 2 * 50 ≤ 16 * count := hle
    show 112 ≤ 16 * count
    omega
  rw [hgrowths] at hlow
  exact ⟨by decide +kernel, hgrowths, hpeak, hcapacity ▸ hlow, hcapacity ▸ hhigh 112 hleast⟩

end PagedAlloc.Arena.Grown
