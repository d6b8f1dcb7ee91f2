import PagedAlloc.Proofs.Ledger
import PagedAlloc.Proofs.RegionAnswers

/-!
# Live regions

What the requests of an owner do to the books. Whoever owns a live region shares no address with the
other regions of the books (`Machine.Holds`). A request that names the region by its exact length
then trades it for another one or gives it back, and leaves all others as they are; a request that is
not served leaves the books alone. None of them is counted as one that named no live region.
-/

namespace PagedAlloc

variable {paging : Size.Paging}

namespace Ledger

variable {ledger others : Ledger} {address length start stop : Nat}

/-- A region outside of a range loses nothing of it. -/
theorem outside_eq {holding : Holding}
    (apart : holding.stop ≤ start ∨ stop ≤ holding.address) :
    holding.outside start stop = [holding] := by
  unfold Holding.outside
  split
  · rfl
  · rw [if_pos apart]

/-- Unmapping pages that no region reaches changes nothing. -/
theorem withoutPages_eq_self
    (apart : ∀ holding ∈ ledger, holding.stop ≤ start ∨ stop ≤ holding.address) :
    ledger.withoutPages start stop = ledger := by
  rw [withoutPages, List.flatMap_congr fun holding hmem => outside_eq (apart holding hmem),
    List.flatMap_singleton']

section Whole

variable {isSealed : Bool}
  (books : ledger.Perm (⟨address, length, .pages isSealed⟩ :: others)) (positive : 0 < length)
  (apart : ∀ other ∈ others, Holding.Apart ⟨address, length, .pages isSealed⟩ other)

include books positive apart

/-- Unmapping a whole mapping takes out that mapping only. -/
theorem withoutPages_perm : (ledger.withoutPages address (address + length)).Perm others := by
  have hown : Holding.outside ⟨address, length, .pages isSealed⟩ address (address + length) = [] := by
    unfold Holding.outside
    dsimp only
    rw [if_neg (by simp only [Holding.stop]; omega)]
    simp [Holding.stop]
  calc List.Perm (ledger.withoutPages address (address + length))
        (withoutPages (⟨address, length, .pages isSealed⟩ :: others) address (address + length)) :=
      books.flatMap_right _
    _ = withoutPages others address (address + length) := by
      rw [withoutPages, List.flatMap_cons, hown]
      rfl
    _ = others := withoutPages_eq_self fun other hother => (apart other hother).symm

/-- Taking all access to a whole mapping away seals that mapping only. -/
theorem withAccess_perm :
    (ledger.withAccess address (address + length) true).Perm
      (⟨address, length, .pages true⟩ :: others) := by
  calc List.Perm (ledger.withAccess address (address + length) true)
        (withAccess (⟨address, length, .pages isSealed⟩ :: others) address (address + length)
          true) := books.map _
    _ = ⟨address, length, .pages true⟩ :: others := by
      unfold withAccess
      rw [List.map_cons]
      congr 1
      · dsimp only
        rw [if_neg (by simp only [Holding.stop]; omega),
          if_pos (Or.inr ⟨Nat.le_refl _, Nat.le_refl _⟩)]
      · refine (List.map_congr_left fun other hother => ?_).trans (List.map_id others)
        split
        · rfl
        · exact if_pos (apart other hother).symm

/-- A mapping that shares no address with others is found by its address and length. -/
theorem pages?_eq :
    ledger.pages? address length = some ⟨address, length, .pages isSealed⟩ := by
  cases hfind : ledger.pages? address length with
  | none =>
    have hmem := books.mem_iff.2 (List.mem_cons_self ..)
    simpa using List.find?_eq_none.1 hfind _ hmem
  | some found =>
    have hsame := List.find?_some hfind
    simp only [Bool.and_eq_true, decide_eq_true_eq] at hsame
    obtain ⟨⟨haddress, hlength⟩, -⟩ := hsame
    rcases List.mem_cons.1 (books.mem_iff.1 (List.mem_of_find?_eq_some hfind)) with rfl | hother
    · rfl
    · have hapart := apart found hother
      simp only [Holding.Apart, Holding.stop] at hapart
      omega

end Whole

end Ledger

namespace Environment

/-- The kernel takes the access to every live mapping away, as a whole. -/
def ProtectsLive (environment : Environment) : Prop :=
  ∀ ledger address length, ⟨address, length, .pages false⟩ ∈ ledger →
    environment.grantsProtect ledger address length = true

end Environment

namespace Machine

/-- Every live region has a byte. -/
def Tidy (machine : Machine) : Prop := ∀ holding ∈ machine.ledger, 0 < holding.length

/-- A region is live beside the other ones, and shares no address with them. -/
structure Holds (machine : Machine) (holding : Holding) (others : Ledger) : Prop where
  books : machine.ledger.Perm (holding :: others)
  apart : ∀ other ∈ others, holding.Apart other
  tidy : machine.Tidy

/-- From one machine to another the books stay the same, whatever is logged. -/
structure SameBooks (before after : Machine) : Prop where
  ledger : after.ledger = before.ledger
  strays : after.strays = before.strays

variable {machine first second third : Machine} {holding : Holding} {others : Ledger}

theorem SameBooks.refl (machine : Machine) : SameBooks machine machine := ⟨rfl, rfl⟩

theorem SameBooks.trans (h : SameBooks first second) (h' : SameBooks second third) :
    SameBooks first third :=
  ⟨h'.ledger.trans h.ledger, h'.strays.trans h.strays⟩

theorem SameBooks.tidy (h : SameBooks first second) (tidy : first.Tidy) : second.Tidy := by
  rw [Tidy, h.ledger]
  exact tidy

/-- Whoever owns a region owns it by the same books. -/
theorem SameBooks.holds (h : SameBooks first second) (holds : first.Holds holding others) :
    second.Holds holding others :=
  ⟨h.ledger ▸ holds.books, holds.apart, h.tidy holds.tidy⟩

/-- A request that names a live region is not counted. -/
theorem sameBooks_counted {known : Bool} (live : known = true) (machine : Machine) :
    SameBooks machine (machine.counted known) :=
  ⟨rfl, by rw [counted, live, if_pos rfl]⟩

namespace Holds

theorem mem (h : machine.Holds holding others) : holding ∈ machine.ledger :=
  h.books.mem_iff.2 (List.mem_cons_self ..)

theorem positive (h : machine.Holds holding others) : 0 < holding.length :=
  h.tidy holding h.mem

/-- The regions beside a live one are not empty either. -/
theorem others_tidy (h : machine.Holds holding others) {other : Holding} (hmem : other ∈ others) :
    0 < other.length :=
  h.tidy other (h.books.mem_iff.2 (List.mem_cons_of_mem _ hmem))

end Holds

/-- A region that was put where none of the others is, is live beside them. -/
theorem holds_placed {address length : Nat} {origin : Origin}
    (tidy : ∀ other ∈ others, 0 < other.length)
    (books : machine.ledger.Perm (⟨address, length, origin⟩ :: others)) (positive : 0 < length)
    (vacant : others.Vacant address (address + length)) :
    machine.Holds ⟨address, length, origin⟩ others where
  books := books
  apart other hother := (vacant other hother).symm
  tidy other hother := by
    rcases List.mem_cons.1 (books.mem_iff.1 hother) with rfl | hother
    · exact positive
    · exact tidy other hother

/-- A region that was resized where it is, with nobody in the way, is live beside the others. -/
theorem Holds.resized {before after : Machine} {address old new : Nat} {origin : Origin}
    (h : before.Holds ⟨address, old, origin⟩ others)
    (books : after.ledger.Perm (⟨address, new, origin⟩ :: others)) (positive : 0 < new)
    (vacant : new ≤ old ∨ others.Vacant (address + old) (address + new)) :
    after.Holds ⟨address, new, origin⟩ others where
  books := books
  apart other hother := by
    have hapart := h.apart other hother
    have hpositive := h.others_tidy hother
    simp only [Holding.Apart, Holding.stop] at hapart vacant ⊢
    rcases vacant with hless | hvacant
    · omega
    · have hclear := hvacant other hother
      simp only [Holding.stop] at hclear
      omega
  tidy other hother := by
    rcases List.mem_cons.1 (books.mem_iff.1 hother) with rfl | hrest
    · exact positive
    · exact h.others_tidy hrest

/-- An old region is still live after a new one was obtained. -/
theorem Holds.beside {before after : Machine} {old new : Holding} (hold : before.Holds old others)
    (hnew : after.Holds new before.ledger) : after.Holds old (new :: others) where
  books := hnew.books.trans ((hold.books.cons new).trans (.swap ..))
  apart := List.forall_mem_cons.2 ⟨(hnew.apart old hold.mem).symm, hold.apart⟩
  tidy := hnew.tidy

/-- A region stays live where the books keep it and each of the others has the place of one that was
there before. -/
theorem Holds.of_places {before after : Machine} {rest : Ledger} (h : before.Holds holding others)
    (books : after.ledger.Perm (holding :: rest))
    (places : ∀ other ∈ rest, ∃ old ∈ others, other.address = old.address ∧
      other.length = old.length) : after.Holds holding rest where
  books := books
  apart other hother := by
    obtain ⟨old, hold, haddress, hlength⟩ := places other hother
    have hapart := h.apart old hold
    simp only [Holding.Apart, Holding.stop] at hapart ⊢
    rwa [haddress, hlength]
  tidy other hother := by
    rcases List.mem_cons.1 (books.mem_iff.1 hother) with rfl | hrest
    · exact h.positive
    · obtain ⟨old, hold, -, hlength⟩ := places other hrest
      exact hlength ▸ h.others_tidy hold

/-- What a request for a region, which may name a live one, leaves: the region that was found is live
beside the others, and if none was found the books are the same. -/
structure Serves (before after : Machine) (granted : Bool) (found : Option Nat) (length : Nat)
    (origin : Origin) (others : Ledger) : Prop where
  isSome : found.isSome = granted
  holds : ∀ address, found = some address → after.Holds ⟨address, length, origin⟩ others
  strays : after.strays = before.strays
  refused : found = none → before.SameBooks after

end Machine

open Procedure

variable {machine : Machine} {others : Ledger} {address old new size length align : Nat}

namespace Heap

theorem IsLayout.positive (h : IsLayout size align) : 0 < size ∧ 0 < align :=
  ⟨Nat.pos_of_ne_zero h.1, h.2.1.1⟩

/-- A request to the heap finds a region beside all others, or none. -/
theorem allocate_serves (tidy : machine.Tidy) (layout : IsLayout size align)
    (environment : Environment) :
    ∃ found after, allocate size align environment machine = (.ok found, after) ∧
      machine.Serves after (environment.grantsHeap machine.ledger size align) found size
        (.heap align) machine.ledger := by
  rw [allocate, bind_apply_ok _ _ (environment_apply ..), bind_apply_ok _ _ (get_apply ..)]
  cases hgrant : environment.grantsHeap machine.ledger size align with
  | false =>
    rw [if_neg Bool.false_ne_true]
    exact ⟨none, machine, rfl, rfl, by simp, rfl, fun _ => .refl _⟩
  | true =>
    obtain ⟨address, after, hclaim, -, hvacant, hledger, hstrays, -⟩ :=
      Machine.claim_cases environment machine layout.positive.2 size (.heap align)
    rw [if_pos rfl, bind_apply_ok _ _ hclaim]
    refine ⟨some address, after, rfl, rfl, ?_, hstrays, by simp⟩
    rintro _ ⟨⟩
    exact Machine.holds_placed tidy (hledger ▸ List.Perm.refl _) layout.positive.1 hvacant

/-- A request to the heap to resize a live region finds one in its place, or none. -/
theorem resize_serves (h : machine.Holds ⟨address, old, .heap align⟩ others)
    (layout : IsLayout new align) (environment : Environment) :
    ∃ found after, resize address old new align environment machine = (.ok found, after) ∧
      machine.Serves after (environment.grantsHeap machine.ledger new align) found new
        (.heap align) others := by
  rw [resize, bind_apply_ok _ _ (environment_apply ..), bind_apply_ok _ _ (get_apply ..),
    bind_apply_ok _ _ (Machine.countStray_apply ..)]
  have hcounted := Machine.sameBooks_counted (decide_eq_true h.mem) machine
  have hholds := hcounted.holds h
  generalize machine.counted _ = counted at hcounted hholds ⊢
  cases hgrant : environment.grantsHeap machine.ledger new align with
  | false =>
    rw [if_neg Bool.false_ne_true]
    exact ⟨none, counted, rfl, rfl, by simp, hcounted.strays, fun _ => hcounted⟩
  | true =>
    -- the old entry goes first: what is found is live beside the others, not beside the old one
    have herased := hholds.books.erase ⟨address, old, .heap align⟩
    rw [List.erase_cons_head] at herased
    rw [if_pos rfl, bind_apply_ok _ _ (modify_apply ..)]
    by_cases hstays : (environment.resizesInPlace machine.ledger address old new &&
        machine.ledger.Vacant (address + old) (address + new)) = true
    · rw [if_pos hstays]
      refine ⟨some address, _, rfl, rfl, ?_, hcounted.strays, by simp⟩
      rintro _ ⟨⟩
      have hvacant := of_decide_eq_true (Bool.and_eq_true_iff.1 hstays).2
      exact hholds.resized (herased.cons _) layout.positive.1 (Or.inr fun other hother =>
        hvacant other (h.books.mem_iff.2 (List.mem_cons_of_mem _ hother)))
    · obtain ⟨target, after, hclaim, -, hvacant, hledger, hstrays, -⟩ :=
        Machine.claim_cases environment
          { counted with ledger := counted.ledger.erase ⟨address, old, .heap align⟩ }
          layout.positive.2 new (.heap align)
      rw [if_neg hstays, bind_apply_ok _ _ hclaim]
      refine ⟨some target, after, rfl, rfl, ?_, hstrays.trans hcounted.strays, by simp⟩
      rintro _ ⟨⟩
      exact Machine.holds_placed (fun other hother => hholds.others_tidy hother)
        (hledger ▸ herased.cons _) layout.positive.1 fun other hother =>
          hvacant other (herased.mem_iff.2 hother)

/-- Giving a live region back takes it out of the books. -/
theorem free_apply (h : machine.Holds ⟨address, size, .heap align⟩ others)
    (environment : Environment) :
    ∃ after, free address size align environment machine = (.ok (), after) ∧
      after.ledger.Perm others ∧ after.strays = machine.strays := by
  rw [free, bind_apply_ok _ _ (get_apply ..), bind_apply_ok _ _ (Machine.countStray_apply ..)]
  refine ⟨_, rfl, ?_, (Machine.sameBooks_counted (decide_eq_true h.mem) machine).strays⟩
  have hperm := h.books.erase ⟨address, size, .heap align⟩
  rwa [List.erase_cons_head] at hperm

end Heap

namespace Pages

/-- A request for pages finds them beside all live regions, or none. -/
theorem map_serves (tidy : machine.Tidy) (whole : Size.pageSize ∣ length) (positive : 0 < length)
    (small : length < Size.limit) (environment : Environment) :
    ∃ found after, map length environment machine = (.ok found, after) ∧
      machine.Serves after (environment.grantsPages machine.ledger length) found length
        (.pages false) machine.ledger := by
  obtain ⟨found, after, hrun, hcases⟩ := map_cases environment machine whole
  obtain ⟨_, _, hrun', hgrant⟩ :=
    map_eq environment machine (Size.roundToPages?_eq_self whole small) positive
  obtain ⟨hfound, rfl⟩ := Prod.mk.inj (hrun.symm.trans hrun')
  obtain rfl := Except.ok.inj hfound
  refine ⟨found, after, hrun, ?_⟩
  rcases hcases with ⟨rfl, hrefused⟩ | ⟨address, rfl, hgranted⟩
  · exact ⟨hgrant, by simp, hrefused.strays, fun _ => ⟨hrefused.ledger, hrefused.strays⟩⟩
  · refine ⟨hgrant, ?_, hgranted.strays, by simp⟩
    rintro _ ⟨⟩
    exact Machine.holds_placed tidy (hgranted.ledger ▸ List.Perm.refl _) positive hgranted.vacant

/-- A live mapping whose pages the kernel takes back is taken out of the books. -/
theorem unmap_live (h : machine.Holds ⟨address, length, .pages false⟩ others)
    (whole : Size.pageSize ∣ length) {environment : Environment} (unmaps : environment.UnmapsLive) :
    ∃ after, unmap address length environment machine = (.ok (), after) ∧
      after.ledger.Perm others ∧ after.strays = machine.strays := by
  have hknown : (machine.ledger.pages? address length).isSome = true := by
    rw [Ledger.pages?_eq h.books h.positive h.apart]
    rfl
  exact ⟨_, unmap_apply machine whole (unmaps _ _ _ h.mem),
    Ledger.withoutPages_perm h.books h.positive h.apart,
    (Machine.sameBooks_counted hknown machine).strays⟩

/-- A live mapping that loses all access stays in the books; it is sealed if the kernel did so. -/
theorem protect_live (h : machine.Holds ⟨address, length, .pages false⟩ others)
    (environment : Environment) :
    ∃ done after, protect address length .none environment machine = (.ok done, after) ∧
      after.ledger.Perm (⟨address, length, .pages done⟩ :: others) ∧
      after.strays = machine.strays ∧
      (environment.ProtectsLive → done = true) := by
  rw [protect, bind_apply_ok _ _ (environment_apply ..), bind_apply_ok _ _ (get_apply ..)]
  by_cases hgrant : environment.grantsProtect machine.ledger address length = true
  · rw [if_pos hgrant]
    exact ⟨true, _, rfl, Ledger.withAccess_perm h.books h.positive h.apart, rfl, fun _ => rfl⟩
  · rw [if_neg hgrant]
    exact ⟨false, machine, rfl, h.books, rfl, fun protects =>
      absurd (protects _ _ _ h.mem) hgrant⟩

/-- A request to resize a live mapping finds one in its place, or none. -/
theorem remap_serves (h : machine.Holds ⟨address, old, .pages false⟩ others)
    (hold : Size.pageSize ∣ old) (hnew : Size.pageSize ∣ new) (positive : 0 < new)
    (mayMove : Bool) (environment : Environment) :
    ∃ found after, remap address old new mayMove environment machine = (.ok found, after) ∧
      machine.Serves after (if mayMove then environment.grantsPages machine.ledger new
        else growsHere environment machine.ledger address old new) found new (.pages false) others ∧
      (mayMove = false → ∀ target, found = some target → target = address) := by
  have hwhole : old % Size.pageSize = 0 ∧ new % Size.pageSize = 0 :=
    ⟨Nat.mod_eq_zero_of_dvd hold, Nat.mod_eq_zero_of_dvd hnew⟩
  have hknown := Ledger.pages?_eq h.books h.positive h.apart
  rw [remap, bind_apply_ok _ _ (ensure_apply _ hwhole _ _),
    bind_apply_ok _ _ (environment_apply ..), bind_apply_ok _ _ (get_apply ..),
    bind_apply_ok _ _ (Machine.countStray_apply ..)]
  simp only [hknown, Option.isSome_some, Option.map_some, Option.getD_some]
  have hcounted := Machine.sameBooks_counted rfl machine
  have hholds := hcounted.holds h
  generalize machine.counted true = counted at hcounted hholds ⊢
  have hbooks := Ledger.withoutPages_perm hholds.books hholds.positive hholds.apart
  -- a mapping that may move is granted with or without room behind it, so `stays` is split last
  generalize hstays : (decide (new ≤ old) || environment.growsInPlace machine.ledger address old new &&
    decide (machine.ledger.Vacant (address + old) (address + new))) = stays
  have hserved : (if mayMove then environment.grantsPages machine.ledger new
      else growsHere environment machine.ledger address old new) =
        (environment.grantsPages machine.ledger new && (stays || mayMove)) := by
    rw [growsHere, hstays]
    cases mayMove <;> simp
  rw [hserved]
  cases hgrant : environment.grantsPages machine.ledger new && (stays || mayMove) with
  | false =>
    rw [if_neg Bool.false_ne_true]
    exact ⟨none, _, rfl, ⟨rfl, by simp, hcounted.strays,
      fun _ => ⟨hcounted.ledger, hcounted.strays⟩⟩, by simp⟩
  | true =>
    rw [if_pos rfl]
    cases stays with
    | true =>
      refine ⟨some address, _, rfl, ⟨rfl, ?_, hcounted.strays, by simp⟩, ?_⟩
      · rintro _ ⟨⟩
        refine hholds.resized (hbooks.cons _) positive ?_
        rcases Bool.or_eq_true_iff.1 hstays with hless | hgrows
        · exact Or.inl (of_decide_eq_true hless)
        · have hvacant := of_decide_eq_true (Bool.and_eq_true_iff.1 hgrows).2
          exact Or.inr fun other hother =>
            hvacant other (h.books.mem_iff.2 (List.mem_cons_of_mem _ hother))
      · rintro - _ ⟨⟩
        rfl
    | false =>
      obtain ⟨target, after, hclaim, -, hvacant, hledger, hstrays, -⟩ :=
        Machine.claim_cases environment
          { counted with ledger := counted.ledger.withoutPages address (address + old) }
          Size.pageSize_pos new (.pages false)
      rw [if_neg Bool.false_ne_true, bind_apply_ok _ _ (modify_apply ..),
        bind_apply_ok _ _ hclaim]
      refine ⟨some target, _, rfl, ⟨rfl, ?_, hstrays.trans hcounted.strays, by simp⟩, ?_⟩
      · rintro _ ⟨⟩
        exact Machine.holds_placed (fun other hother => hholds.others_tidy hother)
          (hledger ▸ hbooks.cons _) positive fun other hother =>
            hvacant other (hbooks.mem_iff.2 hother)
      · rintro rfl
        simp at hgrant

end Pages

end PagedAlloc
