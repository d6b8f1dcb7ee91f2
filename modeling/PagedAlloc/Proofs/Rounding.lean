import Mathlib.Order.Bounds.Basic
import Mathlib.Order.MinMax
import PagedAlloc.Proofs.Procedures

/-!
# Rounding up

Sizes are rounded up to multiples of an alignment, and the result may not fit a machine word even
where the size does. `Size.roundUp?` gives the least multiple that is not below a size just if this
multiple is below the limit (`Size.roundUp?_eq`, `Size.leastWord_roundUp?`). A length that is rounded
already is asked of the kernel as it is, so only the kernel refuses it (`Pages.map_granted`).
-/

namespace PagedAlloc

variable {paging : Size.Paging}

namespace Size

variable {value align rounded multiple length size : Nat}

/-- An answer is the least size of a kind, and there is none just if no size of that kind fits a
machine word. -/
structure LeastWord (suits : Nat → Prop) (answer : Option Nat) : Prop where
  some_iff : ∀ size, answer = some size ↔ IsLeast {size | suits size} size ∧ size < limit
  none_iff : answer = none ↔ ∀ size, suits size → limit ≤ size

namespace LeastWord

variable {suits : Nat → Prop} {least : Nat}

/-- If only sizes at the limit or beyond suit, then there is none to be had. -/
theorem of_large (large : ∀ size, suits size → limit ≤ size) : LeastWord suits none where
  some_iff size :=
    ⟨nofun, fun ⟨hleast, hfits⟩ => absurd hfits (Nat.not_lt.2 (large size hleast.1))⟩
  none_iff := ⟨fun _ => large, fun _ => rfl⟩

/-- The least size of a kind is an answer if it fits a machine word, and then no other one is. -/
theorem of_isLeast (h : IsLeast {size | suits size} least) :
    LeastWord suits (if least < limit then some least else none) := by
  split
  · rename_i hfits
    refine ⟨fun size => ⟨?_, ?_⟩, nofun, fun hlarge => ?_⟩
    · rintro ⟨⟩
      exact ⟨h, hfits⟩
    · rintro ⟨hleast, -⟩
      rw [hleast.unique h]
    · exact absurd hfits (Nat.not_lt.2 (hlarge least h.1))
  · rename_i hlarge
    exact of_large fun size hsuits => (Nat.le_of_not_lt hlarge).trans (h.2 hsuits)

end LeastWord

/-- Rounding down gives the greatest multiple that is not above a size. -/
theorem le_roundDown_iff (positive : 0 < align) (whole : align ∣ multiple) :
    multiple ≤ roundDown value align ↔ multiple ≤ value := by
  obtain ⟨count, rfl⟩ := whole
  rw [roundDown, ← Nat.div_mul_self_eq_mod_sub_self, Nat.mul_comm align count,
    Nat.mul_le_mul_right_iff positive, Nat.le_div_iff_mul_le positive]

/-- Rounding down what is almost one alignment above a size gives the least multiple that is not
below the size. -/
theorem isLeast_roundDown (positive : 0 < align) (value : Nat) :
    IsLeast {size | align ∣ size ∧ value ≤ size} (roundDown (value + (align - 1)) align) := by
  have hmod := Nat.mod_lt (value + (align - 1)) positive
  refine ⟨⟨Nat.dvd_sub_mod _, ?_⟩, ?_⟩
  · rw [roundDown]
    omega
  · rintro size ⟨⟨count, rfl⟩, hle⟩
    -- the multiple below the result is already below the value
    by_contra hless
    have hnext : align * (count + 1) ≤ roundDown (value + (align - 1)) align := by
      rw [roundDown, ← Nat.div_mul_self_eq_mod_sub_self, Nat.mul_comm align] at hless ⊢
      exact Nat.mul_le_mul_right _ (Nat.lt_of_mul_lt_mul_right (Nat.lt_of_not_le hless))
    rw [le_roundDown_iff positive (Nat.dvd_mul_right ..), Nat.mul_succ] at hnext
    omega

/-- Rounding up gives the least multiple that is not below a size, if that fits a machine word. -/
theorem roundUp?_eq (positive : 0 < align) (whole : align ∣ limit)
    (least : IsLeast {size | align ∣ size ∧ value ≤ size} rounded) :
    roundUp? value align = if rounded < limit then some rounded else none := by
  obtain rfl := least.unique (isLeast_roundDown positive value)
  have hiff : limit ≤ roundDown (value + (align - 1)) align ↔ limit ≤ value + (align - 1) :=
    le_roundDown_iff positive whole
  rw [roundUp?, add?]
  by_cases hfits : value + (align - 1) < limit
  · rw [if_pos hfits, if_pos (Nat.lt_of_not_le fun hle => Nat.not_le.2 hfits (hiff.1 hle))]
    rfl
  · rw [if_neg hfits, if_neg (Nat.not_lt.2 (hiff.2 (Nat.le_of_not_lt hfits)))]
    rfl

theorem leastWord_roundUp? (positive : 0 < align) (whole : align ∣ limit) (value : Nat) :
    LeastWord (fun size => align ∣ size ∧ value ≤ size) (roundUp? value align) := by
  have hleast := isLeast_roundDown positive value
  rw [roundUp?_eq positive whole hleast]
  exact .of_isLeast hleast

/-- A size that is rounded up becomes the least multiple that is not below it. -/
theorem isLeast_of_roundUp? (positive : 0 < align) (whole : align ∣ limit)
    (h : roundUp? value align = some rounded) :
    IsLeast {size | align ∣ size ∧ value ≤ size} rounded :=
  (((leastWord_roundUp? positive whole value).some_iff rounded).1 h).1

/-- A multiple that fits a machine word bounds what is rounded up to multiples. -/
theorem exists_roundUp?_le (positive : 0 < align) (whole : align ∣ limit) (multiple : align ∣ size)
    (enough : value ≤ size) (small : size < limit) :
    ∃ rounded, roundUp? value align = some rounded ∧ rounded ≤ size := by
  cases hround : roundUp? value align with
  | none =>
    have hlarge := (leastWord_roundUp? positive whole value).none_iff.1 hround size
      ⟨multiple, enough⟩
    exact absurd small (Nat.not_lt.2 hlarge)
  | some rounded =>
    exact ⟨rounded, rfl, (isLeast_of_roundUp? positive whole hround).2 ⟨multiple, enough⟩⟩

/-- What was rounded up stays as it is. -/
theorem roundUp?_self (positive : 0 < align) (whole : align ∣ limit)
    (h : roundUp? value align = some rounded) : roundUp? rounded align = some rounded := by
  obtain ⟨hleast, hfits⟩ := ((leastWord_roundUp? positive whole value).some_iff rounded).1 h
  exact ((leastWord_roundUp? positive whole rounded).some_iff rounded).2
    ⟨⟨⟨hleast.1.1, Nat.le_refl _⟩, fun _ hmem => hmem.2⟩, hfits⟩

/-- A least multiple that is also no less than some other multiple. -/
theorem isLeast_max (least : IsLeast {size | align ∣ size ∧ value ≤ size} rounded)
    (whole : align ∣ multiple) :
    IsLeast {size | align ∣ size ∧ max value multiple ≤ size} (max rounded multiple) := by
  refine ⟨⟨?_, max_le_max least.1.2 (Nat.le_refl _)⟩, ?_⟩
  · rcases max_choice rounded multiple with heq | heq <;> rw [heq]
    exacts [least.1.1, whole]
  · rintro size ⟨hdvd, hle⟩
    exact max_le (least.2 ⟨hdvd, (le_max_left ..).trans hle⟩) ((le_max_right ..).trans hle)

end Size

namespace Pages

/-- A kernel that grants a whole number of pages maps them. -/
theorem map_granted {environment : Environment} {machine : Machine} {length : Nat}
    (whole : Size.pageSize ∣ length) (positive : 0 < length) (small : length < Size.limit)
    (grants : environment.grantsPages machine.ledger length = true) :
    ∃ address machine', map length environment machine = (.ok (some address), machine') := by
  have hwhole : (MapRequest.anonymous length).size % Size.pageSize = 0 :=
    Nat.mod_eq_zero_of_dvd whole
  have hsome : (MapRequest.anonymous length).size ≠ 0 := Nat.ne_of_gt positive
  have hgrant : ((MapRequest.anonymous length).flags.isAnonymous &&
      environment.grantsPages machine.ledger (MapRequest.anonymous length).size) = true :=
    Bool.and_eq_true_iff.2 ⟨rfl, grants⟩
  obtain ⟨address, after, hclaim, -⟩ :=
    Machine.claim_cases environment machine Size.pageSize_pos (MapRequest.anonymous length).size
      (.pages ((MapRequest.anonymous length).protection = .none))
  unfold map
  rw [Size.roundToPages?_eq_self whole small]
  dsimp only
  rw [serve, Procedure.bind_apply_ok _ _ (Procedure.ensure_apply _ hwhole _ _), if_neg hsome,
    Procedure.bind_apply_ok _ _ (Procedure.environment_apply ..),
    Procedure.bind_apply_ok _ _ (Procedure.get_apply ..), if_pos hgrant,
    Procedure.bind_apply_ok _ _ hclaim]
  exact ⟨address, _, rfl⟩

/-- Whole pages that fit a machine word are refused by the kernel only. -/
theorem grants_of_refused {environment : Environment} {machine machine' : Machine} {length : Nat}
    (whole : Size.pageSize ∣ length) (positive : 0 < length) (small : length < Size.limit)
    (hmap : map length environment machine = (.ok none, machine')) :
    environment.grantsPages machine.ledger length = false := by
  refine eq_false_of_ne_true fun hgrants => ?_
  obtain ⟨address, after, hgranted⟩ := map_granted whole positive small hgrants
  have hsame := congrArg Prod.fst (hmap.symm.trans hgranted)
  cases hsame

end Pages

end PagedAlloc
