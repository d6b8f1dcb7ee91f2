import Mathlib.Algebra.GroupWithZero.Nat
import Mathlib.Algebra.Order.BigOperators.Group.List
import Mathlib.Algebra.Order.Group.Nat
import Mathlib.Data.List.Perm.Subperm
import PagedAlloc.Chain
import PagedAlloc.Machine.Environment

/-!
# The books of a machine

Unmapping a range of pages leaves all regions outside of it in the books, and regions of the books
that are counted once are no longer together than all of them. A kernel that never hands out more
bytes than there are addresses keeps all sizes together below the bound on sizes
(`Environment.FitsAddresses`). Whoever else uses the machine leaves the mappings of an allocator in
the books (`Chain.StaysMapped`).
-/

namespace PagedAlloc

variable {paging : Size.Paging}

/-- No address lies in both regions. -/
def Holding.Apart (a b : Holding) : Prop := a.stop ≤ b.address ∨ b.stop ≤ a.address

/-- The nodes of a chain that one ledger has as mappings stay in the books. -/
def Chain.StaysMapped {α : Type} (length : α → Nat) (chain : Chain α) (before after : Ledger) :
    Prop :=
  ∀ entry ∈ chain.toList, ⟨entry.1, length entry.2, .pages false⟩ ∈ before →
    ⟨entry.1, length entry.2, .pages false⟩ ∈ after

namespace Ledger

variable {ledger part : Ledger} {holding : Holding} {start stop : Nat}

/-- Regions outside of a range stay in the books when its pages are unmapped. -/
theorem mem_withoutPages (hmem : holding ∈ ledger)
    (apart : holding.stop ≤ start ∨ stop ≤ holding.address) :
    holding ∈ ledger.withoutPages start stop := by
  refine List.mem_flatMap.2 ⟨holding, hmem, ?_⟩
  unfold Holding.outside
  split
  · exact List.mem_singleton_self _
  · rw [if_pos apart]
    exact List.mem_singleton_self _

theorem total_eq_sum (ledger : Ledger) : ledger.total = (ledger.map Holding.length).sum := by
  induction ledger with
  | nil => rfl
  | cons holding rest ih => rw [total, ih, List.map_cons, List.sum_cons]

/-- Different regions of the books are no longer together than all of them. -/
theorem total_le_of_subset (distinct : part.Nodup) (h : part ⊆ ledger) :
    part.total ≤ ledger.total := by
  obtain ⟨same, hperm, hsub⟩ := distinct.subperm h
  rw [total_eq_sum, total_eq_sum, ← (hperm.map Holding.length).sum_nat]
  exact (hsub.map Holding.length).sum_le_sum fun _ _ => Nat.zero_le _

end Ledger

namespace Environment

/-- The kernel hands out no more bytes than a machine word can count. -/
def FitsAddresses (environment : Environment) : Prop :=
  ∀ ledger length, environment.grantsPages ledger length = true →
    Ledger.total ledger + length < Size.limit

/-- The kernel takes back every live mapping, as a whole. -/
def UnmapsLive (environment : Environment) : Prop :=
  ∀ ledger address length, ⟨address, length, .pages false⟩ ∈ ledger →
    environment.grantsUnmap ledger address length = true

/-- An ordinary machine hands out fewer bytes than there are addresses. -/
theorem ordinary_fitsAddresses [Size.Paging] : ordinary.FitsAddresses := by
  intro ledger length hgrant
  simp only [ordinary, Bool.and_eq_true, decide_eq_true_eq] at hgrant
  rw [Size.limit]
  omega

end Environment

end PagedAlloc
