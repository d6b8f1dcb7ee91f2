import PagedAlloc.Proofs.LiveRegions

/-!
# Owned regions

Whoever obtained a region by a size and an alignment may name it by them for as long as it is live
(`Region.Live`). A fresh region is live beside all others (`Region.allocate_obtains`), and giving it
back takes just this one out of the books (`Region.Live.release`).
-/

namespace PagedAlloc

variable {paging : Size.Paging}

/-- Who grants the regions of a family. -/
def Family.origin (align : Nat) : Family → Origin
  | .heap => .heap align
  | .pages => .pages false

/-- A region of a family that was asked for with this size and alignment has so many bytes of memory:
just the size from the heap, and whole pages from the kernel. -/
def Family.Spans [Size.Paging] (align size length : Nat) : Family → Prop
  | .heap => Heap.IsLayout size align ∧ length = size
  | .pages => 0 < size ∧ Size.IsPowerOfTwo align ∧ align ≤ Size.pageSize ∧
    Size.roundToPages? size = some length

open Procedure

variable {environment : Environment} {machine : Machine} {others : Ledger} {region : Region}
  {source : Source} {family : Family} {size newSize length align : Nat}

namespace Family.Spans

/-- The memory of a region has room for what was asked for. -/
theorem le (h : family.Spans align size length) : size ≤ length := by
  cases family with
  | heap => exact Nat.le_of_eq h.2.symm
  | pages => exact Size.le_of_roundToPages?_eq_some h.2.2.2

theorem positive (h : family.Spans align size length) : 0 < size := by
  cases family with
  | heap => exact h.1.positive.1
  | pages => exact h.1

/-- The memory of a region has a size that suits its family. -/
theorem suits (h : family.Spans align size length) : family.Suits align length := by
  cases family with
  | heap => exact h.2 ▸ h.1
  | pages =>
    exact ⟨Size.dvd_of_roundToPages?_eq_some h.2.2.2, Nat.lt_of_lt_of_le h.1 h.le,
      Size.lt_limit_of_roundToPages?_eq_some h.2.2.2⟩

/-- A size that suits the family may be asked for as it is: no bytes are added. -/
theorem of_suits (suits : family.Suits align length) (power : Size.IsPowerOfTwo align)
    (small : align ≤ Size.pageSize) : family.Spans align length length := by
  cases family with
  | heap => exact ⟨suits, rfl⟩
  | pages => exact ⟨suits.2.1, power, small, Size.roundToPages?_eq_self suits.1 suits.2.2⟩

/-- All of the memory of a region may be named as its size. -/
theorem self (h : family.Spans align size length) : family.Spans align length length := by
  cases family with
  | heap => exact ⟨h.2 ▸ h.1, rfl⟩
  | pages => exact of_suits h.suits h.2.1 h.2.2.1

end Family.Spans

namespace Region

/-- The entry of a region in the books. -/
def holding (family : Family) (align : Nat) (region : Region) : Holding :=
  ⟨region.address, region.memory.length, family.origin align⟩

/-- A region that was asked for with this size and alignment is live beside the others. -/
structure Live [Size.Paging] (machine : Machine) (family : Family) (align size : Nat)
    (region : Region) (others : Ledger) : Prop where
  holds : machine.Holds (region.holding family align) others
  spans : family.Spans align size region.memory.length

/-- No address of the region is that of a live region in the books. -/
def Elsewhere (region : Region) (ledger : Ledger) : Prop :=
  ledger.Vacant region.address (region.address + region.memory.length)

/-- A live region shares no address with the others. -/
theorem Live.elsewhere (h : region.Live machine family align size others) :
    region.Elsewhere others :=
  fun other hother => (h.holds.apart other hother).symm

/-! ## Fresh regions -/

theorem sameBooks_log (machine : Machine) (log : List Event) :
    machine.SameBooks { machine with log := log } := ⟨rfl, rfl⟩

/-- A refusal only writes to the log, whether the process ends or an error is returned. -/
theorem refused_books (aborts : Bool) (size align : Nat) (event : Event)
    (environment : Environment) (machine : Machine) :
    ∃ reason after, (refused aborts size align event : Procedure Machine Region) environment machine =
      (.error reason, after) ∧ machine.SameBooks after := by
  cases aborts <;> exact ⟨_, _, rfl, sameBooks_log ..⟩

/-- What a request for a fresh region leaves: a region is live beside all that was live before, or the
books are as they were. -/
structure Obtains [Size.Paging] (before after : Machine) (source : Source) (align size : Nat)
    (result : Except Stop Region) : Prop where
  strays : after.strays = before.strays
  refused : ∀ reason, result = .error reason → before.SameBooks after
  granted : ∀ region, result = .ok region → region.Whole ∧
    region.Live after source.family align size before.ledger ∧
    (source = .pageMap → region.memory = Memory.zeroed region.length)

theorem Obtains.of_refused {after : Machine} {reason : Stop} (same : machine.SameBooks after) :
    Obtains machine after source align size (.error reason) :=
  ⟨same.strays, fun _ _ => same, by simp⟩

/-- A region from the heap is live beside the others, and a refusal leaves the books alone. -/
theorem allocateHeap_obtains (tidy : machine.Tidy) (hfamily : source.family = .heap)
    (size align : Nat) (environment : Environment) :
    ∃ result after, allocateHeap source size align environment machine = (result, after) ∧
      Obtains machine after source align size result := by
  rw [allocateHeap]
  by_cases hlayout : Heap.IsLayout size align
  · obtain ⟨found, middle, hrun, hserves⟩ := Heap.allocate_serves tidy hlayout environment
    rw [bind_apply_ok _ _ (ensureLayout_apply hlayout _ _), bind_apply_ok _ _ hrun]
    cases found with
    | none =>
      obtain ⟨reason, after, hrefused, hsame⟩ := refused_books source.aborts size align
        (.heapRefused size) environment middle
      exact ⟨_, after, hrefused, .of_refused ((hserves.refused rfl).trans hsame)⟩
    | some address =>
      -- zeroed or not, the memory has the size that was asked for
      refine ⟨_, middle, rfl, hserves.strays, by simp, ?_⟩
      rintro region ⟨⟩
      have hspans : source.family.Spans align size
          (if source.zeroes then Memory.zeroed size
            else ⟨size, environment.residue address size⟩ : Memory Empty).length := by
        rw [hfamily]
        refine ⟨hlayout, ?_⟩
        split <;> rfl
      refine ⟨rfl, ⟨?_, hspans⟩, ?_⟩
      · have hlength : (if source.zeroes then Memory.zeroed size
            else ⟨size, environment.residue address size⟩ : Memory Empty).length = size := by
          split <;> rfl
        have hholds := hserves.holds address rfl
        rw [holding, hfamily]
        simp only [ofMemory, hlength]
        exact hholds
      · rintro rfl
        cases hfamily
  · rw [bind_apply_error _ _ (ensureLayout_apply_not hlayout _ _)]
    exact ⟨_, machine, rfl, .of_refused (.refl _)⟩

/-- A mapping is live beside the others and all zeros, and a refusal leaves the books alone. -/
theorem allocatePages_obtains (tidy : machine.Tidy) (size align : Nat)
    (environment : Environment) :
    ∃ result after, allocatePages size align environment machine = (result, after) ∧
      Obtains machine after .pageMap align size result := by
  by_cases hbad : size = 0 ∨ ¬ Size.IsPowerOfTwo align ∨ Size.pageSize < align
  · rw [allocatePages, if_pos hbad]
    exact ⟨_, machine, rfl, .of_refused (.refl _)⟩
  rw [allocatePages, if_neg hbad]
  simp only [not_or, Decidable.not_not, Nat.not_lt] at hbad
  obtain ⟨hsize, hpower, hsmall⟩ := hbad
  cases hround : Size.roundToPages? size with
  | none => exact ⟨_, machine, rfl, .of_refused (.refl _)⟩
  | some length =>
    have hpositive : 0 < length :=
      Nat.lt_of_lt_of_le (Nat.pos_of_ne_zero hsize) (Size.le_of_roundToPages?_eq_some hround)
    obtain ⟨found, after, hrun, hserves⟩ :=
      Pages.map_serves tidy (Size.dvd_of_roundToPages?_eq_some hround) hpositive
        (Size.lt_limit_of_roundToPages?_eq_some hround) environment
    dsimp only
    rw [bind_apply_ok _ _ (orFail_some ..), bind_apply_ok _ _ hrun]
    cases found with
    | none => exact ⟨_, after, rfl, .of_refused (hserves.refused rfl)⟩
    | some address =>
      refine ⟨_, after, rfl, hserves.strays, by simp, ?_⟩
      rintro region ⟨⟩
      exact ⟨rfl,
        ⟨hserves.holds address rfl, Nat.pos_of_ne_zero hsize, hpower, hsmall, hround⟩,
        fun _ => rfl⟩

/-- A fresh region is live beside all others, and holds zeros if it is mapped. -/
theorem allocate_obtains (tidy : machine.Tidy) (source : Source) (size align : Nat)
    (environment : Environment) :
    ∃ result after, allocate source size align environment machine = (result, after) ∧
      Obtains machine after source align size result := by
  cases source with
  | pageMap => exact allocatePages_obtains tidy size align environment
  | heapOrAbort | heapOrFail | heapZeroedOrAbort | heapZeroedOrFail =>
    exact allocateHeap_obtains tidy rfl size align environment

/-! ## Giving back -/

namespace Live

/-- The same place in the books may be named by all of its length. -/
theorem of_length {target : Region} (h : target.Live machine family align size others)
    (moved : Region) (address : moved.address = target.address)
    (length : moved.memory.length = target.memory.length) (whole : moved.Whole) :
    moved.Live machine family align moved.length others := by
  refine ⟨?_, ?_⟩
  · rw [holding, address, length]
    exact h.holds
  · rw [← whole, length]
    exact h.spans.self

/-- A region that was obtained beside another one takes its place once that one is given back. -/
theorem replaced {middle after : Machine} {target : Region}
    (h : region.Live machine family align size others)
    (hnew : target.Live middle family align newSize machine.ledger)
    (books : after.ledger.Perm (target.holding family align :: others)) :
    target.Live after family align newSize others where
  holds := hnew.holds.of_places books fun other hother =>
    ⟨other, h.holds.books.mem_iff.2 (List.mem_cons_of_mem _ hother), rfl, rfl⟩
  spans := hnew.spans

/-- A region stays live while another one is obtained beside it. -/
theorem beside {middle : Machine} {target : Region}
    (h : region.Live machine family align size others)
    (hnew : target.Live middle family align newSize machine.ledger) :
    region.Live middle family align size (target.holding family align :: others) :=
  ⟨h.holds.beside hnew.holds, h.spans⟩

/-- Giving a live region back takes it out of the books, and names it as it is there. -/
theorem release (h : region.Live machine family align size others)
    {disposal : Disposal} (hfamily : disposal.family = family) (unmaps : environment.UnmapsLive) :
    ∃ after, Region.release disposal region.address size align environment machine =
        (.ok (), after) ∧
      after.ledger.Perm others ∧ after.strays = machine.strays := by
  obtain ⟨holds, spans⟩ := h
  subst hfamily
  unfold Region.release
  cases disposal with
  | heapFree =>
    obtain ⟨hlayout, hlength⟩ := spans
    rw [holding, hlength] at holds
    dsimp only
    rw [if_pos hlayout]
    exact Heap.free_apply holds environment
  | pageUnmap =>
    obtain ⟨-, -, -, hround⟩ := spans
    dsimp only
    rw [hround]
    exact Pages.unmap_live holds (Size.dvd_of_roundToPages?_eq_some hround) unmaps

end Live

end Region

end PagedAlloc
