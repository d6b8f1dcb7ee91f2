import Mathlib.Algebra.BigOperators.Fin
import PagedAlloc.Proofs.BlocksInUse
import PagedAlloc.Proofs.CategoryRelease
import PagedAlloc.Segregated.Basic

/-!
# States of a segregated list

A segregated list is sound if each of its categories is and no two of them share an address. An
operation on one category keeps the others (`Sound.onCategory`), and an address in a chunk leads
back to the chunk, its category and the block (`Sound.chunkHolding?_eq`, `Sound.blockOf_eq`,
`Sound.categoryAt_eq`).
-/

namespace PagedAlloc.SegregatedList

variable {paging : Size.Paging}

open Procedure Layout

/-- What holds of a segregated list between two operations. -/
structure Sound [Size.Paging] (machine : Machine) (list : SegregatedList) : Prop where
  sound : ∀ index : Fin categoryCount, (list.category index).Sound machine
  index : ∀ index : Fin categoryCount, (list.category index).index = index
  chunkSize : ∀ index : Fin categoryCount, (list.category index).chunkSize = chunkSizeOf index
  apart : ∀ i j : Fin categoryCount, i ≠ j → ∀ p ∈ (list.category i).chunks.toList,
    ∀ q ∈ (list.category j).chunks.toList, Chunk.Apart p q

/-- A block is in use and has at least this many bytes. -/
def Holds (list : SegregatedList) (ref : BlockRef) (size : Nat) : Prop :=
  ∃ (index : Fin categoryCount) (usable : Nat),
    (list.category index).Uses ref usable ∧ size ≤ usable

/-- No category has a block in use here. -/
def Unused (list : SegregatedList) (ref : BlockRef) : Prop :=
  ∀ (index : Fin categoryCount) size, ¬ (list.category index).Uses ref size

/-- The blocks in use with their payload sizes, each with the index of its category. -/
def inUse (list : SegregatedList) : Set (Fin categoryCount × BlockRef × Nat) :=
  { block | (list.category block.1).Uses block.2.1 block.2.2 }

/-- Payload bytes in use in all categories together. -/
def totalUsed (list : SegregatedList) : Nat := ∑ index, (list.category index).used

/-- Bytes of all chunks together. -/
def totalSize (list : SegregatedList) : Nat :=
  ∑ index, Category.totalSize (list.category index).chunks.toList

/-- The cell at a distance from the start of a payload. -/
def payloadCell? (list : SegregatedList) (index : Fin categoryCount) (ref : BlockRef)
    (distance : Nat) : Option (Cell BlockHeader) :=
  (list.category index).cell? ref.chunk (ref.payloadOffset + distance)

/-- The mapped bytes are those of the chunks, category by category, and a machine word counts all of
them together. -/
structure Exact (list : SegregatedList) : Prop where
  mapped : ∀ index : Fin categoryCount, (list.category index).Exact
  bounded : list.totalSize < Size.limit

/-- From one state of a list to another, the bytes in use change by those that were lost and those
that were gained, and the mapped bytes stay exact. -/
structure Balances (lost gained : Nat) (before after : SegregatedList) : Prop where
  used : after.totalUsed + lost = before.totalUsed + gained
  exact : before.Exact → after.Exact

/-- The chunks of a list stay in the books. -/
def StaysMapped (list : SegregatedList) (before after : Machine) : Prop :=
  ∀ index : Fin categoryCount, (list.category index).StaysMapped before after

/-- From one state of a list to another, all used blocks but the touched ones stay and keep their
payloads. -/
structure Evolves (touched : Set BlockRef) (before after : SegregatedList) : Prop where
  stays : ∀ (index : Fin categoryCount) ref size, (before.category index).Uses ref size →
    ref ∉ touched → (after.category index).Uses ref size
  cells : ∀ (index : Fin categoryCount) ref size, (before.category index).Uses ref size →
    ref ∉ touched → Category.SameCells (before.category index) (after.category index) ref size

variable {environment : Environment} {machine machine' : Machine}
  {list first second third : SegregatedList} {index : Fin categoryCount} {address size : Nat}
  {chunk : Chunk} {ref : BlockRef}
  {touched : Set BlockRef}

namespace Evolves

theorem refl (touched : Set BlockRef) (list : SegregatedList) : Evolves touched list list :=
  ⟨fun _ _ _ huses _ => huses, fun _ _ _ _ _ _ _ _ => rfl⟩

/-- Blocks that neither of two operations touches are not touched by both. -/
theorem trans (h : Evolves touched first second) (h' : Evolves touched second third) :
    Evolves touched first third where
  stays index ref size huses hother :=
    h'.stays index ref size (h.stays index ref size huses hother) hother
  cells index ref size huses hother x hle hlt :=
    (h'.cells index ref size (h.stays index ref size huses hother) hother x hle hlt).trans
      (h.cells index ref size huses hother x hle hlt)

theorem mono {more : Set BlockRef} (h : Evolves touched first second) (sub : touched ⊆ more) :
    Evolves more first second :=
  ⟨fun index ref size huses hother => h.stays index ref size huses fun hin => hother (sub hin),
    fun index ref size huses hother => h.cells index ref size huses fun hin => hother (sub hin)⟩

/-- The cells of a payload that was not touched are the same as before. -/
theorem payloadCell?_eq (h : Evolves touched first second)
    (huses : (first.category index).Uses ref size) (hother : ref ∉ touched) {x : Nat}
    (hx : x < size) : second.payloadCell? index ref x = first.payloadCell? index ref x :=
  h.cells index ref size huses hother _ (Nat.le_add_right ..) (Nat.add_lt_add_left hx _)

/-- Nothing is said of blocks that may be touched. -/
theorem univ (before after : SegregatedList) : Evolves Set.univ before after :=
  ⟨fun _ _ _ _ hother => absurd (Set.mem_univ _) hother,
    fun _ _ _ _ hother => absurd (Set.mem_univ _) hother⟩

/-- What touches only a block that was not in use before touches none of those that were. -/
theorem of_fresh (h : Evolves (insert ref touched) first second)
    (hfresh : first.Unused ref) : Evolves touched first second := by
  have hother : ∀ (index : Fin categoryCount) other size, (first.category index).Uses other size →
      other ∉ touched → other ∉ insert ref touched := by
    rintro index other size huses huntouched (rfl | hin)
    · exact hfresh index size huses
    · exact huntouched hin
  exact ⟨fun index other size huses huntouched =>
      h.stays index other size huses (hother index other size huses huntouched),
    fun index other size huses huntouched =>
      h.cells index other size huses (hother index other size huses huntouched)⟩

end Evolves

/-! ## One category at a time -/

/-- A category is in the state that it was given. -/
theorem category_withCategory_self (list : SegregatedList) (index : Fin categoryCount)
    (category : Category) : (list.withCategory index category).category index = category := by
  simp [SegregatedList.category, withCategory]

/-- The other categories stay as they are. -/
theorem category_withCategory_ne (list : SegregatedList) {index other : Fin categoryCount}
    (h : other ≠ index) (category : Category) :
    (list.withCategory index category).category other = list.category other := by
  have hne : (index : Nat) ≠ other := fun heq => h (Fin.ext heq.symm)
  simp [SegregatedList.category, withCategory, Vector.getElem_set_ne, hne]

/-- Putting back what is there changes nothing. -/
theorem withCategory_self (list : SegregatedList) (index : Fin categoryCount) :
    list.withCategory index (list.category index) = list := by
  simp [SegregatedList.category, withCategory]

/-- What holds of the category that was put in and of all others holds of every category. -/
theorem forall_withCategory (property : Fin categoryCount → Category → Prop) {after : Category}
    (own : property index after)
    (others : ∀ other, other ≠ index → property other (list.category other)) :
    ∀ other, property other ((list.withCategory index after).category other) := by
  intro other
  by_cases heq : other = index
  · subst heq
    rwa [category_withCategory_self]
  · rw [category_withCategory_ne list heq]
    exact others other heq

/-- An operation on a category is a run on the state of this category. -/
theorem onCategory_apply {α : Type} {procedure : Procedure (Machine × Category) α}
    {result : Except Stop α} {after : Category}
    (hrun : procedure environment (machine, list.category index) = (result, machine', after)) :
    onCategory index procedure environment (machine, list) =
      (result, machine', list.withCategory index after) := by
  rw [onCategory, within, hrun]

/-- A sum over all categories has the part of one category and a rest, which stays if another category
is put in there. -/
theorem exists_sum_withCategory {M : Type} [AddCommMonoid M] (measure : Category → M)
    (list : SegregatedList) (index : Fin categoryCount) :
    ∃ rest, ∑ other, measure (list.category other) = measure (list.category index) + rest ∧
      ∀ after, ∑ other, measure ((list.withCategory index after).category other) =
        measure after + rest := by
  refine ⟨∑ other ∈ Finset.univ.erase index, measure (list.category other),
    (Finset.add_sum_erase _ (fun other => measure (list.category other))
      (Finset.mem_univ index)).symm, fun after => ?_⟩
  rw [← Finset.add_sum_erase _ _ (Finset.mem_univ index), category_withCategory_self]
  refine congrArg (measure after + ·) (Finset.sum_congr rfl fun other hother => ?_)
  rw [category_withCategory_ne list (Finset.ne_of_mem_erase hother)]

/-- A sum over all categories changes by what it changes for the category that was put in. -/
theorem sum_withCategory (measure : Category → Nat) (list : SegregatedList)
    (index : Fin categoryCount) (after : Category) :
    ∑ other, measure ((list.withCategory index after).category other) +
        measure (list.category index) =
      ∑ other, measure (list.category other) + measure after := by
  obtain ⟨rest, hbefore, hafter⟩ := exists_sum_withCategory measure list index
  rw [hbefore, hafter]
  omega

theorem mem_inUse {block : Fin categoryCount × BlockRef × Nat} :
    block ∈ list.inUse ↔ block.2 ∈ (list.category block.1).inUse :=
  Category.mem_inUse.symm

/-- Which blocks are in use is told by the set of them. -/
theorem uses_of_inUse_eq (same : second.inUse = first.inUse)
    (huses : (first.category index).Uses ref size) : (second.category index).Uses ref size := by
  have hmem : (index, ref, size) ∈ first.inUse := huses
  rwa [← same] at hmem

section InUse

variable {after : Category} {old : Nat}

/-- What is in use after another category was put in. -/
theorem mem_inUse_withCategory {block : Fin categoryCount × BlockRef × Nat} :
    block ∈ (list.withCategory index after).inUse ↔
      block.1 = index ∧ block.2 ∈ after.inUse ∨ block.1 ≠ index ∧ block ∈ list.inUse := by
  rw [mem_inUse, mem_inUse]
  by_cases heq : block.1 = index
  · rw [heq, category_withCategory_self]
    simp
  · rw [category_withCategory_ne list heq]
    simp [heq]

/-- A category that keeps its blocks in use keeps those of the list. -/
theorem inUse_withCategory_self (same : after.inUse = (list.category index).inUse) :
    (list.withCategory index after).inUse = list.inUse := by
  ext ⟨i, block⟩
  rw [mem_inUse_withCategory, same, mem_inUse]
  by_cases heq : i = index
  · simp [heq]
  · simp [heq]

/-- A block that a category gains is gained by the list. -/
theorem inUse_withCategory_insert
    (gained : after.inUse = insert (ref, size) (list.category index).inUse) :
    (list.withCategory index after).inUse = insert (index, ref, size) list.inUse := by
  ext ⟨i, block⟩
  rw [mem_inUse_withCategory, gained, Set.mem_insert_iff, mem_inUse]
  by_cases heq : i = index
  · simp [heq]
  · simp [heq]

/-- A block that a category loses is lost by the list. -/
theorem inUse_withCategory_erase
    (lost : after.inUse = (list.category index).inUse.erase (ref, size)) :
    (list.withCategory index after).inUse = list.inUse \ {(index, ref, size)} := by
  ext ⟨i, block⟩
  rw [mem_inUse_withCategory, lost, Set.mem_sdiff, Set.mem_singleton_iff, mem_inUse]
  by_cases heq : i = index
  · simp [heq, and_comm]
  · simp [heq]

/-- A block that is resized is the same block in the list with another size. -/
theorem inUse_withCategory_resize
    (resized : after.inUse = insert (ref, size) ((list.category index).inUse.erase (ref, old))) :
    (list.withCategory index after).inUse =
      insert (index, ref, size) (list.inUse \ {(index, ref, old)}) := by
  ext ⟨i, block⟩
  rw [mem_inUse_withCategory, resized, Set.mem_insert_iff, Set.mem_sdiff, Set.mem_singleton_iff,
    mem_inUse]
  by_cases heq : i = index
  · simp [heq, and_comm]
  · simp [heq]

end InUse

namespace Balances

variable {lost gained lost' gained' : Nat}

theorem refl (list : SegregatedList) : Balances 0 0 list list := ⟨rfl, fun exact => exact⟩

theorem trans (h : Balances lost gained first second) (h' : Balances lost' gained' second third) :
    Balances (lost + lost') (gained + gained') first third where
  used := by
    have hfirst := h.used
    have hsecond := h'.used
    omega
  exact exact := h'.exact (h.exact exact)

end Balances

/-- What balances in one category balances in the list. -/
theorem balances_withCategory {lost gained : Nat} {after : Category}
    (h : Category.Balances lost gained (list.category index) after) :
    Balances lost gained list (list.withCategory index after) where
  used := by
    have hsum := sum_withCategory Category.used list index after
    have hused := h.used
    simp only [totalUsed]
    omega
  exact exact := by
    have hsum := sum_withCategory (fun category => Category.totalSize category.chunks.toList) list
      index after
    have hsizes := h.sizes
    have hbounded := exact.bounded
    refine ⟨forall_withCategory (fun _ category => category.Exact) (h.exact (exact.mapped index))
      fun other _ => exact.mapped other, ?_⟩
    simp only [totalSize] at hbounded ⊢
    omega

theorem category_empty (index : Fin categoryCount) :
    empty.category index = Category.empty index (chunkSizeOf index) := by
  simp [empty, SegregatedList.category]

namespace Sound

/-- A list that has nothing mapped is sound. -/
theorem empty (machine : Machine) : Sound machine SegregatedList.empty := by
  have hmultiples : ∀ index : Fin categoryCount, ∀ length ∈ chunkSizeOf index,
      0 < length ∧ 65536 ∣ length ∧ length < Size.limit := by decide
  have hlengths : ∀ index : Fin categoryCount, ∀ length ∈ chunkSizeOf index,
      0 < length ∧ Size.pageSize ∣ length ∧ length < Size.limit := fun index length hlength =>
    have ⟨hpositive, hmultiple, hsmall⟩ := hmultiples index length hlength
    ⟨hpositive, Nat.dvd_trans Size.Paging.divides hmultiple, hsmall⟩
  refine ⟨?_, ?_, ?_, ?_⟩
  · intro index
    rw [category_empty]
    exact Category.Sound.empty machine index (hlengths index)
  · intro index
    rw [category_empty]
    rfl
  · intro index
    rw [category_empty]
    rfl
  · intro i j _ p hp
    have hnone : (Category.empty i (chunkSizeOf i)).chunks.toList = [] := rfl
    rw [category_empty, hnone] at hp
    exact absurd hp List.not_mem_nil

/-- The books may change as long as the chunks stay in them. -/
theorem of_machine (h : Sound machine list) (held : list.StaysMapped machine machine') :
    Sound machine' list :=
  ⟨fun index => (h.sound index).of_machine (held index), h.index, h.chunkSize, h.apart⟩

/-- The log says nothing about blocks. -/
theorem of_log (h : Sound machine list) (log : List Event) :
    Sound { machine with log := log } list :=
  h.of_machine fun _ _ _ hheld => hheld

/-- A procedure on one category that keeps it sound keeps the list sound and the other categories as
they were. -/
theorem onCategory {α : Type} (h : Sound machine list) (index : Fin categoryCount)
    {procedure : Procedure (Machine × Category) α} {result : Except Stop α} {after : Category}
    (hrun : procedure environment (machine, list.category index) = (result, machine', after))
    (hsound : after.Sound machine')
    (hevolves : Category.Evolves touched (machine, list.category index) (machine', after)) :
    SegregatedList.onCategory index procedure environment (machine, list) =
        (result, machine', list.withCategory index after) ∧
      Sound machine' (list.withCategory index after) ∧
      Evolves touched list (list.withCategory index after) := by
  -- the chunks of the other categories are regions of others to this one
  have hspared : ∀ other, other ≠ index → ∀ q ∈ (list.category other).chunks.toList,
      ⟨q.1, q.2.size, .pages false⟩ ∈ machine'.ledger ∧
        after.Avoids ⟨q.1, q.2.size, .pages false⟩ := by
    intro other hne q hq
    exact hevolves.others _ ((h.sound other).laid q.1 q.2 hq).held fun mine hmine =>
      h.apart other index hne q hq mine hmine
  have hother : ∀ other, other ≠ index → Category.Sound machine' (list.category other) :=
    fun other hne => (h.sound other).of_machine fun q hq _ => (hspared other hne q hq).1
  have hapart : ∀ other, other ≠ index → ∀ p ∈ after.chunks.toList,
      ∀ q ∈ (list.category other).chunks.toList, Chunk.Apart p q :=
    fun other hne p hp q hq => ((hspared other hne q hq).2 p hp).symm
  refine ⟨onCategory_apply hrun,
    ⟨forall_withCategory (fun _ category => category.Sound machine') hsound hother,
      forall_withCategory (fun other category => category.index = other)
        (hevolves.index.trans (h.index index)) fun other _ => h.index other,
      forall_withCategory (fun other category => category.chunkSize = chunkSizeOf other)
        (hevolves.chunkSize.trans (h.chunkSize index)) fun other _ => h.chunkSize other, ?_⟩,
    ⟨forall_withCategory (fun other category => ∀ ref size, (list.category other).Uses ref size →
        ref ∉ touched → category.Uses ref size) hevolves.stays fun _ _ _ _ huses _ => huses,
      forall_withCategory (fun other category => ∀ ref size, (list.category other).Uses ref size →
        ref ∉ touched → Category.SameCells (list.category other) category ref size)
        hevolves.cells fun _ _ _ _ _ _ _ _ _ => rfl⟩⟩
  intro i j hne p hp q hq
  by_cases hi : i = index <;> by_cases hj : j = index
  · exact absurd (hi.trans hj.symm) hne
  · subst hi
    rw [category_withCategory_self] at hp
    rw [category_withCategory_ne list hj] at hq
    exact hapart j hj p hp q hq
  · subst hj
    rw [category_withCategory_ne list hi] at hp
    rw [category_withCategory_self] at hq
    exact (hapart i hi q hq p hp).symm
  · rw [category_withCategory_ne list hi] at hp
    rw [category_withCategory_ne list hj] at hq
    exact h.apart i j hne p hp q hq

/-- Two chunks of a list that share an address are the same one of the same category. -/
theorem eq_of_overlap (h : Sound machine list) {i j : Fin categoryCount} {p q : Nat × Chunk}
    (hp : p ∈ (list.category i).chunks.toList) (hq : q ∈ (list.category j).chunks.toList)
    (hapart : ¬ Chunk.Apart p q) : i = j ∧ p = q := by
  by_cases hij : i = j
  · subst hij
    refine ⟨rfl, ?_⟩
    have haddress := ((h.sound i).apart p hp q hq).resolve_right hapart
    obtain ⟨place, chunk⟩ := p
    obtain ⟨_, other⟩ := q
    subst haddress
    exact congrArg _ ((h.sound i).sequence.mem_unique hp hq)
  · exact absurd (h.apart i j hij p hp q hq) hapart

/-- The chunks of a list fit the addresses together with any mapping that the kernel grants. -/
theorem totalSize_lt (h : Sound machine list) (hfits : environment.FitsAddresses) {length : Nat}
    (hgrant : environment.grantsPages machine.ledger length = true) :
    list.totalSize + length < Size.limit := by
  let part : Ledger := (List.finRange categoryCount).flatMap fun index =>
    (list.category index).chunks.toList.map fun entry => ⟨entry.1, entry.2.size, .pages false⟩
  -- the chunks are different entries of the books, so their lengths add up to no more than all
  -- that is held
  have hdistinct : part.Nodup := by
    rw [List.nodup_flatMap]
    constructor
    · intro index _
      have haddresses := (h.sound index).sequence.distinct
      exact List.Nodup.of_map Holding.address (by simpa [Function.comp_def] using haddresses)
    · refine (List.nodup_finRange _).imp fun {i j} hne => ?_
      simp only [Function.onFun, List.disjoint_left, List.mem_map]
      rintro _ ⟨p, hp, rfl⟩ ⟨q, hq, heq⟩
      have hapart := h.apart i j hne p hp q hq
      have hpositive := (h.sound i).size_pos hp
      obtain ⟨haddress, hlength, -⟩ := Holding.mk.inj heq
      simp only [Chunk.Apart] at hapart
      omega
  have hsub : part ⊆ machine.ledger := by
    intro holding hmem
    obtain ⟨index, -, hmem⟩ := List.mem_flatMap.1 hmem
    obtain ⟨entry, hentry, rfl⟩ := List.mem_map.1 hmem
    exact ((h.sound index).laid entry.1 entry.2 hentry).held
  have htotal : part.total = list.totalSize := by
    rw [Ledger.total_eq_sum, List.map_flatMap, List.flatMap_def, List.sum_flatten, totalSize,
      Fin.sum_univ_def, List.map_map]
    simp [Category.totalSize, Function.comp_def]
  have hle := Ledger.total_le_of_subset hdistinct hsub
  have hlt := hfits _ _ hgrant
  omega

/-- A search for a chunk finds the one chunk that satisfies the test. -/
theorem chunkWhere?_eq {test : Nat → Chunk → Bool}
    (hmem : (address, chunk) ∈ (list.category index).chunks.toList)
    (htest : test address chunk = true)
    (unique : ∀ (i : Fin categoryCount) p, p ∈ (list.category i).chunks.toList →
      test p.1 p.2 = true → i = index ∧ p = (address, chunk)) :
    list.chunkWhere? test = some (index, address, chunk) := by
  have hfind : ∀ i : Fin categoryCount,
      ((list.category i).chunks.toList.find? fun entry => test entry.1 entry.2) =
        if i = index then some (address, chunk) else none := by
    intro i
    split
    · rename_i heq
      subst heq
      cases hfound : (list.category i).chunks.toList.find? fun entry => test entry.1 entry.2 with
      | none => exact absurd htest (by simpa using List.find?_eq_none.1 hfound _ hmem)
      | some p =>
        have hfoundTest := List.find?_some hfound
        rw [(unique i p (List.mem_of_find?_eq_some hfound) hfoundTest).2]
    · rename_i hne
      refine List.find?_eq_none.2 fun p hp hp' => hne (unique i p hp hp').1
  -- by induction over the categories that are looked through
  have hsome : ∀ indices : List (Fin categoryCount), index ∈ indices →
      indices.findSome? (fun i => ((list.category i).chunks.toList.find?
        fun entry => test entry.1 entry.2).map fun entry => (i, entry.1, entry.2)) =
          some (index, address, chunk) := by
    intro indices hin
    induction indices with
    | nil => simp at hin
    | cons i rest ih =>
      rw [List.findSome?_cons, hfind]
      by_cases heq : i = index
      · subst heq
        simp
      · rw [if_neg heq]
        exact ih ((List.mem_cons.1 hin).resolve_left (Ne.symm heq))
  exact hsome _ (List.mem_finRange index)

/-- An address in a chunk leads to the chunk and its category. -/
theorem chunkHolding?_eq (h : Sound machine list) {start : Nat}
    (hmem : (start, chunk) ∈ (list.category index).chunks.toList) (hle : start ≤ address)
    (hlt : address < start + chunk.size) :
    list.chunkHolding? address = some (index, start, chunk) := by
  refine chunkWhere?_eq hmem (by simp [hle, hlt]) ?_
  intro i p hp hin
  simp only [Bool.and_eq_true, decide_eq_true_eq] at hin
  exact h.eq_of_overlap hp hmem (by simp only [Chunk.Apart]; omega)

/-- The address of a chunk leads to it. -/
theorem chunkFrom?_eq (h : Sound machine list)
    (hmem : (address, chunk) ∈ (list.category index).chunks.toList) :
    list.chunkFrom? address = some chunk := by
  rw [chunkFrom?, chunkWhere?_eq hmem (by simp) fun i p hp hin => ?_]
  · rfl
  · have hpositive := (h.sound i).size_pos hp
    have hpositive' := (h.sound index).size_pos hmem
    simp only [decide_eq_true_eq] at hin
    exact h.eq_of_overlap hp hmem (by simp only [Chunk.Apart] at *; omega)

/-! ## Blocks in use -/

/-- A chunk is tagged with the category that it is in. -/
theorem category_eq (h : Sound machine list)
    (hmem : (address, chunk) ∈ (list.category index).chunks.toList) : chunk.category = index :=
  ((h.sound index).laid address chunk hmem).category.trans (h.index index)

/-- The header of its chunk tells the category of a block. -/
theorem categoryAt_eq (h : Sound machine list) (huses : (list.category index).Uses ref size) :
    list.categoryAt ref = .ok index := by
  obtain ⟨chunk, hmem, -⟩ := huses
  rw [categoryAt, h.chunkFrom?_eq hmem]
  exact congrArg _ (h.category_eq hmem)

/-- A used block lies in its chunk, behind the header of the chunk. -/
theorem uses_bounds (h : Sound machine list) (huses : (list.category index).Uses ref size) :
    ∃ chunk, (ref.chunk, chunk) ∈ (list.category index).chunks.toList ∧
      Chunk.headerSize ≤ ref.offset ∧ ref.payloadOffset + size ≤ chunk.size := by
  obtain ⟨chunk, hmem, hspot⟩ := huses
  have hend := spot_le_stop hspot
  rw [((h.sound index).settled hmem).tiled.ends, Slot.total] at hend
  refine ⟨chunk, hmem, le_of_mem_spots hspot, ?_⟩
  rw [BlockRef.payloadOffset]
  simp only at hend
  omega

/-- A block in use has a size that a block may have. -/
theorem uses_valid (h : Sound machine list) (huses : (list.category index).Uses ref size) :
    Slot.Valid ⟨size, false⟩ := by
  obtain ⟨chunk, hmem, hspot⟩ := huses
  obtain ⟨before, after, hslots, -⟩ := mem_spots_iff.1 hspot
  exact ((h.sound index).settled hmem).tiled.valid _ (by simp [hslots])

/-- The address of a payload leads to its chunk. -/
theorem chunkHolding?_payload (h : Sound machine list)
    (huses : (list.category index).Uses ref size) :
    ∃ chunk, (ref.chunk, chunk) ∈ (list.category index).chunks.toList ∧
      list.chunkHolding? ref.payload = some (index, ref.chunk, chunk) := by
  obtain ⟨chunk, hmem, -, hend⟩ := h.uses_bounds huses
  have hvalid := (h.uses_valid huses).2
  refine ⟨chunk, hmem, h.chunkHolding?_eq hmem (Nat.le_add_right ..) ?_⟩
  simp only [Block.minPayload] at hvalid
  rw [BlockRef.payload]
  omega

/-- The address of a payload leads to the header in front of it. -/
theorem blockOf_eq (h : Sound machine list) (huses : (list.category index).Uses ref size) :
    ∃ prev, list.blockOf ref.payload = .ok (ref, ⟨ref.chunk, prev, size, false⟩) := by
  obtain ⟨chunk, hmem, hholding⟩ := h.chunkHolding?_payload huses
  obtain ⟨address, other, before, after, rfl, hother, hslots⟩ := huses.split
  obtain rfl := (h.sound index).sequence.mem_unique hother hmem
  have hrecord := ((h.sound index).settled_split hmem hslots).tiled.record?_eq
  have hplace : BlockRef.payload ⟨address, stop Chunk.headerSize before⟩ - address -
      Block.headerSize = stop Chunk.headerSize before := by
    simp only [BlockRef.payload, BlockRef.payloadOffset]
    omega
  refine ⟨lastOr none Chunk.headerSize before, ?_⟩
  simp only [blockOf, hholding, hplace, hrecord]
  rw [Nat.add_sub_cancel_left]

/-- Different blocks in use have different addresses. -/
theorem eq_of_payload (h : Sound machine list) {i j : Fin categoryCount} {first second : BlockRef}
    {old size : Nat} (hfirst : (list.category i).Uses first old)
    (hsecond : (list.category j).Uses second size) (heq : first.payload = second.payload) :
    first = second := by
  obtain ⟨prev, hblock⟩ := h.blockOf_eq hfirst
  obtain ⟨prev', hblock'⟩ := h.blockOf_eq hsecond
  rw [heq, hblock'] at hblock
  exact (Prod.mk.inj (Except.ok.inj hblock)).1.symm

/-- The usable size of a live payload is the size of its block. -/
theorem usableSize_eq (h : Sound machine list) (huses : (list.category index).Uses ref size) :
    list.usableSize ref.payload = .ok size := by
  obtain ⟨prev, hblock⟩ := h.blockOf_eq huses
  rw [usableSize, hblock]
  rfl

/-- An address belongs to one block of one category. -/
theorem inUse_unique (h : Sound machine list) {i j : Fin categoryCount} {first second : BlockRef}
    {old size : Nat} (hfirst : (list.category i).Uses first old)
    (hsecond : (list.category j).Uses second size) (heq : first.payload = second.payload) :
    (i, first, old) = (j, second, size) := by
  obtain rfl := h.eq_of_payload hfirst hsecond heq
  have hindex := h.categoryAt_eq hfirst
  have hsize := h.usableSize_eq hfirst
  rw [h.categoryAt_eq hsecond] at hindex
  rw [h.usableSize_eq hsecond] at hsize
  rw [Fin.ext (Except.ok.inj hindex), Except.ok.inj hsize]

/-- Reading within a payload gives its cells from an offset on. -/
theorem read_within (h : Sound machine list) (huses : (list.category index).Uses ref size)
    (offset count : Nat) :
    ∃ content, list.read ref.payload offset count = .ok content ∧ content.length = count ∧
      ∀ x < count, content.cells[x]? = list.payloadCell? index ref (offset + x) := by
  obtain ⟨chunk, hmem, hholding⟩ := h.chunkHolding?_payload huses
  refine ⟨_, by rw [SegregatedList.read, hholding], Memory.length_read .., fun x hx => ?_⟩
  have hplace : ref.payload - ref.chunk = ref.payloadOffset := by
    rw [BlockRef.payload, Nat.add_sub_cancel_left]
  rw [Memory.cells_read, List.getElem?_map, List.getElem?_range hx, payloadCell?, Category.cell?,
    (h.sound index).get?_eq hmem, hplace, ← Nat.add_assoc]
  rfl

/-- Reading a payload gives its cells from the first on. -/
theorem read_eq (h : Sound machine list) (huses : (list.category index).Uses ref size)
    (count : Nat) :
    ∃ content, list.read ref.payload 0 count = .ok content ∧ content.length = count ∧
      ∀ x < count, content.cells[x]? = list.payloadCell? index ref x := by
  simpa only [Nat.zero_add] using h.read_within huses 0 count

end Sound

end PagedAlloc.SegregatedList
