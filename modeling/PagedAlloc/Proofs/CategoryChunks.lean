import PagedAlloc.Proofs.CategorySteps
import PagedAlloc.Proofs.Ledger
import PagedAlloc.Proofs.Rounding

/-!
# Mapping chunks of a category

A category maps a chunk when no free block is large enough. Whatever the kernel decides, the category
stays sound and its used blocks stay as they were (`Sound.allocate`). A request that fails changes
nothing, and from exact counters there is no other way for it to end without a block (`Supplied`).
-/

namespace PagedAlloc

variable {paging : Size.Paging}

/-- Why a request for pages fails: no length of a mapping would do, or the kernel refused the one
that does. -/
inductive Failure.OfPages (environment : Environment) (ledger : Ledger) : Option Nat → Failure → Prop
  | overflow : OfPages environment ledger none .overflow
  | outOfMemory {length : Nat} (refused : environment.grantsPages ledger length = false) :
      OfPages environment ledger (some length) (.outOfMemory length)

namespace Category

open Procedure Layout

/-- Payloads of a size fit every chunk that is mapped for one of them. -/
def Serves (category : Category) (size : Nat) : Prop :=
  ∀ length ∈ category.chunkSize, Chunk.headerSize + Block.headerSize + size ≤ length

/-- The length of a chunk that is mapped for a payload, if it fits a machine word. -/
def lengthFor? [Size.Paging] (category : Category) (size : Nat) : Option Nat :=
  category.chunkSize.or (Chunk.lengthFor? size)

/-- What a request for a payload leaves of the chunks of a category. A failure changes nothing, and
without a fault the mapped bytes stay exact; the chunks grow by what the kernel grants. -/
structure Supplied [Size.Paging] {α : Type} (environment : Environment) (machine : Machine)
    (size : Nat) (before after : Category) (result : Except Stop α) : Prop where
  failed : ∀ failure, result = .error (.failure failure) →
    after = before ∧ failure.OfPages environment machine.ledger (before.lengthFor? size)
  exact : before.Exact → (∀ fault, result ≠ .error (.fault fault)) → after.Exact
  safe : before.Exact → before.Serves size → ∀ fault, result ≠ .error (.fault fault)
  sizes : ∃ length, totalSize after.chunks.toList = totalSize before.chunks.toList + length ∧
    (length = 0 ∨ environment.grantsPages machine.ledger length = true)

variable {environment : Environment} {machine machine' : Machine} {category category' : Category}
  {address : Nat} {chunk chunk' : Chunk} {ref : BlockRef}

namespace Supplied

variable {α β : Type} {size : Nat}

/-- Where a block was found there is nothing to supply. -/
theorem found (value : α) :
    Supplied environment machine size category category (.ok value : Except Stop α) where
  failed _ heq := by cases heq
  exact hexact _ := hexact
  safe _ _ _ heq := by cases heq
  sizes := ⟨0, rfl, Or.inl rfl⟩

/-- A failure that comes from sizes or from the kernel leaves the category as it was. -/
theorem failure {failure : Failure}
    (hpages : failure.OfPages environment machine.ledger (category.lengthFor? size)) :
    Supplied environment machine size category category
      (.error (.failure failure) : Except Stop α) where
  failed other heq := by
    cases heq
    exact ⟨rfl, hpages⟩
  exact hexact _ := hexact
  safe _ _ _ heq := by cases heq
  sizes := ⟨0, rfl, Or.inl rfl⟩

/-- A fault that comes up only where the size does not fit a chunk. -/
theorem fault {fault : Fault} (hserves : ¬ category.Serves size) :
    Supplied environment machine size category category (.error (.fault fault) : Except Stop α) where
  failed _ heq := by cases heq
  exact hexact _ := hexact
  safe _ hfits := absurd hfits hserves
  sizes := ⟨0, rfl, Or.inl rfl⟩

/-- The request was supplied, whatever is made of its answer. -/
theorem of_ok {value : α}
    (h : Supplied environment machine size category category' (.ok value : Except Stop α))
    (other : β) :
    Supplied environment machine size category category' (.ok other : Except Stop β) where
  failed _ heq := by cases heq
  exact hexact _ := h.exact hexact (by simp)
  safe _ _ _ heq := by cases heq
  sizes := h.sizes

/-- The request failed, whatever it would have given. -/
theorem of_error {reason : Stop}
    (h : Supplied environment machine size category category' (.error reason : Except Stop α)) :
    Supplied environment machine size category category' (.error reason : Except Stop β) where
  failed failure heq := h.failed failure (by cases heq; rfl)
  exact hexact hsafe := h.exact hexact fun fault heq => hsafe fault (by cases heq; rfl)
  safe hexact hserves fault heq := h.safe hexact hserves fault (by cases heq; rfl)
  sizes := h.sizes

/-- Taking a block changes no chunk. -/
theorem balances {lost gained : Nat} {middle : Category} {value : α}
    (h : Supplied environment machine size category middle (.ok value : Except Stop α))
    (hbalances : Balances lost gained middle category') (other : β) :
    Supplied environment machine size category category' (.ok other : Except Stop β) where
  failed _ heq := by cases heq
  exact hexact _ := hbalances.exact (h.exact hexact (by simp))
  safe _ _ _ heq := by cases heq
  sizes := by
    rw [hbalances.sizes]
    exact h.sizes

end Supplied

/-- Chunks are mapped in whole pages, and long enough. There is no length just if the payload does
not fit a mapping. -/
theorem chunkLength_cases (whole : ∀ length ∈ category.chunkSize, Size.pageSize ∣ length)
    (environment : Environment) (machine : Machine) (size : Nat) :
    ∃ result, chunkLength size environment (machine, category) = (result, machine, category) ∧
      (result = .error (.failure .overflow) ∧ category.lengthFor? size = none ∨
        ∃ length, result = .ok length ∧ category.lengthFor? size = some length ∧
          Size.pageSize ∣ length ∧
            (category.Serves size → Chunk.headerSize + Block.headerSize + size ≤ length)) := by
  rw [chunkLength, bind_apply_ok _ _ (own_apply ..), Category.lengthFor?]
  rcases hlength : category.chunkSize with _ | length
  · simp only
    cases hround : Chunk.lengthFor? size with
    | none => exact ⟨_, rfl, Or.inl ⟨rfl, rfl⟩⟩
    | some length =>
      rw [Chunk.lengthFor?, Option.bind_eq_some_iff] at hround
      obtain ⟨sum, hsum, hround⟩ := hround
      have hle := Size.le_of_roundToPages?_eq_some hround
      refine ⟨_, rfl,
        Or.inr ⟨length, rfl, rfl, Size.dvd_of_roundToPages?_eq_some hround, fun _ => ?_⟩⟩
      rw [Size.add?] at hsum
      split at hsum
      · obtain rfl := Option.some.inj hsum
        exact hle
      · cases hsum
  · simp only
    exact ⟨_, rfl, Or.inr ⟨length, rfl, rfl, whole length hlength,
      fun hserves => hserves length hlength⟩⟩

namespace Sound

/-- The counter of mapped bytes and the log say nothing about blocks. -/
theorem of_mapped (h : Sound machine category) (mapped : Nat) :
    Sound machine { category with mapped := mapped } :=
  { h with laid := fun address chunk hmem => { h.laid address chunk hmem with } }

theorem of_log (h : Sound machine category) (log : List Event) :
    Sound { machine with log := log } category :=
  { h with laid := fun address chunk hmem => { h.laid address chunk hmem with } }

/-- A used block whose chunk is kept as it is stays with its payload. -/
theorem kept (h : Sound machine category) (h' : Sound machine' category') {size : Nat}
    (huses : category.Uses ref size)
    (keep : ∀ chunk, (ref.chunk, chunk) ∈ category.chunks.toList →
      (ref.offset, ⟨size, false⟩) ∈ spots Chunk.headerSize (chunk.slots ref.chunk) →
        (ref.chunk, chunk) ∈ category'.chunks.toList) :
    category'.Uses ref size ∧ SameCells category category' ref size := by
  obtain ⟨chunk, hmem, hspot⟩ := huses
  have hmem' := keep chunk hmem hspot
  refine ⟨⟨chunk, hmem', hspot⟩, ?_⟩
  intro x _ _
  rw [cell?, cell?, h.get?_eq hmem, h'.get?_eq hmem']

/-- The chunks of a category fit the addresses together with any mapping that the kernel grants. -/
theorem totalSize_lt (h : Sound machine category) (hfits : environment.FitsAddresses) {length : Nat}
    (hgrant : environment.grantsPages machine.ledger length = true) :
    totalSize category.chunks.toList + length < Size.limit := by
  let part : Ledger := category.chunks.toList.map fun entry => ⟨entry.1, entry.2.size, .pages false⟩
  have hdistinct : part.Nodup :=
    List.Nodup.of_map Holding.address (by simpa [part, Function.comp_def] using h.sequence.distinct)
  have hsub : part ⊆ machine.ledger := by
    intro holding hmem
    obtain ⟨entry, hentry, rfl⟩ := List.mem_map.1 hmem
    exact (h.laid entry.1 entry.2 hentry).held
  have htotal : part.total = totalSize category.chunks.toList := by
    simp [part, Ledger.total_eq_sum, totalSize, Function.comp_def]
  have hle := Ledger.total_le_of_subset hdistinct hsub
  have hlt := hfits _ _ hgrant
  omega

theorem whole (h : Sound machine category) : ∀ length ∈ category.chunkSize, Size.pageSize ∣ length :=
  fun length hlength => (h.lengths length hlength).2.1

/-- A chunk of no bytes is never mapped, and neither is one whose length does not fit a machine
word. -/
theorem lengthFor?_bounds (h : Sound machine category) {size length : Nat}
    (hlength : category.lengthFor? size = some length) : 0 < length ∧ length < Size.limit := by
  rw [lengthFor?] at hlength
  cases hshared : category.chunkSize with
  | some shared =>
    obtain ⟨hpositive, -, hsmall⟩ := h.lengths shared hshared
    rw [hshared, Option.some_or, Option.some.injEq] at hlength
    exact hlength ▸ ⟨hpositive, hsmall⟩
  | none =>
    rw [hshared, Option.none_or, Chunk.lengthFor?, Option.bind_eq_some_iff] at hlength
    obtain ⟨sum, hsum, hround⟩ := hlength
    have hle := Size.le_of_roundToPages?_eq_some hround
    refine ⟨Nat.lt_of_lt_of_le ?_ hle, Size.lt_limit_of_roundToPages?_eq_some hround⟩
    rw [Size.add?] at hsum
    split at hsum
    · obtain rfl := Option.some.inj hsum
      exact Nat.add_pos_left (by decide) _
    · cases hsum

/-! ## Mapping a chunk -/

section Append

variable (h : Sound machine category)
  (hgranted : Pages.Granted environment machine machine' address chunk.size)

include h hgranted

/-- A chunk that is chained comes last. -/
theorem toList_append :
    (category.chunks.append address chunk).toList = category.chunks.toList ++ [(address, chunk)] ∧
      (category.chunks.append address chunk).IsSequence
        (category.chunks.append address chunk).toList := by
  have habsent : address ∉ category.chunks.toList.map Prod.fst := by
    intro hmem
    obtain ⟨entry, hentry, rfl⟩ := List.mem_map.1 hmem
    have hapart := hgranted.vacant _ (h.laid entry.1 entry.2 hentry).held
    have hsize := h.size_pos hentry
    have hpositive := hgranted.positive
    simp only [Holding.stop] at hapart
    omega
  have hsequence := h.sequence.append habsent chunk
  have hlist := hsequence.toList_eq
  exact ⟨hlist, hlist ▸ hsequence⟩

/-- A mapping that nobody else has may become a chunk of the chain. -/
theorem append (hsettled : chunk.Settled category.chunkSize.isSome address
      [Chunk.freshSlot chunk.size]) (hcategory : chunk.category = category.index)
    (hwhole : Size.pageSize ∣ chunk.size) (hfits : environment.FitsAddresses) :
    Sound machine' { category with chunks := category.chunks.append address chunk } := by
  obtain ⟨hlist, hsequence⟩ := h.toList_append hgranted
  have hledger := hgranted.ledger
  have hbound := h.totalSize_lt hfits hgranted.granted
  refine ⟨hsequence, h.lengths, ?_, ?_, ?_, ?_⟩
  · intro place entry hentry
    rw [hlist, List.mem_append, List.mem_singleton] at hentry
    rcases hentry with hold | heq
    · have hlaid := h.laid place entry hold
      refine ⟨hlaid.settled, hlaid.category, hlaid.aligned, hlaid.whole, ?_⟩
      rw [hledger]
      exact List.mem_cons_of_mem _ hlaid.held
    · obtain ⟨rfl, rfl⟩ := Prod.mk.inj heq
      refine ⟨hsettled.slots_eq.symm ▸ hsettled, hcategory, hgranted.aligned, hwhole, ?_⟩
      rw [hledger]
      exact List.mem_cons_self ..
  · intro p hp q hq
    have hapart : ∀ entry ∈ category.chunks.toList, Chunk.Apart entry (address, chunk) :=
      fun entry hentry => hgranted.vacant _ (h.laid entry.1 entry.2 hentry).held
    rw [hlist, List.mem_append, List.mem_singleton] at hp hq
    rcases hp with hp | rfl <;> rcases hq with hq | rfl
    · exact h.apart p hp q hq
    · exact Or.inr (hapart p hp)
    · exact Or.inr (hapart q hq).symm
    · exact Or.inl rfl
  · simpa [hlist, totalSize] using hbound
  · -- the fresh chunk has no bytes in use
    have hnone : totalUsed [(address, chunk)] = 0 := by
      rw [totalUsed_cons, hsettled.slots_eq]
      rfl
    simp only [hlist, totalUsed_append, hnone]
    exact h.counted

/-- Chaining a chunk leaves all others as they are. -/
theorem evolves_append
    (h' : Sound machine' { category with chunks := category.chunks.append address chunk }) :
    Evolves ∅ (machine, category)
      (machine', { category with chunks := category.chunks.append address chunk }) := by
  obtain ⟨hlist, -⟩ := h.toList_append hgranted
  have hkept : ∀ ref size, category.Uses ref size →
      Uses { category with chunks := category.chunks.append address chunk } ref size ∧
        SameCells category { category with chunks := category.chunks.append address chunk } ref size :=
    fun ref size huses => h.kept h' huses fun old hold _ => by
      rw [hlist]
      exact List.mem_append_left _ hold
  refine ⟨rfl, rfl, fun holding hheld hclear => ⟨?_, fun entry hentry => ?_⟩,
    fun ref size huses _ => (hkept ref size huses).1,
    fun ref size huses _ => (hkept ref size huses).2⟩
  · simp only [hgranted.ledger]
    exact List.mem_cons_of_mem _ hheld
  · simp only [hlist, List.mem_append, List.mem_singleton] at hentry
    rcases hentry with hold | rfl
    · exact hclear entry hold
    · exact hgranted.vacant holding hheld

end Append

/-- A granted mapping becomes a chunk of the chain that is one free block, and is counted then. -/
theorem chainChunk_apply (h : Sound machine category) (hfits : environment.FitsAddresses)
    {length : Nat} (hgranted : Pages.Granted environment machine machine' address length)
    (hwhole : Size.pageSize ∣ length) :
    ∃ fresh : Chunk, fresh.size = length ∧
      fresh.Settled category.chunkSize.isSome address [Chunk.freshSlot fresh.size] ∧
      fresh.category = category.index ∧
      Category.chainChunk address length environment (machine', category) =
        (do
          let mapped ← checked (Size.add (← own).mapped length)
          modifyOwn fun category => { category with mapped := mapped }
          let category ← own
          note (.chunkChained category.index category.chunks.length address length) :
            Procedure (Machine × Category) Unit)
          environment (machine', { category with chunks := category.chunks.append address fresh }) := by
  have hbound := h.totalSize_lt hfits hgranted.granted
  have hpositive := hgranted.positive
  -- the chunk as it is chained, before its first block is there
  let raw : Chunk := ⟨length, category.index, 0, Memory.zeroed length⟩
  have hroom : Chunk.headerSize + Block.headerSize + Block.minPayload ≤ length :=
    Nat.le_trans (by decide) (Size.Paging.roomy.trans (Nat.le_of_dvd hpositive hwhole))
  obtain ⟨fresh, hfree, hsettled, hsize, hcategory⟩ : ∃ fresh, raw.freeAll address = .ok fresh ∧
      fresh.Settled category.chunkSize.isSome address [Chunk.freshSlot length] ∧
      fresh.size = length ∧ fresh.category = category.index :=
    Chunk.settled_freeAll rfl (show length < Size.limit by omega) hroom
      (Nat.dvd_trans (Size.dvd_pageSize (by decide) (by decide)) hwhole) _ _
  have hfound : (category.chunks.append address raw).get? address = some raw := by
    rw [Chain.get?, Chain.find?_append, if_pos rfl]
    rfl
  have hchanged : ∀ chunk : Chunk,
      changed { category with chunks := category.chunks.append address raw } address chunk
          category.used = { category with chunks := category.chunks.append address chunk } := by
    intro chunk
    rw [changed, Chain.append_put]
  have hupdate : updateChunk address (·.freeAll address) environment
      (machine', { category with chunks := category.chunks.append address raw }) =
        (.ok (), machine', { category with chunks := category.chunks.append address fresh }) := by
    rw [← hchanged raw, ← hchanged fresh]
    exact updateChunk_changed hfound hfree
  refine ⟨fresh, hsize, hsize.symm ▸ hsettled, hcategory, ?_⟩
  rw [Category.chainChunk, bind_apply_ok _ _ (own_apply ..), bind_apply_ok _ _ (modifyOwn_apply ..),
    bind_apply_ok _ _ hupdate]

/-- Chaining a mapping keeps the category sound, even if the counter of mapped bytes overflows
then. -/
theorem chainChunk (h : Sound machine category) (hfits : environment.FitsAddresses) {length : Nat}
    (hgranted : Pages.Granted environment machine machine' address length)
    (hwhole : Size.pageSize ∣ length) :
    ∃ result machine'' after, Category.chainChunk address length environment (machine', category) =
        (result, machine'', after) ∧
      Sound machine'' after ∧ Evolves ∅ (machine, category) (machine'', after) ∧
      (∃ chunk, after.chunks.toList = category.chunks.toList ++ [(address, chunk)] ∧
        chunk.slots address = [Chunk.freshSlot length]) ∧
      after.used = category.used ∧
      ∀ size, Supplied environment machine size category after result := by
  have hbound := h.totalSize_lt hfits hgranted.granted
  obtain ⟨fresh, rfl, hsettled, hcategory, hrun⟩ := h.chainChunk_apply hfits hgranted hwhole
  have hchunks := h.append hgranted hsettled hcategory hwhole hfits
  have hevolves := h.evolves_append hgranted hchunks
  have hlist := (h.toList_append hgranted).1
  rw [hrun, bind_apply_ok _ _ (own_apply ..)]
  have hsizes : totalSize (category.chunks.append address fresh).toList =
      totalSize category.chunks.toList + fresh.size := by
    rw [hlist, totalSize_append]
    rfl
  have hgrown : ∃ length, totalSize (category.chunks.append address fresh).toList =
      totalSize category.chunks.toList + length ∧
        (length = 0 ∨ environment.grantsPages machine.ledger length = true) :=
    ⟨fresh.size, hsizes, Or.inr hgranted.granted⟩
  -- the chunk is in the chain before the counter of mapped bytes may overflow
  cases hadd : Size.add category.mapped fresh.size with
  | error fault =>
    have hinexact : ¬ category.Exact := fun hexact => by
      rw [Chunk.add_eq (show category.mapped + fresh.size < Size.limit by rw [hexact]; exact hbound)]
        at hadd
      cases hadd
    exact ⟨_, _, _, rfl, hchunks, hevolves, ⟨fresh, hlist, hsettled.slots_eq⟩, rfl, fun size =>
      ⟨by simp, fun hexact => absurd hexact hinexact, fun hexact => absurd hexact hinexact,
        hgrown⟩⟩
  | ok mapped =>
    refine ⟨.ok (), _, _, rfl, (hchunks.of_mapped mapped).of_log _, { hevolves with },
      ⟨fresh, hlist, hsettled.slots_eq⟩, rfl, fun size =>
        ⟨by simp, fun hexact _ => ?_, by simp, hgrown⟩⟩
    rw [Chunk.add_eq (show category.mapped + fresh.size < Size.limit by rw [hexact]; exact hbound)]
      at hadd
    rw [Exact, hsizes, ← Except.ok.inj hadd, hexact]

/-- Mapping a chunk adds a free block that is large enough, or fails and touches no block. -/
theorem mapChunk (h : Sound machine category) (hfits : environment.FitsAddresses) (size : Nat) :
    ∃ result machine' after, Category.mapChunk size environment (machine, category) =
        (result, machine', after) ∧
      Sound machine' after ∧ Evolves ∅ (machine, category) (machine', after) ∧
      (∀ address, result = .ok address → ∃ chunk slot,
        after.chunks.toList = category.chunks.toList ++ [(address, chunk)] ∧
          chunk.slots address = [slot] ∧ slot.isFree = true ∧ size ≤ slot.size) ∧
      after.used = category.used ∧ Supplied environment machine size category after result := by
  obtain ⟨chosen, hlength, hchosen⟩ := chunkLength_cases h.whole environment machine size
  rw [Category.mapChunk]
  rcases hchosen with ⟨rfl, hunfit⟩ | ⟨length, rfl, hfit, hwhole, hserved⟩
  · rw [bind_apply_error _ _ hlength]
    exact ⟨_, _, _, rfl, h, Evolves.refl .., by simp, rfl, .failure (hunfit ▸ .overflow)⟩
  rw [bind_apply_ok _ _ hlength]
  rcases Chunk.freshCapacity_cases length with hcapacity | ⟨fault, hcapacity⟩
  swap
  · have hunserved : ¬ category.Serves size := fun hserves => by
      rw [Chunk.freshCapacity_eq (Nat.le_of_add_right_le (hserved hserves))] at hcapacity
      cases hcapacity
    rw [hcapacity, bind_apply_error _ _ (checked_error ..)]
    exact ⟨_, _, _, rfl, h, Evolves.refl .., by simp, rfl, .fault hunserved⟩
  rw [hcapacity, bind_apply_ok _ _ (checked_ok ..)]
  -- a category that serves this size maps chunks with room for it, so this check passes there
  by_cases hlarge : size ≤ (Chunk.freshSlot length).size
  swap
  · have hunserved : ¬ category.Serves size := fun hserves => by
      have hroom := hserved hserves
      simp only [Chunk.freshSlot] at hlarge
      omega
    rw [bind_apply_error _ _ (ensure_apply_not _ hlarge _ _)]
    exact ⟨_, _, _, rfl, h, Evolves.refl .., by simp, rfl, .fault hunserved⟩
  obtain ⟨granted, machine', hmap, hcases⟩ := Pages.map_cases environment machine hwhole
  rw [bind_apply_ok _ _ (ensure_apply _ hlarge _ _), bind_apply_ok _ _ (ask_apply _ hmap _)]
  rcases hcases with ⟨rfl, hledger, -⟩ | ⟨address, rfl, hgranted⟩
  · obtain ⟨hpositive, hsmall⟩ := h.lengthFor?_bounds hfit
    exact ⟨_, _, _, rfl, h.of_machine fun _ _ hheld => hledger ▸ hheld,
      Evolves.of_machine (fun _ hheld => hledger ▸ hheld) _, by simp, rfl,
      .failure (hfit ▸ .outOfMemory (Pages.grants_of_refused hwhole hpositive hsmall hmap))⟩
  · obtain ⟨result, machine'', after, hchain, hsound, hevolves, ⟨chunk, hlist, hslots⟩, hused,
      hsupplied⟩ := h.chainChunk hfits hgranted hwhole
    rw [bind_apply_ok _ _ (orFail_some ..)]
    cases result with
    | error reason =>
      rw [bind_apply_error _ _ hchain]
      exact ⟨_, _, _, rfl, hsound, hevolves, by simp, hused, (hsupplied size).of_error⟩
    | ok =>
      rw [bind_apply_ok _ _ hchain]
      refine ⟨.ok address, _, _, rfl, hsound, hevolves, ?_, hused, (hsupplied size).of_ok _⟩
      intro other heq
      obtain rfl := Except.ok.inj heq
      exact ⟨chunk, _, hlist, hslots, rfl, hlarge⟩

/-! ## Searching -/

/-- No free block of a chunk is large enough. -/
def Lacks (size : Nat) (entry : Nat × Chunk) : Prop :=
  ∀ slot ∈ entry.2.slots entry.1, slot.isFree = true → slot.size < size

/-- A chunk that remembers only smaller free blocks has none that is large enough. -/
theorem lacks_of_largestFree {size : Nat} {shared : Bool}
    (h : chunk.Settled shared address (chunk.slots address)) (small : ¬ size ≤ chunk.largestFree) :
    Lacks size (address, chunk) := fun slot hslot hfree => by
  have hle := le_largest hslot hfree
  rw [← h.measured] at hle
  omega

/-- A search through settled chunks finds the first free block that is large enough and what is free
in front of it, or there is none. -/
theorem firstFit_cases (size : Nat) {entries : List (Nat × Chunk)}
    (h : ∀ entry ∈ entries, ∃ shared, entry.2.Settled shared entry.1 (entry.2.slots entry.1)) :
    firstFit size entries = .ok none ∧ (∀ entry ∈ entries, Lacks size entry) ∨
      ∃ front address chunk back before slot after, entries = front ++ (address, chunk) :: back ∧
        (∀ entry ∈ front, Lacks size entry) ∧ chunk.slots address = before ++ slot :: after ∧
        (∀ slot ∈ before, slot.isFree = true → slot.size < size) ∧ slot.isFree = true ∧
        size ≤ slot.size ∧ firstFit size entries =
            .ok (some (⟨address, stop Chunk.headerSize before⟩, largest before)) := by
  induction entries with
  | nil => exact Or.inl ⟨rfl, by simp⟩
  | cons entry rest ih =>
    obtain ⟨address, chunk⟩ := entry
    obtain ⟨shared, hsettled⟩ := h _ (List.mem_cons_self ..)
    have hrest := ih fun other hother => h other (List.mem_cons_of_mem _ hother)
    -- in both ways to pass over this chunk the search goes on behind it
    have hpass : Lacks size (address, chunk) →
        firstFit size ((address, chunk) :: rest) = firstFit size rest →
        firstFit size ((address, chunk) :: rest) = .ok none ∧
            (∀ entry ∈ (address, chunk) :: rest, Lacks size entry) ∨
          ∃ front place other back before slot after,
            (address, chunk) :: rest = front ++ (place, other) :: back ∧
            (∀ entry ∈ front, Lacks size entry) ∧ other.slots place = before ++ slot :: after ∧
            (∀ slot ∈ before, slot.isFree = true → slot.size < size) ∧ slot.isFree = true ∧
            size ≤ slot.size ∧ firstFit size ((address, chunk) :: rest) =
                .ok (some (⟨place, stop Chunk.headerSize before⟩, largest before)) := by
      intro hlacks hsame
      rw [hsame]
      rcases hrest with ⟨hnone, hall⟩ | ⟨front, place, other, back, before, slot, after, rfl, hfront,
        hfound⟩
      · exact Or.inl ⟨hnone, List.forall_mem_cons.2 ⟨hlacks, hall⟩⟩
      · exact Or.inr ⟨(address, chunk) :: front, place, other, back, before, slot, after, rfl,
          List.forall_mem_cons.2 ⟨hlacks, hfront⟩, hfound⟩
    by_cases hlarge : size ≤ chunk.largestFree
    · cases hfit : Chunk.firstFit size 0
        (visited address none Chunk.headerSize (chunk.slots address)) with
      | none =>
        refine hpass (fun slot => lt_of_firstFit_eq_none hfit) ?_
        rw [firstFit, if_pos hlarge, hsettled.blocks_eq]
        simp only [bind, Except.bind, hfit]
      | some found =>
        obtain ⟨ref, before'⟩ := found
        obtain ⟨before, slot, after, hslots, rfl, hfree, hfits, rfl, hbefore⟩ :=
          exists_of_firstFit_eq_some hfit
        refine Or.inr ⟨[], address, chunk, rest, before, slot, after, rfl, by simp, hslots, hbefore,
          hfree, hfits, ?_⟩
        rw [firstFit, if_pos hlarge, hsettled.blocks_eq]
        simp only [bind, Except.bind, hfit, Nat.zero_max]
        rfl
    · exact hpass (lacks_of_largestFree hsettled hlarge) (by rw [firstFit, if_neg hlarge])

/-! ## Allocating -/

/-- A free block that is large enough is found or comes with a new chunk. -/
theorem findOrMap (h : Sound machine category) (hfits : environment.FitsAddresses) (size : Nat) :
    ∃ result machine' after, Category.findOrMap size environment (machine, category) =
        (result, machine', after) ∧
      Sound machine' after ∧ Evolves ∅ (machine, category) (machine', after) ∧
      (∀ found, result = .ok found → ∃ address chunk before slot back,
        (address, chunk) ∈ after.chunks.toList ∧ chunk.slots address = before ++ slot :: back ∧
          slot.isFree = true ∧ size ≤ slot.size ∧
            found = (⟨address, stop Chunk.headerSize before⟩, largest before)) ∧
      after.used = category.used ∧ Supplied environment machine size category after result := by
  rw [Category.findOrMap, bind_apply_ok _ _ (own_apply ..)]
  rcases firstFit_cases size fun entry hentry => ⟨_, h.settled hentry⟩ with ⟨hnone, -⟩ |
    ⟨front, address, chunk, _, before, slot, back, hlist, -, hslots, -, hfree, hfits', hfound⟩
  · obtain ⟨result, machine', after, hmap, hsound, hevolves, hfresh, hused, hsupplied⟩ :=
      h.mapChunk hfits size
    rw [hnone, bind_apply_ok _ _ (checked_ok ..)]
    simp only
    cases result with
    | error reason =>
      rw [bind_apply_error _ _ hmap]
      exact ⟨_, _, _, rfl, hsound, hevolves, by simp, hused, hsupplied.of_error⟩
    | ok address =>
      rw [bind_apply_ok _ _ hmap]
      -- the new chunk is one free block, which is large enough
      obtain ⟨chunk, slot, hlist, hslots, hfree, hlarge⟩ := hfresh address rfl
      refine ⟨.ok (Chunk.firstBlock address, 0), _, _, rfl, hsound, hevolves, ?_, hused,
        hsupplied.of_ok _⟩
      intro found heq
      exact ⟨address, chunk, [], slot, [], hlist ▸ List.mem_append_cons_self, hslots, hfree, hlarge,
        (Except.ok.inj heq).symm⟩
  · rw [hfound, bind_apply_ok _ _ (checked_ok ..)]
    refine ⟨.ok _, _, _, rfl, h, Evolves.refl .., ?_, rfl, .found _⟩
    intro found heq
    exact ⟨address, chunk, before, slot, back, hlist ▸ List.mem_append_cons_self, hslots, hfree,
      hfits', (Except.ok.inj heq).symm⟩

/-- A block cannot be free and in use. -/
theorem not_uses_of_free (h : Sound machine category)
    (hmem : (address, chunk) ∈ category.chunks.toList) {before after : List Slot} {slot : Slot}
    (hslots : chunk.slots address = before ++ slot :: after) (free : slot.isFree = true)
    (size : Nat) : ¬ category.Uses ⟨address, stop Chunk.headerSize before⟩ size := by
  rintro ⟨other, hother, hspot⟩
  obtain rfl := h.sequence.mem_unique hother hmem
  have hfree : (stop Chunk.headerSize before, slot) ∈
      spots Chunk.headerSize (other.slots address) := by
    rw [hslots]
    exact mem_spots_iff.2 ⟨before, after, rfl, rfl⟩
  have hsame := (Prod.mk.inj (spots_unique hspot hfree rfl)).2
  rw [← hsame] at free
  exact absurd free (by simp)

/-- Allocating gives a block that was not in use and is large enough, or fails. In both cases it
touches no used block. -/
theorem allocate (h : Sound machine category) (hfits : environment.FitsAddresses) {size : Nat}
    (valid : Slot.Valid ⟨size, true⟩) :
    ∃ result machine' after, Category.allocate size environment (machine, category) =
        (result, machine', after) ∧
      Sound machine' after ∧ Evolves ∅ (machine, category) (machine', after) ∧
      (∀ ref, result = .ok ref → (∀ old, ¬ category.Uses ref old) ∧
        ∃ taken, size ≤ taken ∧ after.Uses ref taken ∧ after.used = category.used + taken) ∧
      (∀ reason, result = .error reason → after.used = category.used) ∧
      Supplied environment machine size category after result := by
  obtain ⟨result, machine', middle, hfind, hsound, hevolves, hfound, hused, hsupplied⟩ :=
    h.findOrMap hfits size
  rw [Category.allocate]
  cases result with
  | error reason =>
    rw [bind_apply_error _ _ hfind]
    exact ⟨_, _, _, rfl, hsound, hevolves, by simp, fun _ _ => hused, hsupplied.of_error⟩
  | ok found =>
    obtain ⟨address, chunk, before, slot, back, hmem, hslots, hfree, hlarge, rfl⟩ :=
      hfound found rfl
    obtain ⟨after, htake, hsound', hevolves', taken, hle, huses, hbalances⟩ :=
      hsound.take hmem hslots hfree hlarge valid environment
    rw [bind_apply_ok _ _ hfind]
    simp only
    rw [bind_apply_ok _ _ htake]
    refine ⟨.ok _, machine', after, rfl, hsound', hevolves.trans hevolves', ?_, by simp,
      hsupplied.balances hbalances _⟩
    intro ref heq
    obtain rfl := Except.ok.inj heq
    -- the block that was taken was free, so no address in use is that of it
    exact ⟨fun old huses => hsound.not_uses_of_free hmem hslots hfree old
      (hevolves.stays _ old huses (by simp)), taken, hle, huses, hused ▸ hbalances.used⟩

end Sound

end Category

end PagedAlloc
