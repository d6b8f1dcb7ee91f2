import PagedAlloc.Proofs.CategoryChunks

/-!
# Giving chunks of a category back

Forgetting every block turns each chunk into one free block (`Sound.clear`), and the chunks that are
one free block go back to the kernel on demand. Whatever the kernel decides, the category stays sound
and its used blocks stay as they were (`Sound.trim`). A kernel that takes every live mapping back is
never refused one: the counter of mapped bytes goes down by what was counted (`Held.releaseEach`).
-/

namespace PagedAlloc.Category

variable {paging : Size.Paging}

open Procedure Layout

variable {environment : Environment} {machine machine' : Machine} {category category' : Category}
  {address : Nat} {chunk chunk' : Chunk} {ref : BlockRef}

/-! ## Forgetting every block -/

/-- The loop over the chunks resets those that are still to be visited. -/
theorem freeEach_apply (environment : Environment) (machine : Machine)
    {done todo : List (Nat × Chunk)} (hsequence : category.chunks.IsSequence (done ++ todo))
    (hfree : ∀ entry ∈ todo, entry.2.freeAll entry.1 = .ok (entry.2.reset entry.1)) :
    ∃ chunks : Chain Chunk, freeEach (todo.map Prod.fst) environment (machine, category) =
        (.ok (), machine, { category with chunks := chunks }) ∧
      chunks.IsSequence (done ++ todo.map fun entry => (entry.1, entry.2.reset entry.1)) := by
  induction todo generalizing category done with
  | nil => exact ⟨category.chunks, rfl, hsequence⟩
  | cons entry rest ih =>
    obtain ⟨address, chunk⟩ := entry
    have hmem : (address, chunk) ∈ done ++ (address, chunk) :: rest := by simp
    have hfound := hsequence.get?_eq_some_iff.2 hmem
    -- the chunk that is put back unchanged first, so that the step is a change of it
    have hself : category.changed address chunk category.used = category := by
      rw [changed, hsequence.put_self hmem]
    have hupdate : updateChunk address (·.freeAll address) environment
        (machine, category.changed address chunk category.used) =
          (.ok (), machine, category.changed address (chunk.reset address) category.used) :=
      updateChunk_changed hfound (hfree _ (List.mem_cons_self ..))
    have hput : (category.changed address (chunk.reset address) category.used).chunks.IsSequence
        (done ++ [(address, chunk.reset address)] ++ rest) := by
      have hput := hsequence.put address (chunk.reset address)
      rwa [Chain.replaced_middle hsequence.distinct, List.append_cons] at hput
    obtain ⟨chunks, hrun, hsequence'⟩ :=
      ih hput fun entry hentry => hfree entry (List.mem_cons_of_mem _ hentry)
    rw [hself] at hupdate
    refine ⟨chunks, ?_, by simpa using hsequence'⟩
    rw [List.map_cons, freeEach, bind_apply_ok _ _ hupdate]
    exact hrun

/-- A chain of the chunks that were reset makes a sound category without a byte in use. -/
theorem Sound.reset (h : Sound machine category) {chunks : Chain Chunk}
    (hsequence : chunks.IsSequence
      (category.chunks.toList.map fun entry => (entry.1, entry.2.reset entry.1))) :
    Sound machine { category with chunks := chunks, used := 0 } ∧
      Evolves Set.univ (machine, category)
        (machine, { category with chunks := chunks, used := 0 }) ∧
      Balances category.used 0 category { category with chunks := chunks, used := 0 } := by
  have hreset : ∀ entry ∈ category.chunks.toList, _ := fun entry hentry =>
    (h.settled hentry).reset (h.laid entry.1 entry.2 hentry).whole
  have hlist := hsequence.toList_eq
  -- every chunk is what became of an old one of the same size
  have hold : ∀ address chunk, (address, chunk) ∈ chunks.toList →
      ∃ old, (address, old) ∈ category.chunks.toList ∧ chunk = old.reset address ∧
        chunk.size = old.size := by
    intro address chunk hentry
    rw [hlist] at hentry
    obtain ⟨old, hmem, heq⟩ := List.mem_map.1 hentry
    obtain ⟨rfl, rfl⟩ := Prod.mk.inj heq
    exact ⟨old.2, hmem, rfl, (hreset old hmem).2.2.1⟩
  have hsizes : ∀ entry ∈ chunks.toList,
      ∃ old, (entry.1, old) ∈ category.chunks.toList ∧ entry.2.size = old.size := by
    intro entry hentry
    obtain ⟨old, hmem, -, hsize⟩ := hold _ _ hentry
    exact ⟨old, hmem, hsize⟩
  have hsame : totalSize chunks.toList = totalSize category.chunks.toList := by
    rw [hlist, totalSize, totalSize, List.map_map]
    exact congrArg List.sum (List.map_congr_left fun entry hentry => (hreset entry hentry).2.2.1)
  refine ⟨⟨hlist ▸ hsequence, h.lengths, ?_, h.apart_of_sizes hsizes, hsame ▸ h.bounded, ?_⟩,
    ⟨rfl, rfl, fun _ hheld hclear => ⟨hheld, hclear.of_sizes hsizes⟩,
      fun _ _ _ hother => absurd (Set.mem_univ _) hother,
      fun _ _ _ hother => absurd (Set.mem_univ _) hother⟩,
    ⟨Nat.add_comm .., rfl, hsame⟩⟩
  · intro address chunk hmem
    obtain ⟨old, hmemOld, rfl, hsize⟩ := hold _ _ hmem
    obtain ⟨-, hsettled, -, hcategory⟩ := hreset _ hmemOld
    exact { (h.laid address old hmemOld).replace hsettled hsize hcategory with }
  · have hnone : ∀ entry ∈ chunks.toList, Layout.used (entry.2.slots entry.1) = 0 := by
      intro entry hentry
      obtain ⟨old, hmemOld, heq, -⟩ := hold _ _ hentry
      rw [heq, (hreset _ hmemOld).2.1.slots_eq]
      rfl
    rw [totalUsed, List.map_congr_left hnone]
    simp

/-- Every chunk of a category is one free block again. -/
structure Cleared (before after : Category) : Prop where
  balances : Balances before.used 0 before after
  chunks : after.chunks.toList =
    before.chunks.toList.map fun entry => (entry.1, entry.2.reset entry.1)

/-- Forgetting every block succeeds and leaves each chunk as one free block. -/
theorem Sound.clear (h : Sound machine category) (environment : Environment) :
    ∃ after, Category.clear environment (machine, category) = (.ok (), machine, after) ∧
      Sound machine after ∧ Evolves Set.univ (machine, category) (machine, after) ∧
      Cleared category after := by
  have hstart : category.chunks.IsSequence ([] ++ category.chunks.toList) := h.sequence
  obtain ⟨chunks, hrun, hsequence⟩ := freeEach_apply environment machine hstart fun entry hentry =>
    ((h.settled hentry).reset (h.laid entry.1 entry.2 hentry).whole).1
  obtain ⟨hsound, hevolves, hbalances⟩ := h.reset hsequence
  refine ⟨_, ?_, hsound, hevolves, ⟨hbalances, hsequence.toList_eq⟩⟩
  rw [Category.clear, bind_apply_ok _ _ (own_apply ..)]
  simp only [h.sequence.addresses_eq]
  rw [bind_apply_ok _ _ hrun]
  rfl

/-! ## Giving chunks back -/

/-- Whether a chunk is a single free block. -/
def Idle (entry : Nat × Chunk) : Prop := ∃ slot, entry.2.slots entry.1 = [slot] ∧ slot.isFree = true

/-- An idle chunk has no block in use. -/
theorem Idle.not_used {entry : Nat × Chunk} (h : Idle entry) (offset size : Nat) :
    (offset, ⟨size, false⟩) ∉ spots Chunk.headerSize (entry.2.slots entry.1) := by
  obtain ⟨slot, hslots, hfree⟩ := h
  rw [hslots]
  simp only [spots, List.mem_singleton, Prod.mk.injEq, not_and]
  rintro - rfl
  simp at hfree

/-- A chunk without a block in use is a single free block, because free blocks are merged. -/
theorem idle_of_free {shared : Bool} (h : chunk.Settled shared address (chunk.slots address))
    (free : ∀ slot ∈ chunk.slots address, slot.isFree = true) : Idle (address, chunk) := by
  rcases hslots : chunk.slots address with _ | ⟨slot, _ | ⟨next, rest⟩⟩
  · exact absurd hslots h.nonempty
  · exact ⟨slot, hslots, free slot (by simp [hslots])⟩
  · have hapart := h.apart
    rw [hslots] at hapart free
    exact absurd ⟨free slot (by simp), free next (by simp)⟩ ((List.isChain_cons.1 hapart).1 next rfl)

/-- A chunk is looked up for giving back if it has no block in use. -/
theorem isUnused_eq {shared : Bool} (h : chunk.Settled shared address (chunk.slots address)) :
    chunk.isUnused address = .ok ((chunk.slots address).all (·.isFree)) := by
  rcases hslots : chunk.slots address with _ | ⟨slot, rest⟩
  · exact absurd hslots h.nonempty
  have htiled : chunk.Tiled address ([] ++ slot :: rest) := hslots ▸ h.tiled
  have hheader : chunk.header (Chunk.firstBlock address) =
      .ok ⟨address, none, slot.size, slot.isFree⟩ := htiled.header_eq
  have hafter : chunk.after (Chunk.firstBlock address) _ = _ :=
    htiled.after_eq ⟨address, none, slot.size, slot.isFree⟩ rfl
  simp only [Chunk.isUnused, hheader, bind, Except.bind]
  split
  · rename_i hfree
    rw [hafter]
    cases rest with
    | nil => simp [Chunk.firstOf, hfree, pure, Except.pure]
    | cons next rest =>
      -- behind a free block there is one in use
      have hapart := h.apart
      rw [hslots] at hapart
      have hused : next.isFree = false := by
        have hboth := (List.isChain_cons.1 hapart).1 next rfl
        rw [Slot.Apart] at hboth
        simpa [hfree] using hboth
      simp [Chunk.firstOf, hused, pure, Except.pure]
  · rename_i hfree
    simp [hfree, pure, Except.pure]

/-- The chunks that are picked are those whose layout is all free. -/
theorem unused_eq {entries : List (Nat × Chunk)}
    (h : ∀ entry ∈ entries, ∃ shared, entry.2.Settled shared entry.1 (entry.2.slots entry.1)) :
    unused entries = .ok ((entries.filter fun entry =>
      (entry.2.slots entry.1).all (·.isFree)).map Prod.fst) := by
  induction entries with
  | nil => rfl
  | cons entry rest ih =>
    obtain ⟨address, chunk⟩ := entry
    obtain ⟨shared, hsettled⟩ := h _ (List.mem_cons_self ..)
    simp only [unused, isUnused_eq hsettled, bind, Except.bind,
      ih fun other hother => h other (List.mem_cons_of_mem _ hother), List.filter_cons]
    split <;> rfl

/-- The chunks that are looked up for giving back are idle ones. -/
theorem Sound.unused_idle (h : Sound machine category) :
    let addresses := (category.chunks.toList.filter fun entry =>
      (entry.2.slots entry.1).all (·.isFree)).map Prod.fst
    addresses.Nodup ∧ ∀ address ∈ addresses, ∃ chunk, (address, chunk) ∈ category.chunks.toList ∧
      Idle (address, chunk) := by
  refine ⟨(List.filter_sublist.map Prod.fst).nodup h.sequence.distinct, fun address haddress => ?_⟩
  obtain ⟨entry, hentry, rfl⟩ := List.mem_map.1 haddress
  obtain ⟨hmem, hfree⟩ := List.mem_filter.1 hentry
  exact ⟨entry.2, hmem, idle_of_free (h.settled hmem) (List.all_eq_true.1 hfree)⟩

/-- A chunk that leaves the chain takes its size along. -/
theorem totalSize_remove (h : category.chunks.IsSequence category.chunks.toList)
    (hmem : (address, chunk) ∈ category.chunks.toList) :
    totalSize (category.chunks.remove address).toList + chunk.size =
      totalSize category.chunks.toList := by
  obtain ⟨before, after, hsplit, hlist, -⟩ := h.toList_remove_middle hmem
  simp only [hsplit, hlist, totalSize_append, totalSize_cons]
  omega

section Remove

variable (h : Sound machine category) (hmem : (address, chunk) ∈ category.chunks.toList)

include h hmem

variable (hidle : Idle (address, chunk))
  (hheld : ∀ holding ∈ machine.ledger,
    holding.stop ≤ address ∨ address + chunk.size ≤ holding.address → holding ∈ machine'.ledger)

include hidle hheld

/-- An idle chunk may leave the chain, and the books may lose its mapping. -/
theorem Sound.remove :
    Sound machine' { category with chunks := category.chunks.remove address } := by
  obtain ⟨before, after, hsplit, hlist, hsequence⟩ := h.sequence.toList_remove_middle hmem
  refine ⟨hsequence, h.lengths, ?_, ?_, ?_, ?_⟩
  · intro place entry hentry
    obtain ⟨hother, hentry⟩ := (h.sequence.mem_remove_iff hmem).1 hentry
    have hlaid := h.laid place entry hentry
    have hapart := (h.apart _ hentry _ hmem).resolve_left hother
    exact ⟨hlaid.settled, hlaid.category, hlaid.aligned, hlaid.whole, hheld _ hlaid.held hapart⟩
  · intro p hp q hq
    exact h.apart p ((h.sequence.mem_remove_iff hmem).1 hp).2 q
      ((h.sequence.mem_remove_iff hmem).1 hq).2
  · have hsizes := totalSize_remove h.sequence hmem
    have hbounded := h.bounded
    simp only
    omega
  · obtain ⟨slot, hslots, hfree⟩ := hidle
    have hcounted := h.counted
    have hnone : Layout.used (chunk.slots address) = 0 := by
      simp only [hslots, Layout.used, hfree, if_true]
    rw [hsplit] at hcounted
    simp only [hlist, totalUsed_append, totalUsed_cons, hnone, Nat.zero_add] at hcounted ⊢
    exact hcounted

/-- Removing an idle chunk leaves the blocks of the others as they are. -/
theorem Sound.evolves_remove :
    Evolves ∅ (machine, category)
      (machine', { category with chunks := category.chunks.remove address }) := by
  have hused : ∀ ref size, category.Uses ref size →
      Uses { category with chunks := category.chunks.remove address } ref size ∧
        SameCells category { category with chunks := category.chunks.remove address } ref size := by
    refine fun ref size huses => h.kept (h.remove hmem hidle hheld) huses
      fun other hother hspot => (h.sequence.mem_remove_iff hmem).2 ⟨?_, hother⟩
    -- an idle chunk holds no block in use
    rintro rfl
    obtain rfl := h.sequence.mem_unique hother hmem
    exact hidle.not_used _ _ hspot
  exact ⟨rfl, rfl,
    fun holding hin hclear => ⟨hheld holding hin (hclear _ hmem), fun entry hentry =>
      hclear entry ((h.sequence.mem_remove_iff hmem).1 hentry).2⟩,
    fun ref size huses _ => (hused ref size huses).1,
    fun ref size huses _ => (hused ref size huses).2⟩

end Remove

/-- What giving chunks back does to the counters of a category. Only a fault can stop it, and
without one the mapped bytes stay exact. -/
structure Shed (before after : Category) (result : Except Stop Nat) : Prop where
  used : after.used = before.used
  stopped : ∀ reason, result = .error reason → ∃ fault, reason = .fault fault
  exact : ∀ bytes, result = .ok bytes → before.Exact → after.Exact
  sizes : ∀ bytes, result = .ok bytes →
    totalSize after.chunks.toList + bytes = totalSize before.chunks.toList

/-- An idle chunk is given back, or the kernel refuses and the list forgets it. -/
theorem Sound.unmapChunk (h : Sound machine category)
    (hmem : (address, chunk) ∈ category.chunks.toList) (hidle : Idle (address, chunk))
    (environment : Environment) :
    ∃ result machine' after, Category.unmapChunk address environment (machine, category) =
        (result, machine', after) ∧
      Sound machine' after ∧ Evolves ∅ (machine, category) (machine', after) ∧
      (∀ entry ∈ category.chunks.toList, entry.1 ≠ address → entry ∈ after.chunks.toList) ∧
      Shed category after result := by
  obtain ⟨result, machine', hunmap, -, hcases⟩ :=
    Pages.unmap_cases environment machine address chunk.size
  have hheld : ∀ holding ∈ machine.ledger,
      holding.stop ≤ address ∨ address + chunk.size ≤ holding.address →
        holding ∈ machine'.ledger :=
    fun holding hin hapart => Pages.mem_ledger_unmap machine hin hapart hunmap
  have hsound := h.remove hmem hidle hheld
  have hevolves := h.evolves_remove hmem hidle hheld
  have hkept : ∀ entry ∈ category.chunks.toList, entry.1 ≠ address →
      entry ∈ (category.chunks.remove address).toList :=
    fun entry hentry hother => (h.sequence.mem_remove_iff hmem).2 ⟨hother, hentry⟩
  have hsizes := totalSize_remove h.sequence hmem
  rw [Category.unmapChunk, bind_apply_ok _ _ (chunkAt_apply (h.get?_eq hmem)),
    bind_apply_ok _ _ (modifyOwn_apply ..)]
  -- the chunk is out of the chain before the kernel may refuse
  cases result with
  | error reason =>
    obtain ⟨fault, hfault⟩ := (hcases.resolve_left (by simp)).1
    rw [bind_apply_error _ _ (ask_apply _ hunmap _)]
    exact ⟨_, _, _, rfl, hsound, hevolves, hkept,
      ⟨rfl, fun other heq => ⟨fault, (Except.error.inj heq).symm.trans (Except.error.inj hfault)⟩,
        by simp, by simp⟩⟩
  | ok =>
    rw [bind_apply_ok _ _ (ask_apply _ hunmap _), bind_apply_ok _ _ (own_apply ..)]
    cases hsub : Size.sub category.mapped chunk.size with
    | error fault =>
      exact ⟨_, _, _, rfl, hsound, hevolves, hkept,
        ⟨rfl, fun other heq => ⟨fault, (Except.error.inj heq).symm⟩, by simp, by simp⟩⟩
    | ok mapped =>
      refine ⟨.ok chunk.size, _, _, rfl, (hsound.of_mapped mapped).of_log _, { hevolves with }, hkept,
        ⟨rfl, by simp, fun bytes _ hexact => ?_, fun bytes heq => ?_⟩⟩
      · rw [Exact] at hexact
        rw [Chunk.sub_eq (show chunk.size ≤ category.mapped by omega)] at hsub
        rw [Exact, ← Except.ok.inj hsub]
        simp only
        omega
      · rw [← Except.ok.inj heq]
        exact hsizes

/-- Idle chunks are given back one by one, until the kernel refuses one of them. -/
theorem Sound.releaseEach (h : Sound machine category) {addresses : List Nat}
    (hdistinct : addresses.Nodup)
    (hidle : ∀ address ∈ addresses, ∃ chunk, (address, chunk) ∈ category.chunks.toList ∧
      Idle (address, chunk)) (environment : Environment) :
    ∃ result machine' after, Category.releaseEach addresses environment (machine, category) =
        (result, machine', after) ∧
      Sound machine' after ∧ Evolves ∅ (machine, category) (machine', after) ∧
      Shed category after result := by
  induction addresses generalizing machine category with
  | nil =>
    exact ⟨_, _, _, rfl, h, Evolves.refl .., rfl, by simp, fun _ _ hexact => hexact,
      fun bytes heq => by rw [← Except.ok.inj heq]; rfl⟩
  | cons address rest ih =>
    obtain ⟨chunk, hmem, hunused⟩ := hidle address (List.mem_cons_self ..)
    obtain ⟨result, machine', middle, hrun, hsound, hevolves, hkept, hshed⟩ :=
      h.unmapChunk hmem hunused environment
    rw [Category.releaseEach]
    cases result with
    | error reason =>
      rw [bind_apply_error _ _ hrun]
      exact ⟨_, _, _, rfl, hsound, hevolves, hshed⟩
    | ok length =>
      rw [List.nodup_cons] at hdistinct
      obtain ⟨others, machine'', after, hrest, hsound', hevolves', hshed'⟩ := ih hsound hdistinct.2
        fun place hplace => by
          obtain ⟨other, hother, hfree⟩ := hidle place (List.mem_cons_of_mem _ hplace)
          -- the other chunks are still there, since each is given back once
          exact ⟨other, hkept _ hother fun heq => hdistinct.1 (heq ▸ hplace), hfree⟩
      have hused := hshed'.used.trans hshed.used
      rw [bind_apply_ok _ _ hrun]
      cases others with
      | error reason =>
        rw [bind_apply_error _ _ hrest]
        exact ⟨_, _, _, rfl, hsound', hevolves.trans hevolves', hused, hshed'.stopped, by simp,
          by simp⟩
      | ok sum =>
        rw [bind_apply_ok _ _ hrest]
        cases hadd : Size.add length sum with
        | error fault =>
          exact ⟨_, _, _, rfl, hsound', hevolves.trans hevolves', hused,
            fun other heq => ⟨fault, (Except.error.inj heq).symm⟩, by simp, by simp⟩
        | ok total =>
          refine ⟨_, _, _, rfl, hsound', hevolves.trans hevolves', hused, by simp, ?_, ?_⟩
          · exact fun _ _ hexact => hshed'.exact sum rfl (hshed.exact length rfl hexact)
          · intro bytes heq
            -- the bytes of the first chunk and of the rest add up
            have hfirst := hshed.sizes length rfl
            have hrest := hshed'.sizes sum rfl
            obtain rfl := Except.ok.inj heq
            rw [Size.eq_of_add_eq_ok hadd]
            omega

/-! ## A kernel that takes every mapping back -/

/-- What giving chunks back relies on: they are live mappings apart from each other, and the counter
of mapped bytes is exact. Nothing is said of blocks. -/
structure Held [Size.Paging] (machine : Machine) (category : Category) : Prop where
  sequence : category.chunks.IsSequence category.chunks.toList
  whole : ∀ entry ∈ category.chunks.toList, Size.pageSize ∣ entry.2.size
  held : ∀ entry ∈ category.chunks.toList, ⟨entry.1, entry.2.size, .pages false⟩ ∈ machine.ledger
  apart : ∀ p ∈ category.chunks.toList, ∀ q ∈ category.chunks.toList, p.1 = q.1 ∨ Chunk.Apart p q
  bounded : totalSize category.chunks.toList < Size.limit
  exact : category.Exact

/-- A sound category with exact counters holds its chunks. -/
theorem Sound.toHeld (h : Sound machine category) (exact : category.Exact) :
    Held machine category where
  sequence := h.sequence
  whole entry hentry := (h.laid entry.1 entry.2 hentry).whole
  held entry hentry := (h.laid entry.1 entry.2 hentry).held
  apart := h.apart
  bounded := h.bounded
  exact := exact

namespace Held

/-- Regions that share no address with the chunks stay in the books. -/
def Spares (category : Category) (before after : Machine) : Prop :=
  ∀ holding ∈ before.ledger, category.Avoids holding → holding ∈ after.ledger

/-- A kernel that takes every live mapping back takes each chunk, and its bytes are counted off. -/
theorem unmapChunk (h : Held machine category) (hunmaps : environment.UnmapsLive)
    (hmem : (address, chunk) ∈ category.chunks.toList) :
    ∃ machine' after, Category.unmapChunk address environment (machine, category) =
        (.ok chunk.size, machine', after) ∧
      Held machine' after ∧ Spares category machine machine' ∧
      (∀ entry, entry ∈ after.chunks.toList ↔ entry.1 ≠ address ∧ entry ∈ category.chunks.toList) ∧
      totalSize after.chunks.toList + chunk.size = totalSize category.chunks.toList := by
  obtain ⟨machine', hunmap, -, hledger⟩ := Pages.unmap_ok machine (h.whole _ hmem)
    (hunmaps _ _ _ (h.held _ hmem))
  obtain ⟨-, -, -, -, hsequence⟩ := h.sequence.toList_remove_middle hmem
  have hsizes := totalSize_remove h.sequence hmem
  have hin : ∀ entry, entry ∈ (category.chunks.remove address).toList ↔
      entry.1 ≠ address ∧ entry ∈ category.chunks.toList := fun _ => h.sequence.mem_remove_iff hmem
  have hexact := h.exact
  rw [Exact] at hexact
  -- what is counted is exact, so there is enough to count off
  have hfits : chunk.size ≤ category.mapped := by omega
  refine ⟨{ machine' with log := .chunkReleased category.index chunk.size :: machine'.log },
    { category with
      chunks := category.chunks.remove address
      mapped := category.mapped - chunk.size },
    ?_, ⟨hsequence, ?_, ?_, ?_, ?_, ?_⟩, ?_, hin, hsizes⟩
  · rw [Category.unmapChunk,
      bind_apply_ok _ _ (chunkAt_apply (h.sequence.get?_eq_some_iff.2 hmem)),
      bind_apply_ok _ _ (modifyOwn_apply ..), bind_apply_ok _ _ (ask_apply _ hunmap _),
      bind_apply_ok _ _ (own_apply ..), Chunk.sub_eq hfits]
    rfl
  · exact fun entry hentry => h.whole entry ((hin entry).1 hentry).2
  · intro entry hentry
    obtain ⟨hother, hold⟩ := (hin entry).1 hentry
    simp only
    rw [hledger]
    exact Ledger.mem_withoutPages (h.held entry hold) ((h.apart _ hold _ hmem).resolve_left hother)
  · exact fun p hp q hq => h.apart p ((hin p).1 hp).2 q ((hin q).1 hq).2
  · have hbounded := h.bounded
    simp only
    omega
  · rw [Exact]
    simp only
    omega
  · intro holding hheld hclear
    simp only
    rw [hledger]
    exact Ledger.mem_withoutPages hheld (hclear _ hmem)

/-- Giving any of the chunks back succeeds, and tells how many bytes they were. -/
theorem releaseEach (h : Held machine category) (hunmaps : environment.UnmapsLive)
    {addresses : List Nat} (hdistinct : addresses.Nodup)
    (hin : ∀ address ∈ addresses, ∃ chunk, (address, chunk) ∈ category.chunks.toList) :
    ∃ bytes machine' after, Category.releaseEach addresses environment (machine, category) =
        (.ok bytes, machine', after) ∧
      Held machine' after ∧ Spares category machine machine' ∧
      bytes ≤ totalSize category.chunks.toList := by
  induction addresses generalizing machine category with
  | nil => exact ⟨0, _, _, rfl, h, fun _ hheld _ => hheld, Nat.zero_le _⟩
  | cons address rest ih =>
    obtain ⟨chunk, hmem⟩ := hin address (List.mem_cons_self ..)
    obtain ⟨machine₁, middle, hrun, hheld, hspares, hkept, hsizes⟩ := h.unmapChunk hunmaps hmem
    rw [List.nodup_cons] at hdistinct
    obtain ⟨others, machine₂, after, hrest, hheld', hspares', hle⟩ :=
      ih hheld hdistinct.2 fun place hplace => by
        obtain ⟨other, hother⟩ := hin place (List.mem_cons_of_mem _ hplace)
        exact ⟨other, (hkept _).2 ⟨fun heq => hdistinct.1 (heq ▸ hplace), hother⟩⟩
    have hbounded := h.bounded
    refine ⟨chunk.size + others, _, _, ?_, hheld', ?_, by omega⟩
    · rw [Category.releaseEach, bind_apply_ok _ _ hrun, bind_apply_ok _ _ hrest,
        Chunk.add_eq (show chunk.size + others < Size.limit by omega)]
      rfl
    · intro holding hholding hclear
      exact hspares' holding (hspares holding hholding hclear)
        fun entry hentry => hclear entry ((hkept entry).1 hentry).2

/-- Giving every chunk back succeeds. -/
theorem release (h : Held machine category) (hunmaps : environment.UnmapsLive) :
    ∃ machine' after, Category.release environment (machine, category) =
        (.ok (), machine', after) ∧ Spares category machine machine' := by
  obtain ⟨bytes, machine', after, hrun, -, hspares, -⟩ := h.releaseEach hunmaps
    h.sequence.distinct fun address haddress => by
      obtain ⟨entry, hentry, rfl⟩ := List.mem_map.1 haddress
      exact ⟨entry.2, hentry⟩
  refine ⟨machine', { after with used := 0 }, ?_, hspares⟩
  rw [Category.release, bind_apply_ok _ _ (own_apply ..)]
  simp only [h.sequence.addresses_eq]
  rw [bind_apply_ok _ _ (discard_apply_ok _ hrun)]
  rfl

end Held

/-- Giving unused chunks back touches no used block, whatever the kernel does with them. -/
theorem Sound.trim (h : Sound machine category) (environment : Environment) :
    ∃ result machine' after, Category.trim environment (machine, category) =
        (result, machine', after) ∧
      Sound machine' after ∧ Evolves ∅ (machine, category) (machine', after) ∧
      Shed category after result ∧
      (category.Exact → environment.UnmapsLive → ∃ bytes, result = .ok bytes) := by
  obtain ⟨hdistinct, hidle⟩ := h.unused_idle
  obtain ⟨result, machine', after, hrun, hsound, hevolves, hshed⟩ :=
    h.releaseEach hdistinct hidle environment
  rw [Category.trim, bind_apply_ok _ _ (own_apply ..),
    unused_eq fun entry hentry => ⟨_, h.settled hentry⟩, bind_apply_ok _ _ (checked_ok ..)]
  refine ⟨result, machine', after, hrun, hsound, hevolves, hshed, fun hexact hunmaps => ?_⟩
  obtain ⟨bytes, _, _, hgiven, -⟩ := (h.toHeld hexact).releaseEach hunmaps hdistinct
    fun address haddress => (hidle address haddress).imp fun _ hboth => hboth.1
  exact ⟨bytes, (Prod.mk.inj (hrun.symm.trans hgiven)).1⟩

end PagedAlloc.Category
