import PagedAlloc.Proofs.Sessions

/-!
# Payloads of a session

Headers and payloads share the memory of the chunks, and blocks are cut and merged all the time. Yet
the payloads of the live addresses lie apart from each other and from every header, and a call
changes no payload but the one that it was called on
(`SegregatedList.Session.Reachable.integrity`).
-/

namespace PagedAlloc.SegregatedList

variable {paging : Size.Paging}

open Layout

/-- The cells of the payload at an address, all that may be used. -/
def contents (list : SegregatedList) (address : Nat) :
    Except Fault (List (Cell BlockHeader)) := do
  return (← list.read address 0 (← list.usableSize address)).cells

/-- The payload at an address begins on a boundary and lies in a mapped chunk of the list, apart
from all headers of chunks and blocks. -/
structure Session.Placed (session : Session) (address usable : Nat) : Prop where
  aligned : Block.payloadAlign ∣ address
  inside : ∃ (index : Fin categoryCount) (start : Nat) (chunk : Chunk),
    (start, chunk) ∈ (session.list.category index).chunks.toList ∧
      ⟨start, chunk.size, .pages false⟩ ∈ session.machine.ledger ∧
        start ≤ address ∧ address + usable ≤ start + chunk.size
  chunkHeaders : ∀ (index : Fin categoryCount),
    ∀ entry ∈ (session.list.category index).chunks.toList,
      entry.1 + Chunk.headerSize ≤ address ∨ address + usable ≤ entry.1
  blockHeaders : ∀ (index : Fin categoryCount),
    ∀ entry ∈ (session.list.category index).chunks.toList,
      ∃ blocks, entry.2.blocks entry.1 = .ok blocks ∧ ∀ block ∈ blocks,
        block.1.chunk + block.1.offset + Block.headerSize ≤ address ∨
          address + usable ≤ block.1.chunk + block.1.offset

/-- What a caller may rely on: each live address leads to a payload of at least the size that was
asked for, apart from all headers and all other live payloads. A call changes no live payload but
the one that it was called on, and a write changes no block, hint or counter. -/
structure Session.Integrity [Size.Paging] (session : Session) : Prop where
  placed : ∀ entry ∈ session.live, ∃ usable, session.list.usableSize entry.1 = .ok usable ∧
    entry.2 ≤ usable ∧ session.Placed entry.1 usable
  apart : session.live.Pairwise fun p q => ∀ u v, session.list.usableSize p.1 = .ok u →
    session.list.usableSize q.1 = .ok v → p.1 + u ≤ q.1 ∨ q.1 + v ≤ p.1
  kept : ∀ environment : Environment, environment.FitsAddresses →
    ∀ call : Call, call.Allowed session → ∀ entry ∈ session.live, ¬ call.Touches entry.1 →
      entry ∈ (session.after environment call).live ∧
        (session.after environment call).list.contents entry.1 = session.list.contents entry.1
  write : ∀ (environment : Environment) (address offset : Nat) (content : Stretch BlockHeader),
    (Call.write address offset content).Allowed session → ∀ index : Fin categoryCount,
      let after := session.after environment (.write address offset content)
      (after.list.category index).layout = (session.list.category index).layout ∧
        (after.list.category index).usage = (session.list.category index).usage

variable {environment : Environment} {machine machine' : Machine} {list before after : SegregatedList}
  {session : Session} {index : Fin categoryCount} {ref : BlockRef} {size : Nat}
  {touched : Set BlockRef}

namespace Sound

/-- A block in use lies in front of another block or behind it. -/
theorem blocks_apart (h : Sound machine list) {i : Fin categoryCount} {entry : Nat × Chunk}
    (huses : (list.category index).Uses ref size)
    (hentry : entry ∈ (list.category i).chunks.toList) {spot : Nat × Slot}
    (hspot : spot ∈ spots Chunk.headerSize (entry.2.slots entry.1)) :
    ref = ⟨entry.1, spot.1⟩ ∧ spot.2 = ⟨size, false⟩ ∨
      ref.payload + size ≤ entry.1 + spot.1 ∨
        entry.1 + spot.1 + spot.2.total ≤ ref.chunk + ref.offset := by
  obtain ⟨chunk, hmem, hown⟩ := huses
  have hend := spot_le_stop hown
  have hend' := spot_le_stop hspot
  rw [((h.sound index).settled hmem).tiled.ends] at hend
  rw [((h.sound i).settled hentry).tiled.ends] at hend'
  simp only [BlockRef.payload, BlockRef.payloadOffset, Slot.total] at *
  by_cases hapart : Chunk.Apart (ref.chunk, chunk) entry
  · simp only [Chunk.Apart] at hapart
    omega
  · -- two chunks that overlap are the same one
    obtain ⟨-, rfl⟩ := h.eq_of_overlap hmem hentry hapart
    rcases spots_apart hown hspot with rfl | hbehind
    · exact Or.inl ⟨rfl, rfl⟩
    · simp only [Slot.total] at hbehind
      omega

/-- The payload of a block in use lies in its chunk, and apart from all headers. -/
theorem placed (h : Sound machine list) (huses : (list.category index).Uses ref size)
    (live : List (Nat × Nat)) : Session.Placed ⟨machine, list, live⟩ ref.payload size := by
  obtain ⟨chunk, hmem, hoffset, hend⟩ := h.uses_bounds huses
  have hlaid := (h.sound index).laid _ _ hmem
  refine ⟨?_, ⟨index, ref.chunk, chunk, hmem, hlaid.held, Nat.le_add_right .., ?_⟩, ?_, ?_⟩
  · obtain ⟨other, hother, hspot⟩ := huses
    have hboundary : Block.payloadAlign ∣ ref.offset :=
      dvd_of_mem_spots (by decide) ((h.sound index).settled hother).tiled.valid hspot
    have hpages : Block.payloadAlign ∣ ref.chunk :=
      Nat.dvd_trans (Size.dvd_pageSize (by decide) (by decide)) hlaid.aligned
    exact Nat.dvd_add hpages (Nat.dvd_add hboundary (by decide))
  · rw [BlockRef.payload]
    omega
  · intro i entry hentry
    -- headers of other chunks lie in other pages, and that of the own chunk in front of all blocks
    by_cases hapart : Chunk.Apart (ref.chunk, chunk) entry
    · simp only [Chunk.Apart, BlockRef.payload] at *
      have hsettled := (h.sound i).settled hentry
      have hheader := le_stop Chunk.headerSize (entry.2.slots entry.1)
      rw [hsettled.tiled.ends] at hheader
      omega
    · obtain ⟨-, rfl⟩ := h.eq_of_overlap hmem hentry hapart
      apply Or.inl
      simp only [BlockRef.payload, BlockRef.payloadOffset]
      omega
  · intro i entry hentry
    refine ⟨_, ((h.sound i).settled hentry).blocks_eq, ?_⟩
    intro block hblock
    obtain ⟨hchunk, -, hspot⟩ := spot_of_mem_visited hblock
    rw [hchunk]
    have hcases := h.blocks_apart huses hentry hspot
    simp only [Slot.total] at hcases
    rcases hcases with ⟨rfl, -⟩ | hfront | hback
    · exact Or.inl (Nat.le_of_eq (Nat.add_assoc ..))
    · exact Or.inr hfront
    · apply Or.inl
      simp only [BlockRef.payload, BlockRef.payloadOffset]
      omega

/-- The payloads of two different blocks in use share no address. -/
theorem payloads_apart (h : Sound machine list) {i : Fin categoryCount} {other : BlockRef}
    {count : Nat} (huses : (list.category index).Uses ref size)
    (hother : (list.category i).Uses other count) (hne : ref ≠ other) :
    ref.payload + size ≤ other.payload ∨ other.payload + count ≤ ref.payload := by
  obtain ⟨chunk, hmem, hspot⟩ := hother
  have hcases := h.blocks_apart huses hmem hspot
  simp only [Slot.total, BlockRef.payload, BlockRef.payloadOffset] at *
  rcases hcases with ⟨rfl, -⟩ | hfront | hback
  · exact absurd rfl hne
  · omega
  · omega

/-- The contents at a live address are the cells of its payload, in their order. -/
theorem contents_eq (h : Sound machine list) (huses : (list.category index).Uses ref size) :
    ∃ chunk, (list.category index).chunks.get? ref.chunk = some chunk ∧
      list.contents ref.payload = .ok ((List.range size).map fun count =>
        chunk.memory.cell (ref.payloadOffset + count)) := by
  obtain ⟨chunk, hmem, hholding⟩ := h.chunkHolding?_payload huses
  refine ⟨chunk, (h.sound index).get?_eq hmem, ?_⟩
  have hplace : ref.payload - ref.chunk = ref.payloadOffset := by
    rw [BlockRef.payload, Nat.add_sub_cancel_left]
  simp only [contents, h.usableSize_eq huses, read, hholding, hplace, Nat.add_zero, bind,
    Except.bind, pure, Except.pure, Memory.cells_read]

end Sound

/-- The payload of a block that was not touched is the same as before. -/
theorem Evolves.contents_eq (h : Evolves touched before after) (hbefore : Sound machine before)
    (hafter : Sound machine' after) (huses : (before.category index).Uses ref size)
    (hother : ref ∉ touched) : after.contents ref.payload = before.contents ref.payload := by
  obtain ⟨old, hold, hcontents⟩ := hbefore.contents_eq huses
  obtain ⟨new, hnew, hcontents'⟩ := hafter.contents_eq (h.stays index ref size huses hother)
  rw [hcontents, hcontents']
  refine congrArg Except.ok (List.map_congr_left ?_)
  intro count hcount
  have hcell := h.cells index ref size huses hother (ref.payloadOffset + count)
    (Nat.le_add_right ..) (Nat.add_lt_add_left (List.mem_range.1 hcount) _)
  rw [Category.cell?, Category.cell?, hold, hnew] at hcell
  exact Option.some.inj hcell

/-- A write into a payload changes no block, hint or counter of any category. -/
theorem Session.Sound.layout_write (h : session.Sound) {address offset : Nat}
    {content : Stretch BlockHeader}
    (allowed : (Call.write address offset content).Allowed session) (environment : Environment)
    (index : Fin categoryCount) :
    let after := session.after environment (.write address offset content)
    (after.list.category index).layout = (session.list.category index).layout ∧
      (after.list.category index).usage = (session.list.category index).usage := by
  obtain ⟨ref, i, usable, rfl, huses, hfits⟩ := h.exists_uses_of_write allowed
  obtain ⟨after, hrun, -, -, -, -, -, hsame⟩ := h.list.write huses hfits environment
  rw [Session.after, Call.run, Session.turn_ok hrun]
  exact hsame index

/-- In every reachable session the live payloads lie apart from each other and from all headers, and
each of them is changed only by the calls that are made on it. -/
theorem Session.Reachable.integrity {session : Session} (h : session.Reachable) :
    session.Integrity := by
  have hsound := h.sound
  refine ⟨?_, ?_, ?_, fun environment _ _ _ allowed index =>
    hsound.layout_write allowed environment index⟩
  · intro entry hentry
    obtain ⟨ref, hplace, index, usable, huses, hle⟩ := hsound.held entry.1 entry.2 hentry
    rw [hplace]
    exact ⟨usable, hsound.list.usableSize_eq huses, hle, hsound.list.placed huses session.live⟩
  · apply (List.pairwise_map.1 hsound.distinct).imp_of_mem
    intro p q hp hq hne u v hu hv
    obtain ⟨ref, hplace, i, size, huses, -⟩ := hsound.held p.1 p.2 hp
    obtain ⟨other, hplace', j, count, hother, -⟩ := hsound.held q.1 q.2 hq
    rw [hplace, hplace'] at hne ⊢
    rw [hplace, hsound.list.usableSize_eq huses] at hu
    rw [hplace', hsound.list.usableSize_eq hother] at hv
    obtain rfl := Except.ok.inj hu
    obtain rfl := Except.ok.inj hv
    -- addresses that differ are those of different blocks
    exact hsound.list.payloads_apart huses hother fun heq => hne (congrArg _ heq)
  · intro environment fits call allowed entry hentry huntouched
    obtain ⟨hsound', touched, hevolves, hkept⟩ := hsound.step fits allowed
    obtain ⟨hstays, hother⟩ := hkept entry hentry huntouched
    obtain ⟨ref, hplace, index, usable, huses, -⟩ := hsound.held entry.1 entry.2 hentry
    refine ⟨hstays, ?_⟩
    rw [hplace]
    exact hevolves.contents_eq hsound.list hsound'.list huses fun hin => hother ref hin hplace

end PagedAlloc.SegregatedList

namespace PagedAlloc.SegregatedList

open Layout

attribute [local instance] Size.Paging.common

theorem integrity_of_two_blocks :
    let session := (Session.after ⟨.fresh, .empty, []⟩ .ordinary (.allocate 64 true)).after
      .ordinary (.allocate 50 false)
    session.live = [(65712, 50), (65616, 64)] ∧ session.Integrity := by
  have first := (Session.Reachable.start .fresh).step .ordinary
    Environment.ordinary_fitsAddresses (.allocate 64 true) trivial
  have second := first.step .ordinary Environment.ordinary_fitsAddresses (.allocate 50 false) trivial
  exact ⟨by decide +kernel, second.integrity⟩

end PagedAlloc.SegregatedList
