import PagedAlloc.Proofs.OwnedRegions
import PagedAlloc.Proofs.RegionVerdicts

/-!
# Resizing live regions

A live region that is resized or moved is either replaced by another live one that holds the bytes
of both, or it is still there. Which of the two, with which length or for which reason, is told by
the strategy, the sizes and what the kernel or the heap grants, and not by the debug layer
(`Resizing.verdict`, `Region.Live.resized_or_kept`).
-/

namespace PagedAlloc.Region

variable {paging : Size.Paging}

open Procedure

variable {environment : Environment} {machine : Machine} {others : Ledger} {region : Region}
  {source : Source} {family : Family} {size newSize length newLength align : Nat}
  {diagnostics : Diagnostics}

/-- A region takes the place of another one that was asked for with `size`: it is live, it holds the
bytes that both lengths have, and a mapping holds zeros in what it gained. -/
structure Succeeds [Size.Paging] (machine : Machine) (family : Family) (align size : Nat)
    (region moved : Region) (others : Ledger) : Prop where
  live : moved.Live machine family align moved.length others
  kept : ∀ offset < min size moved.length,
    moved.memory.cell offset = region.memory.cell offset
  gained : family = .pages → ∀ offset, region.memory.length ≤ offset → offset < moved.length →
    moved.memory.cell offset = .byte 0

/-- What is left behind of a region that was replaced: nothing, unless it is stale. A stale mapping
stays in the books, sealed if the kernel takes the access away. -/
structure Leaves (environment : Environment) (region : Region) (stale : Prop) (left : Ledger) :
    Prop where
  none : ¬ stale → left = []
  stale : stale → ∃ isSealed, left = [⟨region.address, region.memory.length, .pages isSealed⟩] ∧
    (environment.ProtectsLive → isSealed = true)

/-- What a request to resize or to move a region leaves: if it succeeds, another region in place of
this one, and otherwise the books as they were. -/
structure Serves [Size.Paging] (environment : Environment) (before after : Machine)
    (family : Family) (align size : Nat) (region : Region) (others : Ledger) (stale : Prop)
    (result : Except Stop Region) : Prop where
  strays : after.strays = before.strays
  refused : ∀ reason, result = .error reason → before.SameBooks after
  granted : ∀ moved, result = .ok moved →
    ∃ left, Leaves environment region stale left ∧
      Succeeds after family align size region moved (left ++ others)

/-! ## Contents -/

/-- A copy holds what was copied. -/
theorem kept_copied {count offset : Nat} {fresh : Memory Empty} (address : Nat)
    (hcount : offset < count) (inside : offset < fresh.length) :
    (ofMemory address (region.copied count fresh)).memory.cell offset =
      region.memory.cell offset :=
  (replaces_copied address (Nat.min_le_left count fresh.length) (Nat.le_refl _)).cells offset
    hcount inside

/-- Copying bytes into a region leaves it where it is. -/
theorem elsewhere_copied {target : Region} {ledger : Ledger} (h : target.Elsewhere ledger)
    (region : Region) (count : Nat) :
    (ofMemory target.address (region.copied count target.memory)).Elsewhere ledger := by
  have hlength : (region.copied count target.memory).length = target.memory.length :=
    Memory.length_write ..
  show ledger.Vacant target.address (target.address + (region.copied count target.memory).length)
  rwa [hlength]

/-- Behind what was copied fresh pages hold zeros. -/
theorem gained_copied {count offset : Nat} (address : Nat) (behind : count ≤ offset)
    (inside : offset < length) :
    (ofMemory address (region.copied count (Memory.zeroed length))).memory.cell offset =
      .byte 0 := by
  have hdisjoint : offset < 0 ∨ 0 + (region.memory.read 0 count).length ≤ offset := by
    rw [Memory.length_read]
    omega
  exact (Memory.cell_write_of_disjoint inside hdisjoint).trans (Memory.cell_zeroed ..)

/-- What a mapping gains when it is resized holds zeros. -/
theorem gained_resized {offset : Nat} (address : Nat) (behind : region.memory.length ≤ offset)
    (inside : offset < length) :
    (ofMemory address (region.memory.resized length (.leaf (Run.constant 0)))).memory.cell offset =
      .byte 0 := by
  have hdisjoint : offset < 0 ∨
      0 + (region.memory.read 0 (min region.memory.length length)).length ≤ offset := by
    rw [Memory.length_read]
    omega
  show (region.memory.resized length _).cell offset = _
  rw [Memory.resized, if_neg (by omega), Memory.cell_write_of_disjoint inside hdisjoint]
  exact Memory.cell_zeroed ..

namespace Succeeds

theorem congr {after after' : Machine} {moved : Region}
    (h : Succeeds after family align size region moved others) (same : after.SameBooks after') :
    Succeeds after' family align size region moved others :=
  { h with live := ⟨same.holds h.live.holds, h.live.spans⟩ }

/-- A fresh region into which the bytes of another one are copied takes its place. -/
theorem copied {target : Region} (h : target.Live machine family align newSize others)
    (region : Region) (size count : Nat) (enough : min size target.memory.length ≤ count)
    (zeros : family = .pages → target.memory = Memory.zeroed target.memory.length ∧
      count ≤ region.memory.length) :
    Succeeds machine family align size region
      (ofMemory target.address (region.copied count target.memory)) others := by
  have hlength : (ofMemory target.address (region.copied count target.memory)).length =
    target.memory.length := length_copied ..
  refine ⟨h.of_length (ofMemory target.address (region.copied count target.memory)) rfl
    (Memory.length_write ..) rfl, ?_, ?_⟩
  · intro offset hoffset
    rw [hlength] at hoffset
    exact kept_copied _ (by omega) (by omega)
  · intro hpages offset hbehind hinside
    obtain ⟨hzeroed, hcount⟩ := zeros hpages
    rw [hlength] at hinside
    generalize target.memory.length = length at hzeroed hinside
    rw [hzeroed]
    exact gained_copied _ (Nat.le_trans hcount hbehind) hinside

/-- A region that was resized as its family does it takes its own place. -/
theorem resized {address : Nat} {fresh : Tree Empty}
    (holds : machine.Holds ⟨address, length, family.origin align⟩ others)
    (spans : family.Spans align length length) (inside : size ≤ region.memory.length)
    (zeros : family = .pages → fresh = .leaf (Run.constant 0)) :
    Succeeds machine family align size region
      (ofMemory address (region.memory.resized length fresh)) others := by
  have hlength : (region.memory.resized length fresh).length = length := Memory.length_resized ..
  have hmoved : (ofMemory address (region.memory.resized length fresh)).length = length := hlength
  refine ⟨⟨?_, ?_⟩, ?_, ?_⟩
  · show machine.Holds ⟨address, (region.memory.resized length fresh).length, _⟩ others
    rwa [hlength]
  · show family.Spans align _ (region.memory.resized length fresh).length
    rwa [hmoved, hlength]
  · intro offset hoffset
    rw [hmoved] at hoffset
    exact Memory.cell_resized _ _ _ (by omega) (by omega)
  · intro hpages offset hbehind hinside
    rw [hmoved] at hinside
    obtain rfl := zeros hpages
    exact gained_resized address hbehind hinside

end Succeeds

section Serves

variable {after : Machine} {stale : Prop}

/-- A refusal that leaves the books alone serves its caller. -/
theorem Serves.of_refused {reason : Stop} (same : machine.SameBooks after) :
    Serves environment machine after family align size region others stale (.error reason) :=
  ⟨same.strays, fun _ _ => same, nofun⟩

theorem Serves.congr {stale' : Prop} {result : Except Stop Region}
    (h : Serves environment machine after family align size region others stale result)
    (same : stale ↔ stale') :
    Serves environment machine after family align size region others stale' result :=
  propext same ▸ h

/-- A request that leaves nothing behind. -/
theorem Serves.of_granted {moved : Region} (fresh : ¬ stale)
    (strays : after.strays = machine.strays)
    (succeeds : Succeeds after family align size region moved others) :
    Serves environment machine after family align size region others stale (.ok moved) := by
  refine ⟨strays, nofun, ?_⟩
  rintro _ ⟨⟩
  exact ⟨[], ⟨fun _ => rfl, fun hstale => absurd hstale fresh⟩, succeeds⟩

end Serves

/-- A region of the heap that is moved is given back once its bytes are in a fresh one. -/
theorem moveHeap_serves (h : region.Live machine .heap align size others)
    (hfamily : source.family = .heap) (newSize : Nat) (environment : Environment) :
    ∃ result after, moveHeap source region size newSize align environment machine =
        (result, after) ∧
      Serves environment machine after .heap align size region others False result ∧
      ∀ moved, result = .ok moved → moved.Elsewhere machine.ledger := by
  obtain ⟨result, middle, hrun, hobtains⟩ :=
    allocate_obtains h.holds.tidy source newSize align environment
  rw [moveHeap]
  cases result with
  | error reason =>
    rw [bind_apply_error _ _ hrun]
    exact ⟨_, middle, rfl, .of_refused (hobtains.refused reason rfl), fun _ h => by cases h⟩
  | ok target =>
    obtain ⟨-, hlive, -⟩ := hobtains.granted target rfl
    rw [hfamily] at hlive
    obtain ⟨hlayout, hlength⟩ := h.spans
    -- both regions are live at this moment, and the old one is named as the heap knows it
    have hold := (h.beside hlive).holds
    rw [holding, hlength] at hold
    obtain ⟨after, hfree, hbooks, hstrays⟩ := Heap.free_apply hold environment
    have hrelease : release .heapFree region.address size align environment middle =
        (.ok (), after) := by
      unfold release
      dsimp only
      rwa [if_pos hlayout]
    rw [bind_apply_ok _ _ hrun, bind_apply_ok _ _ hrelease, bind_apply_ok _ _ (emit_apply ..)]
    have hsucceeds := Succeeds.copied (h.replaced hlive hbooks) region size (min size newSize)
      (Nat.le_of_eq (by rw [hlive.spans.2])) (by simp)
    refine ⟨_, _, rfl, .of_granted not_false (hstrays.trans hobtains.strays)
      (hsucceeds.congr (sameBooks_log ..)), ?_⟩
    rintro _ ⟨⟩
    exact elsewhere_copied hlive.elsewhere region (min size newSize)

/-- A region of the heap that is resized is another one of the heap, or still there. -/
theorem resizeHeap_serves (h : region.Live machine .heap align size others)
    (source : Source) (newSize : Nat) (environment : Environment) :
    ∃ result after, resizeHeap source region size newSize align environment machine =
        (result, after) ∧
      Serves environment machine after .heap align size region others False result := by
  obtain ⟨hlayout, hlength⟩ := h.spans
  have hold := h.holds
  rw [holding, hlength] at hold
  rw [resizeHeap, bind_apply_ok _ _ (ensureLayout_apply hlayout _ _)]
  by_cases hnew : Heap.IsLayout newSize align
  · obtain ⟨found, middle, hrun, hserves⟩ := Heap.resize_serves hold hnew environment
    rw [bind_apply_ok _ _ (ensureLayout_apply hnew _ _), bind_apply_ok _ _ hrun]
    cases found with
    | none =>
      obtain ⟨reason, after, hrefused, hsame⟩ := refused_books source.aborts newSize align
        (.heapGrowthRefused size newSize) environment middle
      exact ⟨_, after, hrefused, .of_refused ((hserves.refused rfl).trans hsame)⟩
    | some address =>
      exact ⟨_, middle, rfl, .of_granted not_false hserves.strays
        (.resized (hserves.holds address rfl) ⟨hnew, rfl⟩ (Nat.le_of_eq hlength.symm) (by simp))⟩
  · rw [bind_apply_error _ _ (ensureLayout_apply_not hnew _ _)]
    exact ⟨_, machine, rfl, .of_refused (.refl _)⟩

/-- A mapping that is moved stays behind without access, and its bytes are in a fresh one. -/
theorem moveMapping_serves (h : region.Live machine .pages align size others)
    (suits : Family.pages.Suits align newLength) (environment : Environment) :
    ∃ result after, moveMapping region region.memory.length newLength environment machine =
        (result, after) ∧
      Serves environment machine after .pages align size region others True result ∧
      ∀ moved, result = .ok moved → moved.Elsewhere machine.ledger := by
  obtain ⟨-, hpower, hsmall, -⟩ := h.spans
  obtain ⟨found, middle, hrun, hserves⟩ :=
    Pages.map_serves h.holds.tidy suits.1 suits.2.1 suits.2.2 environment
  rw [moveMapping, bind_apply_ok _ _ hrun]
  cases found with
  | none => exact ⟨_, middle, rfl, .of_refused (hserves.refused rfl), by simp⟩
  | some address =>
    have hlive : (ofMemory address (Memory.zeroed newLength)).Live middle .pages align newLength
        machine.ledger :=
      ⟨hserves.holds address rfl, .of_suits suits hpower hsmall⟩
    obtain ⟨done, after, hprotect, hbooks, hstrays, hsealed⟩ :=
      Pages.protect_live (h.beside hlive).holds environment
    have hmoved : (ofMemory address (Memory.zeroed newLength)).Live after .pages align newLength
        (⟨region.address, region.memory.length, .pages done⟩ :: others) := by
      refine ⟨hlive.holds.of_places (hbooks.trans (.swap ..)) fun other hother => ?_,
        hlive.spans⟩
      rcases List.mem_cons.1 hother with rfl | hother
      · exact ⟨_, h.holds.mem, rfl, rfl⟩
      · exact ⟨other, h.holds.books.mem_iff.2 (List.mem_cons_of_mem _ hother), rfl, rfl⟩
    have hsucceeds := Succeeds.copied hmoved region size (min region.memory.length newLength)
      (Nat.le_min.2 ⟨Nat.le_trans (Nat.min_le_left ..) h.spans.le, Nat.min_le_right ..⟩)
      fun _ => ⟨rfl, Nat.min_le_left ..⟩
    rw [bind_apply_ok _ _ (orFail_some ..), bind_apply_ok _ _ hprotect]
    have hserved (log : List Event) : Serves environment machine { after with log := log } .pages
        align size region others True (.ok (ofMemory address
          (region.copied (min region.memory.length newLength) (Memory.zeroed newLength)))) := by
      refine ⟨hstrays.trans hserves.strays, by simp, ?_⟩
      rintro _ ⟨⟩
      exact ⟨[⟨region.address, region.memory.length, .pages done⟩],
        ⟨fun hfalse => absurd trivial hfalse, fun _ => ⟨done, rfl, hsealed⟩⟩,
        hsucceeds.congr (sameBooks_log ..)⟩
    -- whether the access could be taken away shows in the log only
    cases done <;>
      exact ⟨_, _, rfl, hserved _, fun moved hmoved => Except.ok.inj hmoved ▸
        elsewhere_copied hlive.elsewhere region (min region.memory.length newLength)⟩

/-- A mapping that is resized is another one, maybe elsewhere, or still there. -/
theorem resizeMapping_serves (h : region.Live machine .pages align size others)
    (suits : Family.pages.Suits align newLength) (mayMove : Bool) (environment : Environment) :
    ∃ result after, resizeMapping region region.memory.length newLength mayMove environment machine =
        (result, after) ∧
      Serves environment machine after .pages align size region others False result ∧
      result.map Region.length = (if (if mayMove then environment.grantsPages machine.ledger newLength
          else Pages.growsHere environment machine.ledger region.address region.memory.length
            newLength) then .ok newLength
        else .error (.failure (if mayMove then .outOfMemory newLength
          else .cannotGrow region.memory.length newLength))) ∧
      (mayMove = false → ∀ moved, result = .ok moved → moved.address = region.address) := by
  obtain ⟨-, hpower, hsmall, hround⟩ := h.spans
  obtain ⟨found, after, hrun, hserves, hstays⟩ := Pages.remap_serves h.holds
    (Size.dvd_of_roundToPages?_eq_some hround) suits.1 suits.2.1 mayMove environment
  rw [resizeMapping, bind_apply_ok _ _ hrun, ← hserves.isSome]
  cases found with
  | none => exact ⟨_, after, rfl, .of_refused (hserves.refused rfl), rfl, by simp⟩
  | some address =>
    refine ⟨_, after, rfl, .of_granted not_false hserves.strays (.resized
      (hserves.holds address rfl) (.of_suits suits hpower hsmall) h.spans.le fun _ => rfl), ?_, ?_⟩
    · exact congrArg Except.ok (Memory.length_resized ..)
    · rintro hkeeps _ ⟨⟩
      exact hstays hkeeps address rfl

/-- The paths that a request to resize a mapping takes. -/
theorem resize_mapping {resizing : Resizing} (hfamily : resizing.family? = some .pages)
    (hround : Size.roundToPages? size = some length) (newSize : Nat) (diagnostics : Diagnostics)
    (environment : Environment) (machine : Machine) :
    resize resizing region size newSize align diagnostics environment machine =
      match Size.roundToPages? newSize with
      | none => (.error (.failure .overflow), machine)
      | some newLength =>
        if newLength = 0 then (.error (.failure (.invalidLayout newSize align)), machine)
        else if resizing.mayMove && diagnostics.debugLayer then
          moveMapping region length newLength environment machine
        else resizeMapping region length newLength resizing.mayMove environment machine := by
  have hpaths : resize resizing region size newSize align diagnostics = (do
      let length ← orFail .overflow (Size.roundToPages? size)
      let newLength ← orFail .overflow (Size.roundToPages? newSize)
      if resizing.mayMove && diagnostics.debugLayer && newLength ≠ 0 then
        moveMapping region length newLength
      else if newLength = 0 then fail (.invalidLayout newSize align)
      else resizeMapping region length newLength resizing.mayMove) := by
    cases resizing with
    | noOp | heapOrAbort | heapOrFail => cases hfamily
    | remapMayMove | remapKeepAddress => rfl
  rw [hpaths, hround, bind_apply_ok _ _ (orFail_some ..)]
  cases Size.roundToPages? newSize with
  | none => rfl
  | some newLength =>
    rw [bind_apply_ok _ _ (orFail_some ..)]
    by_cases hzero : newLength = 0
    · simp [hzero]
    · simp only [hzero, ne_eq, not_false_eq_true, decide_true, Bool.and_true, if_false]
      split <;> rfl

/-- What a request to resize a region answers and leaves. -/
structure Resizes [Size.Paging] (environment : Environment) (before after : Machine)
    (family : Family)
    (align size newSize : Nat) (region : Region) (others : Ledger) (resizing : Resizing)
    (debugLayer : Bool) (result : Except Stop Region) : Prop where
  serves : Serves environment before after family align size region others
    (resizing = .remapMayMove ∧ debugLayer = true) result
  verdict : result.map Region.length =
    resizing.verdict environment before.ledger align region size newSize
  stays : resizing.mayMove = false → ∀ moved, result = .ok moved → moved.address = region.address
  moves : resizing.mayMove = true → debugLayer = true → ∀ moved, result = .ok moved →
    moved.Elsewhere before.ledger

/-- A strategy without resizing keeps the region or refuses, and asks nobody. -/
theorem resize_noOp (h : region.Live machine family align size others) (newSize : Nat)
    (diagnostics : Diagnostics) (environment : Environment) :
    ∃ result after, resize .noOp region size newSize align diagnostics environment machine =
        (result, after) ∧
      Resizes environment machine after family align size newSize region others .noOp
        diagnostics.debugLayer result := by
  unfold resize
  dsimp only
  by_cases hless : newSize ≤ size
  · rw [if_pos hless]
    refine ⟨_, machine, rfl, .of_granted (by simp) rfl
      ⟨⟨h.holds, h.spans⟩, fun _ _ => rfl, fun _ offset hbehind hinside => ?_⟩, ?_, ?_,
      fun hmoves => absurd hmoves Bool.false_ne_true⟩
    · exact absurd hinside (Nat.not_lt.2 (Nat.le_trans h.spans.le hbehind))
    · exact (if_pos hless).symm
    · rintro - _ ⟨⟩
      rfl
  · rw [if_neg hless]
    exact ⟨_, machine, rfl, .of_refused (.refl _), (if_neg hless).symm, by simp, by simp⟩

/-- Resizing on the heap, with the debug layer or without it. -/
theorem resize_heap (h : region.Live machine .heap align size others) {resizing : Resizing}
    (hfamily : resizing.family? = some .heap) (newSize : Nat) (diagnostics : Diagnostics)
    (environment : Environment) :
    ∃ result after, resize resizing region size newSize align diagnostics environment machine =
        (result, after) ∧
      Resizes environment machine after .heap align size newSize region others resizing
        diagnostics.debugLayer result := by
  obtain ⟨hsource, hmoves, hstale, hverdict⟩ : resizing.source.family = .heap ∧
      resizing.mayMove = true ∧ resizing ≠ .remapMayMove ∧
      resizing.verdict environment machine.ledger align region size newSize =
        resizing.source.verdict environment machine.ledger align newSize := by
    cases resizing with
    | noOp | remapMayMove | remapKeepAddress => cases hfamily
    | heapOrAbort | heapOrFail => exact ⟨rfl, rfl, nofun, rfl⟩
  have hpaths : resize resizing region size newSize align diagnostics =
      if diagnostics.debugLayer then moveHeap resizing.source region size newSize align
      else resizeHeap resizing.source region size newSize align := by
    cases resizing with
    | noOp | remapMayMove | remapKeepAddress => cases hfamily
    | heapOrAbort | heapOrFail => rfl
  have hnothing {debugLayer : Bool} :
      False ↔ resizing = .remapMayMove ∧ debugLayer = true := by simp [hstale]
  rw [Source.verdict_heap hsource] at hverdict
  rw [hpaths]
  -- with the debug layer the block moves through a second one, and both are answered alike
  cases diagnostics.debugLayer with
  | true =>
    obtain ⟨result, after, hrun, hserves, hfresh⟩ :=
      moveHeap_serves h hsource newSize environment
    have hanswer := answer_moveHeap hsource h.spans.1 region newSize environment machine
    rw [hrun] at hanswer
    exact ⟨result, after, hrun, hserves.congr hnothing, hanswer.trans hverdict.symm,
      fun hstays => absurd (hstays ▸ hmoves) Bool.false_ne_true, fun _ _ => hfresh⟩
  | false =>
    obtain ⟨result, after, hrun, hserves⟩ := resizeHeap_serves h resizing.source newSize environment
    have hanswer := answer_resizeHeap hsource h.spans.1 region newSize environment machine
    rw [hrun] at hanswer
    exact ⟨result, after, hrun, hserves.congr hnothing, hanswer.trans hverdict.symm,
      fun hstays => absurd (hstays ▸ hmoves) Bool.false_ne_true, by simp⟩

/-- Resizing whole pages, with the debug layer or without it. -/
theorem resize_pages (h : region.Live machine .pages align size others) {resizing : Resizing}
    (hfamily : resizing.family? = some .pages) (newSize : Nat) (diagnostics : Diagnostics)
    (environment : Environment) :
    ∃ result after, resize resizing region size newSize align diagnostics environment machine =
        (result, after) ∧
      Resizes environment machine after .pages align size newSize region others resizing
        diagnostics.debugLayer result := by
  have hverdict := verdict_mapping hfamily environment machine.ledger align region size newSize
  rw [resize_mapping hfamily h.spans.2.2.2]
  cases hround : Size.roundToPages? newSize with
  | none =>
    rw [hround] at hverdict
    exact ⟨_, machine, rfl, .of_refused (.refl _), hverdict.symm, by simp, by simp⟩
  | some newLength =>
    rw [hround] at hverdict
    dsimp only at hverdict ⊢
    by_cases hzero : newLength = 0
    · rw [if_pos hzero] at hverdict ⊢
      exact ⟨_, machine, rfl, .of_refused (.refl _), hverdict.symm, by simp, by simp⟩
    rw [if_neg hzero] at hverdict ⊢
    have hsuits : Family.pages.Suits align newLength :=
      ⟨Size.dvd_of_roundToPages?_eq_some hround, Nat.pos_of_ne_zero hzero,
        Size.lt_limit_of_roundToPages?_eq_some hround⟩
    -- only a mapping that may move is moved by the debug layer
    by_cases hmoves : (resizing.mayMove && diagnostics.debugLayer) = true
    · obtain ⟨hmayMove, hdebug⟩ := Bool.and_eq_true_iff.1 hmoves
      have hstale : True ↔ resizing = .remapMayMove ∧ diagnostics.debugLayer = true := by
        cases resizing with
        | remapMayMove => simp [hdebug]
        | noOp | heapOrAbort | heapOrFail => cases hfamily
        | remapKeepAddress => cases hmayMove
      have hanswer : (moveMapping region region.memory.length newLength environment machine).1.map
          Region.length = Source.pageMap.answer environment machine.ledger align newSize :=
        answer_moveMapping hround hsuits.2.1 region region.memory.length environment machine
      rw [Source.answer_pages rfl hround] at hanswer
      obtain ⟨result, after, hrun, hserves, hfresh⟩ := moveMapping_serves h hsuits environment
      rw [hrun] at hanswer
      rw [if_pos hmoves]
      refine ⟨result, after, hrun, hserves.congr hstale, ?_, ?_, fun _ _ => hfresh⟩
      · rw [hverdict, hmayMove]
        exact hanswer
      · exact fun hstays => absurd (hstays.symm.trans hmayMove) Bool.false_ne_true
    · have hfresh : False ↔ resizing = .remapMayMove ∧ diagnostics.debugLayer = true := by
        refine ⟨False.elim, ?_⟩
        rintro ⟨rfl, hdebug⟩
        exact hmoves hdebug
      obtain ⟨result, after, hrun, hserves, hanswer, hstays⟩ :=
        resizeMapping_serves h hsuits resizing.mayMove environment
      rw [if_neg hmoves]
      exact ⟨result, after, hrun, hserves.congr hfresh, hanswer.trans hverdict.symm, hstays,
        fun hmayMove hdebug => absurd (Bool.and_eq_true_iff.2 ⟨hmayMove, hdebug⟩) hmoves⟩

/-- A live region is resized, or it is still there. -/
theorem resize_resizes (h : region.Live machine family align size others) {resizing : Resizing}
    (belongs : ∀ other ∈ resizing.family?, other = family) (newSize : Nat)
    (diagnostics : Diagnostics) (environment : Environment) :
    ∃ result after, resize resizing region size newSize align diagnostics environment machine =
        (result, after) ∧
      Resizes environment machine after family align size newSize region others resizing
        diagnostics.debugLayer result := by
  cases hfamily : resizing.family? with
  | none =>
    have hnoOp : resizing = .noOp := by
      cases resizing with
      | noOp => rfl
      | heapOrAbort | heapOrFail | remapMayMove | remapKeepAddress => cases hfamily
    exact hnoOp ▸ resize_noOp h newSize diagnostics environment
  | some other =>
    obtain rfl := belongs other hfamily
    cases other with
    | heap => exact resize_heap h hfamily newSize diagnostics environment
    | pages => exact resize_pages h hfamily newSize diagnostics environment

/-- What a request to move a region answers and leaves. -/
structure Relocates [Size.Paging] (environment : Environment) (before after : Machine)
    (family : Family)
    (align size newSize : Nat) (region : Region) (others : Ledger) (strategies : Strategies)
    (debugLayer : Bool) (result : Except Stop Region) : Prop where
  serves : Serves environment before after family align size region others
    (strategies.resizing = .remapMayMove ∧ debugLayer = true) result
  verdict : result.map Region.length =
    strategies.verdict environment before.ledger align debugLayer size newSize
  elsewhere : ∀ moved, result = .ok moved → moved.Elsewhere before.ledger

/-- Without the debug layer a relocation allocates, copies and releases. -/
theorem relocate_plain (h : region.Live machine family align size others)
    {strategies : Strategies} (moves : strategies.mayMove = true)
    (source : strategies.source.family = family) (disposal : strategies.disposal.family = family)
    (unmaps : environment.UnmapsLive) (newSize : Nat) (plain : diagnostics.debugLayer = false) :
    ∃ result after, relocate strategies region size newSize align diagnostics environment machine =
        (result, after) ∧
      Relocates environment machine after family align size newSize region others strategies false
        result := by
  have hpaths : relocate strategies region size newSize align diagnostics = (do
      let target ← allocate strategies.source newSize align
      let moved :=
        ofMemory target.address (region.copied (min size target.length) target.memory)
      release strategies.disposal region.address size align
      emit (.relocated size region.address moved.address)
      return moved) := by
    rw [relocate, if_neg (not_not_intro moves), if_neg (by simp [plain])]
  have hverdict := verdict_allocate strategies.source newSize align
    (fun hpages => by subst source; rw [hpages] at h; exact ⟨h.spans.2.1, h.spans.2.2.1⟩)
    environment machine
  have hanswer : strategies.verdict environment machine.ledger align false size newSize =
      strategies.source.verdict environment machine.ledger align newSize := by
    rw [Strategies.verdict, if_pos moves, if_neg Bool.false_ne_true]
  rw [← hanswer] at hverdict
  obtain ⟨result, middle, hrun, hobtains⟩ :=
    allocate_obtains h.holds.tidy strategies.source newSize align environment
  rw [hrun] at hverdict
  rw [hpaths]
  cases result with
  | error reason =>
    rw [bind_apply_error _ _ hrun]
    exact ⟨_, middle, rfl, .of_refused (hobtains.refused reason rfl), hverdict, by simp⟩
  | ok target =>
    obtain ⟨hwhole, hlive, hzeros⟩ := hobtains.granted target rfl
    rw [source] at hlive
    obtain ⟨after, hrelease, hbooks, hstrays⟩ := (h.beside hlive).release disposal unmaps
    have hsucceeds := Succeeds.copied (h.replaced hlive hbooks) region size
      (min size target.length)
      (Nat.le_of_eq (by rw [hwhole])) fun hpages => ⟨by
        rw [hzeros (Source.eq_pageMap (source.trans hpages))]
        rfl, Nat.le_trans (Nat.min_le_left ..) h.spans.le⟩
    rw [bind_apply_ok _ _ hrun, bind_apply_ok _ _ hrelease, bind_apply_ok _ _ (emit_apply ..)]
    refine ⟨_, _, rfl, .of_granted (by simp) (hstrays.trans hobtains.strays)
      (hsucceeds.congr (sameBooks_log ..)), ?_, ?_⟩
    · rw [← hverdict]
      exact congrArg Except.ok ((length_copied ..).trans hwhole)
    · rintro _ ⟨⟩
      exact elsewhere_copied hlive.elsewhere region (min size target.length)

/-- A live region is moved, or it is still there. -/
theorem relocate_relocates (h : region.Live machine family align size others)
    {strategies : Strategies} (consistent : strategies.IsConsistent)
    (source : strategies.source.family = family) (unmaps : environment.UnmapsLive) (newSize : Nat)
    (diagnostics : Diagnostics) :
    ∃ result after, relocate strategies region size newSize align diagnostics environment machine =
        (result, after) ∧
      Relocates environment machine after family align size newSize region others strategies
        diagnostics.debugLayer result := by
  obtain ⟨hdisposal, hresizing⟩ := consistent
  by_cases hmoves : strategies.mayMove = true
  · cases hdebug : diagnostics.debugLayer with
    | false => exact relocate_plain h hmoves source (hdisposal ▸ source) unmaps newSize hdebug
    | true =>
      obtain ⟨result, after, hrun, hserves, hverdict, -, hfresh⟩ := resize_resizes h
        (fun other hother => (hresizing other hother).trans source) newSize diagnostics environment
      rw [hdebug] at hserves hfresh
      -- under the debug layer every request to resize moves the region already
      have hsame : strategies.verdict environment machine.ledger align true size newSize =
          strategies.resizing.verdict environment machine.ledger align region size newSize := by
        rw [Strategies.verdict, if_pos hmoves, if_pos rfl, Resizing.verdict_moves hmoves]
      refine ⟨result, after, ?_, hserves, hverdict.trans hsame.symm, hfresh hmoves rfl⟩
      rw [relocate, if_neg (not_not_intro hmoves), if_pos hdebug]
      exact hrun
  · rw [relocate, if_pos hmoves]
    exact ⟨_, machine, rfl, .of_refused (.refl _), (if_neg hmoves).symm, by simp⟩

/-- Whoever asks for another size of a live region, by a way of resizing of its family, is told what
the sizes and the grants tell, with the debug layer and without it. The region that is then live in
place of this one holds the bytes that both have; if there is none, this one is still live. Whoever
wants the region moved finds it where nothing was live, unless it can never move, and is told the same
as one who resizes it, unless a refusal ends the process on one of the two ways. -/
theorem Live.resized_or_kept (h : region.Live machine family align size others)
    (unmaps : environment.UnmapsLive) (newSize : Nat) (diagnostics : Diagnostics) :
    (∀ resizing : Resizing, (∀ other ∈ resizing.family?, other = family) →
      ∃ result after, resize resizing region size newSize align diagnostics environment machine =
          (result, after) ∧
        Resizes environment machine after family align size newSize region others resizing
          diagnostics.debugLayer result ∧
        ∀ reason, result = .error reason → region.Live after family align size others) ∧
    ∀ strategies : Strategies, strategies.IsConsistent → strategies.source.family = family →
      ∃ result after, relocate strategies region size newSize align diagnostics environment machine =
          (result, after) ∧
        Relocates environment machine after family align size newSize region others strategies
          diagnostics.debugLayer result ∧
        (∀ reason, result = .error reason → region.Live after family align size others) ∧
        (strategies.mayMove = true →
          (∀ fault, result ≠ .error (.fault fault)) →
          (∀ fault, strategies.resizing.verdict environment machine.ledger align region size newSize ≠
            .error (.fault fault)) →
          result.map Region.length =
            strategies.resizing.verdict environment machine.ledger align region size newSize) := by
  refine ⟨fun resizing belongs => ?_, fun strategies consistent source => ?_⟩
  · obtain ⟨result, after, hrun, hresizes⟩ :=
      resize_resizes h belongs newSize diagnostics environment
    refine ⟨result, after, hrun, hresizes, fun reason hrefused => ?_⟩
    exact ⟨(hresizes.serves.refused reason hrefused).holds h.holds, h.spans⟩
  · obtain ⟨result, after, hrun, hrelocates⟩ :=
      relocate_relocates h consistent source unmaps newSize diagnostics
    refine ⟨result, after, hrun, hrelocates, fun reason hrefused => ?_,
      fun hmoves hgoes hresized => ?_⟩
    · exact ⟨(hrelocates.serves.refused reason hrefused).holds h.holds, h.spans⟩
    · rw [hrelocates.verdict]
      -- moving and resizing agree unless one of them ends the process
      refine verdict_relocate consistent hmoves _ hresized fun fault hfault => ?_
      rw [← hrelocates.verdict] at hfault
      cases result with
      | ok moved => cases hfault
      | error reason => exact hgoes fault (congrArg Except.error (Except.error.inj hfault))

end PagedAlloc.Region

namespace PagedAlloc.Region

open Procedure

attribute [local instance] Size.Paging.common

/-- A mapping that was asked for with 5000 bytes has three pages once it is resized to 9000 under the
debug layer, and stays as it is where it can never move. -/
theorem mapping_resized_or_kept :
    let kernel : Environment := { Environment.ordinary with grantsUnmap := fun _ _ _ => true }
    ∃ region machine, allocate .pageMap 5000 16 kernel .fresh = (.ok region, machine) ∧
      (∃ moved after, resize .remapMayMove region 5000 9000 16 ⟨true, false⟩ kernel machine =
          (.ok moved, after) ∧ moved.length = 12288 ∧ moved.Elsewhere machine.ledger ∧
        ∃ left, Leaves kernel region True left ∧
          Succeeds after .pages 16 5000 region moved (left ++ [])) ∧
      ∃ after, relocate .fixedPages region 5000 9000 16 ⟨true, false⟩ kernel machine =
          (.error (.failure (.cannotGrow 5000 9000)), after) ∧
        region.Live after .pages 16 5000 [] := by
  intro kernel
  have unmaps : kernel.UnmapsLive := fun _ _ _ _ => rfl
  obtain ⟨result, machine, hrun, hobtains⟩ :=
    allocate_obtains (show Machine.fresh.Tidy from nofun) .pageMap 5000 16 kernel
  obtain ⟨region, rfl⟩ : ∃ region, result = .ok region := ⟨_, (congrArg Prod.fst hrun).symm⟩
  obtain ⟨-, hlive, -⟩ := hobtains.granted region rfl
  obtain ⟨hresized, hmoved⟩ := hlive.resized_or_kept unmaps 9000 ⟨true, false⟩
  refine ⟨region, machine, hrun, ?_, ?_⟩
  · obtain ⟨result, after, hresize, hresizes, -⟩ := hresized .remapMayMove fun _ h => by
      cases h
      rfl
    have hverdict : result.map Region.length = .ok 12288 := by
      have hledger : machine.ledger = [⟨65536, 8192, .pages false⟩] :=
        (congrArg (·.2.ledger) hrun).symm
      rw [hresizes.verdict, hledger]
      rfl
    cases result with
    | error reason => cases hverdict
    | ok moved =>
      obtain ⟨left, hleft, hsucceeds⟩ := hresizes.serves.granted moved rfl
      refine ⟨moved, after, hresize, Except.ok.inj hverdict, hresizes.moves rfl rfl moved rfl, left,
        ?_, hsucceeds⟩
      rwa [eq_true (⟨rfl, rfl⟩ : _ ∧ _)] at hleft
  · obtain ⟨result, after, hrelocate, hrelocates, hkept, -⟩ :=
      hmoved .fixedPages (by decide) rfl
    have hverdict := hrelocates.verdict
    cases result with
    | ok moved => cases hverdict
    | error reason =>
      obtain rfl : reason = .failure (.cannotGrow 5000 9000) := Except.error.inj hverdict
      exact ⟨after, hrelocate, hkept _ rfl⟩

/-- Strategies may mix requests that end the process with others that only fail. What is refused then
ends the process on one of the two ways to another size, and fails on the other. -/
theorem relocated_unlike_resized :
    let relocating : Strategies := ⟨.heapOrFail, .heapOrAbort, .heapFree⟩
    let resizing : Strategies := ⟨.heapOrAbort, .heapOrFail, .heapFree⟩
    let refusal : Except Stop Nat := .error (.failure (.outOfMemory (1 <<< 60)))
    let abort : Except Stop Nat := .error (.fault (.aborted (1 <<< 60)))
    ∃ region machine, allocate .heapOrFail 64 16 .ordinary .fresh = (.ok region, machine) ∧
      region.Live machine .heap 16 64 [] ∧
      let moved (strategies : Strategies) : Except Stop Nat :=
        (relocate strategies region 64 (1 <<< 60) 16 .off .ordinary machine).1.map Region.length
      let resized (strategies : Strategies) : Except Stop Nat :=
        (resize strategies.resizing region 64 (1 <<< 60) 16 .off .ordinary machine).1.map
          Region.length
      relocating.IsConsistent ∧ relocating.mayMove = true ∧ moved relocating = refusal ∧
        resized relocating = abort ∧
      resizing.IsConsistent ∧ resizing.mayMove = true ∧ moved resizing = abort ∧
        resized resizing = refusal := by
  obtain ⟨result, machine, hrun, hobtains⟩ :=
    allocate_obtains (show Machine.fresh.Tidy from nofun) .heapOrFail 64 16 .ordinary
  obtain ⟨region, rfl⟩ : ∃ region, result = .ok region := ⟨_, (congrArg Prod.fst hrun).symm⟩
  obtain ⟨-, hlive, -⟩ := hobtains.granted region rfl
  refine ⟨region, machine, hrun, hlive, ?_⟩
  cases hrun
  decide +kernel

end PagedAlloc.Region
