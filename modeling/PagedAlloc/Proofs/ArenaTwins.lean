import PagedAlloc.Proofs.ArenaRequests

/-!
# Twins

Two arenas are twins if a caller who does not look at addresses cannot tell them apart: they have
the same length, capacity, strategies and build, and hold the same bytes in use. Their diagnostic
switches may differ. Where the kernel and the heap decide about a request by its size alone
(`Environment.BySize`), every procedure of the arena gives the same result on twins and leaves twins
behind: whichever way a buffer moves, its owner is told what a fresh request would be told
(`Arena.Twins.makeRoom`).
-/

namespace PagedAlloc

variable {paging : Size.Paging}

/-- The kernel and the heap decide about a request by its size alone, and the kernel takes pages
back that are of a length that it grants. -/
structure Environment.BySize (environment : Environment) : Prop where
  pages : ∀ (ledger ledger' : Ledger) (length : Nat),
    environment.grantsPages ledger length = environment.grantsPages ledger' length
  heap : ∀ (ledger ledger' : Ledger) (size align : Nat),
    environment.grantsHeap ledger size align = environment.grantsHeap ledger' size align
  unmap : ∀ (ledger ledger' : Ledger) (address length : Nat),
    environment.grantsPages ledger length = true →
      environment.grantsUnmap ledger' address length = true

/-- No refusal ends the process. -/
structure Strategies.Quiet (strategies : Strategies) : Prop where
  source : strategies.source.aborts = false
  resizing : strategies.resizing.source.aborts = false

open Procedure

section Answers

variable {environment : Environment} {source other : Source} {size length align : Nat}

/-- Sources of one family that do not abort answer the same, whatever else is live. -/
theorem Source.answer_congr (hsize : environment.BySize) (family : source.family = other.family)
    (aborts : source.aborts = other.aborts) (ledger ledger' : Ledger) (align size : Nat) :
    source.answer environment ledger align size = other.answer environment ledger' align size := by
  simp only [Source.answer, family, aborts, hsize.heap ledger ledger', hsize.pages ledger ledger']

/-- What was answered once would be answered again. -/
theorem Source.answer_idem {ledger : Ledger}
    (h : source.answer environment ledger align size = .ok length) :
    source.answer environment ledger align length = .ok length := by
  cases hfamily : source.family with
  | heap =>
    have hcopy := h
    simp only [Source.answer, hfamily] at hcopy
    split at hcopy
    · split at hcopy
      · obtain rfl := Except.ok.inj hcopy
        exact h
      · cases hcopy
    · cases hcopy
  | pages =>
    cases hround : Size.roundToPages? size with
    | none =>
      simp only [Source.answer, hfamily, hround] at h
      cases h
    | some rounded =>
      rw [Source.answer_pages hfamily hround] at h
      split at h
      · rename_i hgrant
        obtain rfl := Except.ok.inj h
        -- the length that was granted is whole pages, which are rounded to themselves
        have hself := Size.roundToPages?_eq_self (Size.dvd_of_roundToPages?_eq_some hround)
          (Size.lt_limit_of_roundToPages?_eq_some hround)
        rw [Source.answer_pages hfamily hself, if_pos hgrant]
      · cases h

/-- Pages whose length was answered are granted. -/
theorem Source.grants_of_answer {ledger : Ledger} (hfamily : source.family = .pages)
    (h : source.answer environment ledger align size = .ok length) :
    environment.grantsPages ledger length = true := by
  cases hround : Size.roundToPages? size with
  | none =>
    simp only [Source.answer, hfamily, hround] at h
    cases h
  | some rounded =>
    rw [Source.answer_pages hfamily hround] at h
    split at h
    · rename_i hgrant
      exact Except.ok.inj h ▸ hgrant
    · cases h

end Answers

/-! ## Regions that stay -/

namespace Pages

/-- The books after a request to resize a mapping where it is. -/
def booksAfter (environment : Environment) (ledger : Ledger) (address old new : Nat) : Ledger :=
  if growsHere environment ledger address old new then
    ⟨address, new, ((ledger.pages? address old).map Holding.origin).getD (.pages false)⟩ ::
      ledger.withoutPages address (address + old)
  else ledger

/-- Whether a mapping of whole pages that stays is resized, and what the books are then, depends on
the books before. -/
theorem remap_stays {old new : Nat} (hold : Size.pageSize ∣ old) (hnew : Size.pageSize ∣ new)
    (address : Nat) (environment : Environment) (machine : Machine) :
    ∃ machine', remap address old new false environment machine =
        (.ok (if growsHere environment machine.ledger address old new then some address else none),
          machine') ∧
      machine'.ledger = booksAfter environment machine.ledger address old new := by
  have hwhole : old % Size.pageSize = 0 ∧ new % Size.pageSize = 0 :=
    ⟨Nat.mod_eq_zero_of_dvd hold, Nat.mod_eq_zero_of_dvd hnew⟩
  rw [remap, bind_apply_ok _ _ (ensure_apply _ hwhole _ _),
    bind_apply_ok _ _ (environment_apply ..), bind_apply_ok _ _ (get_apply ..),
    bind_apply_ok _ _ (Machine.countStray_apply ..)]
  simp only [Bool.or_false, booksAfter]
  by_cases hgrant : growsHere environment machine.ledger address old new = true
  · have hserved := hgrant
    rw [growsHere] at hserved
    have hstays := (Bool.and_eq_true_iff.1 hserved).2
    rw [if_pos hserved, if_pos hgrant, if_pos hgrant, if_pos hstays]
    exact ⟨_, rfl, rfl⟩
  · have hrefused := hgrant
    rw [growsHere] at hrefused
    rw [if_neg hrefused, if_neg hgrant, if_neg hgrant]
    exact ⟨_, rfl, rfl⟩

end Pages

namespace Region

/-- What the owner of a region sees of it who does not look at the contents. -/
def place (region : Region) : Nat × Nat := (region.address, region.length)

variable {environment : Environment} {resizing : Resizing}

/-- A mapping that may not move is resized by the kernel alone, where it is. -/
theorem resizeMapping_stays {length newLength : Nat} (hold : Size.pageSize ∣ length)
    (hnew : Size.pageSize ∣ newLength) (region : Region) (environment : Environment)
    (machine : Machine) :
    let run := resizeMapping region length newLength false environment machine
    run.1.map place =
        (if Pages.growsHere environment machine.ledger region.address length newLength then
          .ok (region.address, newLength)
        else .error (.failure (.cannotGrow length newLength))) ∧
      run.2.ledger =
        Pages.booksAfter environment machine.ledger region.address length newLength := by
  obtain ⟨machine', hrun, hbooks⟩ :=
    Pages.remap_stays hold hnew region.address environment machine
  rw [resizeMapping, bind_apply_ok _ _ hrun]
  split
  · exact ⟨congrArg (fun found => Except.ok (region.address, found)) (Memory.length_resized ..),
      hbooks⟩
  · exact ⟨rfl, hbooks⟩

/-- How a region of this address that stays is resized under these books: what its owner is told,
and what the books are then. A length that is gained has been granted. -/
structure Stays [Size.Paging] (environment : Environment) (ledger : Ledger) (resizing : Resizing)
    (address size newSize align : Nat) (answer : Except Stop (Nat × Nat)) (books : Ledger) :
    Prop where
  gained : ∀ found length, answer = .ok (found, length) → length = size ∨
    resizing.family? = some .pages ∧
      Source.pageMap.answer environment ledger align length = .ok length
  run : ∀ (region : Region) (machine : Machine) (diagnostics : Diagnostics),
    region.address = address → machine.ledger = ledger →
      let run := resize resizing region size newSize align diagnostics environment machine
      run.1.map place = answer ∧ run.2.ledger = books

variable {ledger : Ledger} {address size newSize align length newLength : Nat}

/-- A request that fails leaves the books alone. -/
theorem Stays.of_failure {failure : Failure}
    (h : ∀ (region : Region) (machine : Machine) (diagnostics : Diagnostics),
      resize resizing region size newSize align diagnostics environment machine =
        (.error (.failure failure), machine)) :
    Stays environment ledger resizing address size newSize align (.error (.failure failure))
      ledger := by
  refine ⟨nofun, fun region machine diagnostics _ hledger => ?_⟩
  rw [h region machine diagnostics]
  exact ⟨rfl, hledger⟩

/-- A mapping that keeps its address is remapped, if its lengths can be rounded to pages. -/
theorem resize_keepAddress (hsize : Size.roundToPages? size = some length)
    (hround : Size.roundToPages? newSize = some newLength) (region : Region) (align : Nat)
    (diagnostics : Diagnostics) (environment : Environment) (machine : Machine) :
    resize .remapKeepAddress region size newSize align diagnostics environment machine =
      if newLength = 0 then (.error (.failure (.invalidLayout newSize align)), machine)
      else resizeMapping region length newLength false environment machine := by
  have hstays : ¬ (Resizing.remapKeepAddress.mayMove && diagnostics.debugLayer &&
      newLength ≠ 0) = true := Bool.false_ne_true
  unfold resize
  dsimp only
  rw [hsize, hround, bind_apply_ok _ _ (orFail_some ..), bind_apply_ok _ _ (orFail_some ..),
    if_neg hstays]
  split <;> rfl

/-- Pages that stay are resized as the kernel decides, once both lengths are known. -/
theorem stays_keepAddress (hsize : Size.roundToPages? size = some length)
    (hround : Size.roundToPages? newSize = some newLength) (hpositive : ¬ newLength = 0)
    (environment : Environment) (ledger : Ledger) (address align : Nat) :
    Stays environment ledger .remapKeepAddress address size newSize align
      (if Pages.growsHere environment ledger address length newLength then
        .ok (address, newLength)
      else .error (.failure (.cannotGrow length newLength)))
      (Pages.booksAfter environment ledger address length newLength) := by
  have hnew := Size.dvd_of_roundToPages?_eq_some hround
  refine ⟨?_, ?_⟩
  · intro found other hanswer
    split at hanswer
    · rename_i hgrant
      cases hanswer
      have hself := Size.roundToPages?_eq_self hnew (Size.lt_limit_of_roundToPages?_eq_some hround)
      rw [Source.answer_pages rfl hself, if_pos (Bool.and_eq_true_iff.1 hgrant).1]
      exact Or.inr ⟨rfl, rfl⟩
    · cases hanswer
  · rintro region machine diagnostics rfl rfl
    simp only [resize_keepAddress hsize hround, if_neg hpositive]
    exact resizeMapping_stays (Size.dvd_of_roundToPages?_eq_some hsize) hnew region environment
      machine

/-- How a region that stays is resized, and what the books are then, depends on the books before. -/
theorem resize_stays (stays : resizing.mayMove = false) (address size newSize align : Nat)
    (environment : Environment) (ledger : Ledger) :
    ∃ answer books,
      Stays environment ledger resizing address size newSize align answer books := by
  -- only two kinds keep the address: nothing is done, or the kernel resizes in place
  cases resizing with
  | heapOrAbort | heapOrFail | remapMayMove => cases stays
  | noOp =>
    by_cases hle : newSize ≤ size
    · refine ⟨.ok (address, size), ledger, ?_, ?_⟩
      · rintro found length ⟨⟩
        exact Or.inl rfl
      · rintro region machine diagnostics rfl rfl
        unfold resize
        dsimp only
        rw [if_pos hle]
        exact ⟨rfl, rfl⟩
    · refine ⟨.error (.failure (.cannotGrow size newSize)), ledger,
        .of_failure fun region machine _ => ?_⟩
      unfold resize
      dsimp only
      rw [if_neg hle]
      rfl
  | remapKeepAddress =>
    cases hsize : Size.roundToPages? size with
    | none =>
      refine ⟨.error (.failure .overflow), ledger, .of_failure fun region machine _ => ?_⟩
      unfold resize
      dsimp only
      rw [hsize, bind_apply_error _ _ (orFail_none ..)]
    | some length =>
      cases hround : Size.roundToPages? newSize with
      | none =>
        refine ⟨.error (.failure .overflow), ledger, .of_failure fun region machine _ => ?_⟩
        unfold resize
        dsimp only
        rw [hsize, hround, bind_apply_ok _ _ (orFail_some ..),
          bind_apply_error _ _ (orFail_none ..)]
      | some newLength =>
        by_cases hzero : newLength = 0
        · refine ⟨.error (.failure (.invalidLayout newSize align)), ledger,
            .of_failure fun region machine diagnostics => ?_⟩
          rw [resize_keepAddress hsize hround, if_pos hzero]
        · exact ⟨_, _, stays_keepAddress hsize hround hzero environment ledger address align⟩

end Region

namespace Arena

/-- A well-formed arena whose strategies belong to one family and never end the process, and for
whose capacity a fresh request would be granted. -/
structure Funded [Size.Paging] (environment : Environment) (arena : Arena) : Prop where
  wellFormed : arena.WellFormed
  consistent : arena.strategies.IsConsistent
  quiet : arena.strategies.Quiet
  granted :
    arena.strategies.source.answer environment [] alignment arena.capacity = .ok arena.capacity

/-- What a caller finds who does not look at addresses is the same in both states. An arena that
may not move is at the same address, and the machines have the same books. -/
structure Twins [Size.Paging] (environment : Environment) (state state' : Machine × Arena) : Prop
    extends Funded environment state.2 where
  whole : state'.2.region.Whole
  strategies : state'.2.strategies = state.2.strategies
  length : state'.2.length = state.2.length
  capacity : state'.2.capacity = state.2.capacity
  build : state'.2.build = state.2.build
  cells : ∀ offset < state.2.length,
    state'.2.region.memory.cell offset = state.2.region.memory.cell offset
  fixed : state.2.strategies.mayMove = false →
    state'.1.ledger = state.1.ledger ∧ state'.2.region.address = state.2.region.address

/-- Two runs have the same result and leave twins behind. -/
structure Agree [Size.Paging] {α : Type} (environment : Environment)
    (run run' : Except Stop α × Machine × Arena) : Prop where
  result : run'.1 = run.1
  twins : Twins environment run.2 run'.2

variable {environment : Environment} {machine machine' : Machine} {arena arena' : Arena}
  {region region' : Region} {capacity : Nat} {state state' : Machine × Arena} {α β : Type}

/-! ## Buffers -/

/-- The capacity of an arena under its strategies is backed. -/
theorem Funded.backed (h : Funded environment arena) : arena.Backed :=
  ⟨h.consistent, Source.suits_of_answer (h.wellFormed.positive h.wellFormed.fits) h.granted⟩

/-- The kernel takes back the pages of an arena, which it has granted. -/
theorem Funded.unmaps (h : Funded environment arena) (hsize : environment.BySize)
    (unmaps : arena.strategies.disposal = .pageUnmap) (ledger : Ledger) (address : Nat) :
    environment.grantsUnmap ledger address arena.capacity = true := by
  have hpages : arena.strategies.source.family = .pages := by
    rw [h.consistent.1, unmaps]
    rfl
  exact hsize.unmap [] ledger address _ (Source.grants_of_answer hpages h.granted)

/-- A buffer that may move is resized from a source that answers as its own source does. -/
theorem Funded.answer_resizing (h : Funded environment arena) (hsize : environment.BySize)
    (moves : arena.strategies.mayMove = true) (ledger : Ledger) (capacity : Nat) :
    arena.strategies.resizing.source.answer environment ledger alignment capacity =
      arena.strategies.source.answer environment [] alignment capacity :=
  Source.answer_congr hsize (h.backed.family_resizing moves)
    (h.quiet.resizing.trans h.quiet.source.symm) ..

/-- A buffer that may move is resized as a fresh request would be answered. -/
theorem Funded.resize (h : Funded environment arena) (hsize : environment.BySize)
    (moves : arena.strategies.mayMove = true) (positive : 0 < capacity) (machine : Machine) :
    (Region.resize arena.strategies.resizing arena.region arena.capacity capacity alignment
        arena.diagnostics environment machine).1.map Region.length =
      arena.strategies.source.answer environment [] alignment capacity := by
  rw [h.backed.answer_resize moves positive]
  exact h.answer_resizing hsize moves ..

/-- What the request of an arena for a capacity is answered if its buffer may move: the same as a
fresh request. -/
theorem Funded.request (h : Funded environment arena) (hsize : environment.BySize)
    (moves : arena.strategies.mayMove = true) (positive : 0 < capacity) (machine : Machine) :
    (arena.request capacity environment machine).1.map Region.length =
      arena.strategies.source.answer environment [] alignment capacity := by
  obtain ⟨result, machine', hrun, hcases⟩ :=
    h.backed.answer_request moves positive environment machine
  rw [hrun]
  rcases hcases with hanswer | hanswer | ⟨address, ledger, rfl, hdisposal, hrefused⟩
  · exact hanswer.trans (Source.answer_congr hsize rfl rfl ..)
  · exact hanswer.trans (h.answer_resizing hsize moves ..)
  · rw [h.unmaps hsize hdisposal] at hrefused
    cases hrefused

/-- The buffer that an arena gets when it wants some capacity: the present one, if that is enough
and need not move, or else another one. -/
def serve [Size.Paging] (arena : Arena) (capacity : Nat) : Procedure Machine Region :=
  if capacity = arena.capacity ∧
      ¬ (arena.diagnostics.forceRelocation && arena.strategies.mayMove) = true then
    pure arena.region
  else arena.request capacity

/-- What an arena whose buffer may move is told when it wants some capacity: the same as a fresh
request. -/
theorem Funded.serve (h : Funded environment arena) (hsize : environment.BySize)
    (moves : arena.strategies.mayMove = true) (positive : 0 < capacity) (machine : Machine) :
    (arena.serve capacity environment machine).1.map Region.length =
      arena.strategies.source.answer environment [] alignment capacity := by
  rw [Arena.serve]
  split
  · rename_i hsame
    rw [hsame.1]
    exact h.granted.symm
  · exact h.request hsize moves positive machine

/-- Taking another buffer over is no request. -/
theorem replaceBuffer_ledger (region : Region) (environment : Environment) (machine : Machine)
    (arena : Arena) :
    (replaceBuffer region environment (machine, arena)).2.1.ledger = machine.ledger := by
  rw [replaceBuffer, bind_apply_ok _ _ (own_apply ..)]
  split <;> rfl

/-- Making room is taking the buffer of the capacity that the arena wants. -/
theorem makeRoom_serve (additional : Nat) (environment : Environment) (machine : Machine)
    (arena : Arena) :
    makeRoom additional environment (machine, arena) =
      match (Size.add? arena.length additional).bind arena.wanted? with
      | none => (.error (.failure .overflow), machine, arena)
      | some capacity => adopt (arena.serve capacity) environment (machine, arena) := by
  -- an arena that needs nothing adopts the region that it has
  have hsame : adopt (pure arena.region) environment (machine, arena) =
      (.ok (), machine, arena) := by
    rw [adopt, bind_apply_ok _ _ (ask_apply _ (pure_apply ..) _), replaceBuffer,
      bind_apply_ok _ _ (own_apply ..), if_neg (Ne.irrefl ·)]
    rfl
  rw [makeRoom_eq]
  cases Size.add? arena.length additional with
  | none => rfl
  | some needed =>
    simp only [Option.bind_some]
    by_cases hfits : needed ≤ arena.capacity
    · have hwanted : arena.wanted? needed = some arena.capacity := by
        rw [wanted?, if_pos hfits]
      simp only [hwanted, hfits, true_and, serve]
      split
      · exact hsame.symm
      · rfl
    · rw [if_neg fun h => hfits h.1]
      cases hwanted : arena.wanted? needed with
      | none => rfl
      | some capacity =>
        have hle := le_of_wanted?_eq_some hwanted
        have hmore : ¬ (capacity = arena.capacity ∧
            ¬ (arena.diagnostics.forceRelocation && arena.strategies.mayMove) = true) := by
          rintro ⟨rfl, -⟩
          exact hfits hle
        simp only [serve, if_neg hmore]

/-- What is wanted depends on the capacity alone. -/
theorem wanted?_congr (h : arena'.capacity = arena.capacity) : arena'.wanted? = arena.wanted? := by
  funext needed
  rw [wanted?, wanted?, h]

/-- What makes room for more holds what is in use. -/
theorem le_of_makeRoom_wanted {additional : Nat}
    (h : (Size.add? arena.length additional).bind arena.wanted? = some capacity) :
    arena.length ≤ capacity := by
  obtain ⟨needed, hsum, hwants⟩ := Option.bind_eq_some_iff.1 h
  refine Nat.le_trans ?_ (le_of_wanted?_eq_some hwants)
  rw [Size.add?] at hsum
  split at hsum
  · obtain rfl := Option.some.inj hsum
    exact Nat.le_add_right ..
  · cases hsum

theorem yields_serve [Size.Paging] (h : arena.WellFormed) (capacity : Nat) :
    Yields (arena.serve capacity) (arena.region.Replaces arena.capacity capacity) := by
  rw [serve]
  split
  · rename_i hsame
    exact Yields.pure ⟨h.whole, Nat.le_of_eq hsame.1, fun _ _ _ => rfl⟩
  · rw [request]
    split
    · exact Region.yields_relocate _ h.whole rfl ..
    · exact Region.yields_resize _ h.whole rfl ..

/-! ## Twins with other buffers -/

theorem Twins.symm (h : Twins environment state state') : Twins environment state' state where
  wellFormed := by
    refine ⟨h.whole, h.length ▸ h.wellFormed.reserved, ?_, ?_⟩
    · rw [h.length, h.capacity]
      exact h.wellFormed.fits
    · rw [h.build, h.length]
      exact h.wellFormed.started
  whole := h.wellFormed.whole
  consistent := h.strategies ▸ h.consistent
  quiet := h.strategies ▸ h.quiet
  granted := by
    rw [h.strategies, h.capacity]
    exact h.granted
  strategies := h.strategies.symm
  length := h.length.symm
  capacity := h.capacity.symm
  build := h.build.symm
  cells offset hlt := (h.cells offset (h.length ▸ hlt)).symm
  fixed stays :=
    have hsame := h.fixed (h.strategies ▸ stays)
    ⟨hsame.1.symm, hsame.2.symm⟩

/-- Twins that are answered alike when they ask for another buffer stay twins. -/
theorem Twins.adopt (h : Twins environment (machine, arena) (machine', arena'))
    {request request' : Procedure Machine Region} (hroom : arena.length ≤ capacity)
    (hyields : Yields request (arena.region.Replaces arena.capacity capacity))
    (hyields' : Yields request' (arena'.region.Replaces arena'.capacity capacity))
    (hanswer : (request' environment machine').1.map Region.length =
      (request environment machine).1.map Region.length)
    (hfunded : ∀ length, (request environment machine).1.map Region.length = .ok length →
      arena.strategies.source.answer environment [] alignment length = .ok length)
    (hfixed : arena.strategies.mayMove = false →
      (request' environment machine').1.map Region.place =
          (request environment machine).1.map Region.place ∧
        (request' environment machine').2.ledger = (request environment machine).2.ledger) :
    Agree environment (Arena.adopt request environment (machine, arena))
      (Arena.adopt request' environment (machine', arena')) := by
  cases hrun : request environment machine with
  | mk result middle =>
    cases hrun' : request' environment machine' with
    | mk result' middle' =>
      rw [hrun, hrun'] at hanswer hfixed
      rw [hrun] at hfunded
      -- both are refused or both get a buffer, since the answers are the same
      cases result with
      | error reason =>
        cases result' with
        | ok region' => cases hanswer
        | error reason' =>
          obtain rfl := Except.error.inj hanswer
          rw [adopt_error hrun, adopt_error hrun']
          exact ⟨rfl, h.toFunded, h.whole, h.strategies, h.length, h.capacity, h.build, h.cells,
            fun stays => ⟨(hfixed stays).2, (h.fixed stays).2⟩⟩
      | ok region =>
        cases result' with
        | error reason' => cases hanswer
        | ok region' =>
          have hlength : region'.length = region.length := Except.ok.inj hanswer
          have hreplaces := hyields.holds hrun
          have hreplaces' := hyields'.holds hrun'
          obtain ⟨hformed, hextends⟩ := h.wellFormed.replace hreplaces hroom
          have hroom' : arena'.length ≤ capacity := h.length ▸ hroom
          obtain ⟨hformed', hextends'⟩ := h.symm.wellFormed.replace hreplaces' hroom'
          rw [Arena.adopt, Arena.adopt, bind_apply_ok _ _ (ask_apply _ hrun _),
            bind_apply_ok _ _ (ask_apply _ hrun' _)]
          have hbooks := replaceBuffer_ledger region environment middle arena
          have hbooks' := replaceBuffer_ledger region' environment middle' arena'
          obtain ⟨after, hreplace⟩ := replaceBuffer_apply region environment middle arena
          obtain ⟨after', hreplace'⟩ := replaceBuffer_apply region' environment middle' arena'
          rw [hreplace] at hbooks ⊢
          rw [hreplace'] at hbooks' ⊢
          refine ⟨rfl, ⟨hformed, h.consistent, h.quiet, hfunded _ rfl⟩, hformed'.whole,
            h.strategies, h.length, hlength, h.build, ?_, ?_⟩
          · intro offset hlt
            have hlt' : offset < arena'.length := h.length ▸ hlt
            exact (hextends'.cells offset hlt').trans
              ((h.cells offset hlt).trans (hextends.cells offset hlt).symm)
          · intro stays
            obtain ⟨hplace, hledger⟩ := hfixed stays
            exact ⟨hbooks'.trans (hledger.trans hbooks.symm),
              congrArg Prod.fst (Except.ok.inj hplace)⟩

/-- Twins that may move and are answered as a fresh request would be stay twins. -/
theorem Twins.adopt_moving (h : Twins environment (machine, arena) (machine', arena'))
    (moves : arena.strategies.mayMove = true) {request request' : Procedure Machine Region}
    (hroom : arena.length ≤ capacity)
    (hyields : Yields request (arena.region.Replaces arena.capacity capacity))
    (hyields' : Yields request' (arena'.region.Replaces arena'.capacity capacity))
    (hanswer : (request environment machine).1.map Region.length =
      arena.strategies.source.answer environment [] alignment capacity)
    (hanswer' : (request' environment machine').1.map Region.length =
      arena'.strategies.source.answer environment [] alignment capacity) :
    Agree environment (Arena.adopt request environment (machine, arena))
      (Arena.adopt request' environment (machine', arena')) := by
  have hstrategies : arena'.strategies = arena.strategies := h.strategies
  refine h.adopt hroom hyields hyields' ?_ ?_ (by simp [moves])
  · rw [hanswer, hanswer', hstrategies]
  · intro length hlength
    exact Source.answer_idem (hanswer ▸ hlength)

/-- The buffer of an arena that may not move is the present one, or is resized where it is. -/
theorem serve_of_stays [Size.Paging] (stays : arena.strategies.mayMove = false) (capacity : Nat) :
    arena.serve capacity =
      if capacity = arena.capacity then pure arena.region
      else Region.resize arena.strategies.resizing arena.region arena.capacity capacity alignment
        arena.diagnostics := by
  simp only [serve, request, stays, Bool.and_false, Bool.false_eq_true, not_false_eq_true, and_true,
    if_false]

/-- Twins that may not move are served from the same books at the same address. -/
theorem Twins.serve_staying (h : Twins environment (machine, arena) (machine', arena'))
    (stays : arena.strategies.mayMove = false) (hsize : environment.BySize)
    (hroom : arena.length ≤ capacity) :
    Agree environment (Arena.adopt (arena.serve capacity) environment (machine, arena))
      (Arena.adopt (arena'.serve capacity) environment (machine', arena')) := by
  have hstrategies : arena'.strategies = arena.strategies := h.strategies
  have hcapacity : arena'.capacity = arena.capacity := h.capacity
  have hgranted : arena.strategies.source.answer environment [] alignment arena.capacity =
    .ok arena.capacity := h.granted
  have hyields := yields_serve h.wellFormed capacity
  have hyields' := yields_serve h.symm.wellFormed capacity
  obtain ⟨hledger, haddress⟩ := h.fixed stays
  have hserve := serve_of_stays stays capacity
  have hserve' := serve_of_stays (hstrategies ▸ stays) capacity
  rw [hcapacity] at hserve'
  by_cases hsame : capacity = arena.capacity
  · rw [if_pos hsame] at hserve hserve'
    have hplace : arena'.region.place = arena.region.place := by
      rw [Region.place, haddress]
      exact congrArg (arena.region.address, ·) hcapacity
    refine h.adopt hroom hyields hyields' ?_ ?_ fun _ => ?_
    · rw [hserve, hserve']
      exact congrArg Except.ok hcapacity
    · rw [hserve]
      rintro length ⟨⟩
      exact hgranted
    · rw [hserve, hserve']
      exact ⟨congrArg Except.ok hplace, hledger⟩
  · rw [if_neg hsame] at hserve hserve'
    obtain ⟨answer, books, hgained, hrun⟩ := Region.resize_stays stays arena.region.address
      arena.capacity capacity alignment environment machine.ledger
    obtain ⟨hplace, hbooks⟩ := hrun arena.region machine arena.diagnostics rfl rfl
    obtain ⟨hplace', hbooks'⟩ := hrun arena'.region machine' arena'.diagnostics haddress hledger
    rw [← hserve] at hplace hbooks
    rw [← hstrategies, ← hserve'] at hplace' hbooks'
    have hlengths : ∀ result : Except Stop Region,
        result.map Region.length = (result.map Region.place).map Prod.snd := by
      intro result
      cases result <;> rfl
    refine h.adopt hroom hyields hyields' ?_ ?_ fun _ =>
      ⟨hplace'.trans hplace.symm, hbooks'.trans hbooks.symm⟩
    · rw [hlengths, hlengths, hplace, hplace']
    · intro length hlength
      rw [hlengths, hplace] at hlength
      cases answer with
      | error reason => cases hlength
      | ok found =>
        obtain ⟨address, gained⟩ := found
        obtain rfl := Except.ok.inj hlength
        -- a length that was not gained is the one that the arena had
        rcases hgained address gained rfl with rfl | ⟨hpages, hanswer⟩
        · exact hgranted
        · have hfamily := h.consistent.2 _ hpages
          rw [← hanswer]
          exact Source.answer_congr hsize hfamily.symm h.quiet.source ..

/-- Twins are served alike, whether their buffers may move or not. -/
theorem Twins.serve (h : Twins environment (machine, arena) (machine', arena'))
    (hsize : environment.BySize) (hroom : arena.length ≤ capacity) :
    Agree environment (Arena.adopt (arena.serve capacity) environment (machine, arena))
      (Arena.adopt (arena'.serve capacity) environment (machine', arena')) := by
  have hpositive := h.wellFormed.positive hroom
  cases hmoves : arena.strategies.mayMove with
  | true =>
    have hmoves' : arena'.strategies.mayMove = true := h.strategies ▸ hmoves
    exact h.adopt_moving hmoves hroom (yields_serve h.wellFormed _)
      (yields_serve h.symm.wellFormed _) (h.toFunded.serve hsize hmoves hpositive machine)
      (h.symm.toFunded.serve hsize hmoves' hpositive machine')
  | false => exact h.serve_staying hmoves hsize hroom

/-- Twins make room alike. -/
theorem Twins.makeRoom (h : Twins environment state state') (hsize : environment.BySize)
    (additional : Nat) :
    Agree environment (Arena.makeRoom additional environment state)
      (Arena.makeRoom additional environment state') := by
  obtain ⟨machine, arena⟩ := state
  obtain ⟨machine', arena'⟩ := state'
  have hlength : arena'.length = arena.length := h.length
  rw [makeRoom_serve, makeRoom_serve, hlength, wanted?_congr h.capacity]
  cases hneeded : (Size.add? arena.length additional).bind arena.wanted? with
  | none => exact ⟨rfl, h⟩
  | some capacity =>
    exact h.serve hsize (le_of_makeRoom_wanted hneeded)

end Arena

end PagedAlloc
