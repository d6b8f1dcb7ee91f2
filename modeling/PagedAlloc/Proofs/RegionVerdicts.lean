import PagedAlloc.Proofs.RegionAnswers

/-!
# Verdicts on regions

What the owner of a region is told who wants another size or another place for it, as a function of
the sizes, the strategy and what the kernel or the heap grants. The debug layer has no part in it,
other than that it moves a region as it is resized (`Strategies.verdict`), and this makes a
difference only where a request ends the process (`Region.verdict_relocate`).
-/

namespace PagedAlloc

variable {paging : Size.Paging}

/-- What a source answers to a request of any size, also to one for nothing. -/
def Source.verdict [Size.Paging] (environment : Environment) (ledger : Ledger) (align : Nat)
    (source : Source) (size : Nat) : Except Stop Nat :=
  if size = 0 then .error (.failure (.invalidLayout size align))
  else source.answer environment ledger align size

/-- What the owner of a region is told who wants it to have another size: its length, or why it stays
as it is. -/
def Resizing.verdict [Size.Paging] (environment : Environment) (ledger : Ledger) (align : Nat)
    (region : Region) (resizing : Resizing) (size newSize : Nat) : Except Stop Nat :=
  match resizing with
  | .noOp =>
    if newSize ≤ size then .ok size else .error (.failure (.cannotGrow size newSize))
  | .heapOrAbort | .heapOrFail | .remapMayMove =>
    resizing.source.verdict environment ledger align newSize
  | .remapKeepAddress =>
    if newSize = 0 then .error (.failure (.invalidLayout newSize align))
    else
      match Size.roundToPages? newSize with
      | none => .error (.failure .overflow)
      | some newLength =>
        let length := region.memory.length
        if Pages.growsHere environment ledger region.address length newLength then .ok newLength
        else .error (.failure (.cannotGrow length newLength))

/-- What the owner of a region is told who wants it moved to another place. The debug layer moves it
as it is resized, and otherwise a fresh one is obtained. -/
def Strategies.verdict [Size.Paging] (environment : Environment) (ledger : Ledger) (align : Nat)
    (debugLayer : Bool) (strategies : Strategies) (size newSize : Nat) : Except Stop Nat :=
  if strategies.mayMove then
    (if debugLayer then strategies.resizing.source else strategies.source).verdict environment ledger
      align newSize
  else .error (.failure (.cannotGrow size newSize))

open Procedure

variable {environment : Environment} {machine : Machine} {ledger : Ledger} {region : Region}
  {source : Source} {size newSize length align : Nat}

/-- A region that may move is resized as its source answers. -/
theorem Resizing.verdict_moves {resizing : Resizing} (moves : resizing.mayMove = true)
    (environment : Environment) (ledger : Ledger) (align : Nat) (region : Region)
    (size newSize : Nat) :
    resizing.verdict environment ledger align region size newSize =
      resizing.source.verdict environment ledger align newSize := by
  cases resizing with
  | noOp | remapKeepAddress => cases moves
  | heapOrAbort | heapOrFail | remapMayMove => rfl

/-- The heap tells by itself that a request is for nothing. -/
theorem Source.verdict_heap (hfamily : source.family = .heap) (environment : Environment)
    (ledger : Ledger) (align size : Nat) :
    source.verdict environment ledger align size = source.answer environment ledger align size := by
  rw [verdict]
  split
  · rename_i hzero
    simp only [answer, hfamily]
    rw [if_neg fun layout => layout.1 hzero]
  · rfl

/-- Mappings have a single source. -/
theorem Source.eq_pageMap (hfamily : source.family = .pages) : source = .pageMap := by
  cases source with
  | pageMap => rfl
  | heapOrAbort | heapOrFail | heapZeroedOrAbort | heapZeroedOrFail => cases hfamily

/-- Sources of one family answer alike, unless one of them ends the process. -/
theorem Source.verdict_eq {first second : Source} (same : first.family = second.family)
    (hfirst : ∀ fault, first.verdict environment ledger align size ≠ .error (.fault fault))
    (hsecond : ∀ fault, second.verdict environment ledger align size ≠ .error (.fault fault)) :
    first.verdict environment ledger align size = second.verdict environment ledger align size := by
  cases hfamily : second.family with
  | pages =>
    rw [eq_pageMap hfamily, eq_pageMap (same.trans hfamily)]
  | heap =>
    rw [hfamily] at same
    rw [verdict_heap same] at hfirst
    rw [verdict_heap hfamily] at hsecond
    rw [verdict_heap same, verdict_heap hfamily]
    simp only [answer, same, hfamily] at hfirst hsecond ⊢
    split
    · rename_i hlayout
      split
      · rfl
      · rename_i hrefused
        -- two heap sources differ only in how they refuse, and neither of these ends the process
        have hplain {aborts : Bool} (h : ∀ fault, (.error (if aborts then .fault (.aborted size)
            else .failure (.outOfMemory size)) : Except Stop Nat) ≠ .error (.fault fault)) :
            aborts = false := by
          cases aborts with
          | true => exact absurd rfl (h _)
          | false => rfl
        rw [if_pos hlayout, if_neg hrefused] at hfirst hsecond
        rw [hplain hfirst, hplain hsecond]
    · rfl

/-- Only nothing is rounded up to no pages. -/
theorem Size.eq_zero_iff_of_roundToPages? (hround : Size.roundToPages? size = some length) :
    length = 0 ↔ size = 0 := by
  constructor
  · rintro rfl
    exact Nat.le_zero.1 (le_of_roundToPages?_eq_some hround)
  · rintro rfl
    exact (Option.some.inj (hround.symm.trans roundToPages?_zero))

namespace Region

/-- A request for a fresh region whose alignment suits pages is answered by its source. -/
theorem verdict_allocate [Size.Paging] (source : Source) (size align : Nat)
    (aligned : source.family = .pages → Size.IsPowerOfTwo align ∧ align ≤ Size.pageSize)
    (environment : Environment) (machine : Machine) :
    (allocate source size align environment machine).1.map Region.length =
      source.verdict environment machine.ledger align size := by
  cases source with
  | pageMap =>
    obtain ⟨hpower, hsmall⟩ := aligned rfl
    by_cases hzero : size = 0
    · rw [Source.verdict, if_pos hzero, allocate, allocatePages, if_pos (Or.inl hzero)]
      rfl
    · rw [Source.verdict, if_neg hzero]
      exact answer_allocatePages (Nat.pos_of_ne_zero hzero) hpower hsmall environment machine
  | heapOrAbort | heapOrFail | heapZeroedOrAbort | heapZeroedOrFail =>
    rw [Source.verdict_heap rfl]
    exact answer_allocateHeap rfl size align environment machine

/-- What the owner of a mapping is told, once its new length is known. -/
theorem verdict_mapping [Size.Paging] {resizing : Resizing}
    (hfamily : resizing.family? = some .pages)
    (environment : Environment) (ledger : Ledger) (align : Nat) (region : Region)
    (size newSize : Nat) :
    resizing.verdict environment ledger align region size newSize =
      match Size.roundToPages? newSize with
      | none => .error (.failure .overflow)
      | some newLength =>
        if newLength = 0 then .error (.failure (.invalidLayout newSize align))
        else if (if resizing.mayMove then environment.grantsPages ledger newLength
          else Pages.growsHere environment ledger region.address region.memory.length newLength)
        then .ok newLength
        else .error (.failure (if resizing.mayMove then .outOfMemory newLength
          else .cannotGrow region.memory.length newLength)) := by
  cases hround : Size.roundToPages? newSize with
  | none =>
    -- zero is rounded to no pages, so what cannot be rounded is positive
    have hpositive : newSize ≠ 0 := by
      rintro rfl
      cases hround.symm.trans Size.roundToPages?_zero
    cases resizing with
    | noOp | heapOrAbort | heapOrFail => cases hfamily
    | remapMayMove =>
      rw [Resizing.verdict, Source.verdict, if_neg hpositive]
      simp only [Source.answer, Resizing.source, Source.family, hround]
    | remapKeepAddress =>
      simp only [Resizing.verdict, hround]
      exact if_neg hpositive
  | some newLength =>
    have hzero := Size.eq_zero_iff_of_roundToPages? hround
    cases resizing with
    | noOp | heapOrAbort | heapOrFail => cases hfamily
    | remapMayMove =>
      rw [Resizing.verdict, Source.verdict, Source.answer_pages rfl hround]
      simp only [← hzero, Resizing.mayMove, if_true]
    | remapKeepAddress => simp [Resizing.verdict, hround, ← hzero, Resizing.mayMove]

/-- A region that may move is told the same when it is moved as when it is resized, unless one of
the two requests ends the process. -/
theorem verdict_relocate {strategies : Strategies} (consistent : strategies.IsConsistent)
    (moves : strategies.mayMove = true) (debugLayer : Bool)
    (resized : ∀ fault, strategies.resizing.verdict environment ledger align region size newSize ≠
      .error (.fault fault))
    (moved : ∀ fault, strategies.verdict environment ledger align debugLayer size newSize ≠
      .error (.fault fault)) :
    strategies.verdict environment ledger align debugLayer size newSize =
      strategies.resizing.verdict environment ledger align region size newSize := by
  rw [Resizing.verdict_moves moves] at resized ⊢
  rw [Strategies.verdict, if_pos moves] at moved ⊢
  cases debugLayer with
  | true => rfl
  | false =>
    have hsame : strategies.source.family = strategies.resizing.source.family := by
      obtain ⟨-, hresizing⟩ := consistent
      rw [Strategies.mayMove] at moves
      revert moves hresizing
      cases strategies.resizing with
      | noOp | remapKeepAddress => exact nofun
      | heapOrAbort | heapOrFail | remapMayMove => exact fun _ h => (h _ rfl).symm
    exact Source.verdict_eq hsame moved resized

end Region

end PagedAlloc
