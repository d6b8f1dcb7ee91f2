import PagedAlloc.Proofs.Outcomes
import PagedAlloc.Region.Resize

/-!
# Contents decide nothing

The kernel and the heap decide, and the environment also says what fresh heap memory holds. Requests
to them depend on their decisions alone (`Procedure.Decided`). So when a region is resized or moved,
what happens and where the new region lies depends neither on what the old region holds nor on what
fresh memory holds (`Region.blind_resize`, `Region.blind_relocate`).
-/

namespace PagedAlloc

variable {paging : Size.Paging}

/-- The same decisions of the kernel and the heap, with other contents of fresh heap memory. -/
def Environment.reseeded (environment : Environment)
    (residue : (address length : Nat) → Tree Empty) : Environment :=
  { environment with residue := residue }

namespace Procedure

variable {σ α β : Type}

/-- A procedure does the same whatever fresh heap memory holds. -/
structure Decided (procedure : Procedure σ α) : Prop where
  same : ∀ environment residue, procedure (environment.reseeded residue) = procedure environment

theorem decided_const (run : σ → Except Stop α × σ) : Decided fun _ state => run state :=
  ⟨fun _ _ => rfl⟩

theorem decided_pure (value : α) : Decided (pure value : Procedure σ α) := decided_const _

theorem decided_stop (reason : Stop) : Decided (stop reason : Procedure σ α) := decided_const _

/-- What is done one after the other is decided if each part is. -/
theorem decided_bind {procedure : Procedure σ α} {next : α → Procedure σ β}
    (h : Decided procedure) (hnext : ∀ value, Decided (next value)) :
    Decided (procedure >>= next) := by
  refine ⟨fun environment residue => funext fun state => ?_⟩
  rw [bind_apply, bind_apply, h.same]
  cases procedure environment state with
  | mk result after =>
    cases result with
    | error reason => rfl
    | ok value => exact congrFun ((hnext value).same environment residue) after

/-- Decisions may be looked at. -/
theorem decided_environment {next : Environment → Procedure σ α}
    (same : ∀ environment residue, next (environment.reseeded residue) = next environment)
    (hnext : ∀ environment, Decided (next environment)) :
    Decided (Procedure.environment >>= next) := by
  refine ⟨fun environment residue => funext fun state => ?_⟩
  show next (environment.reseeded residue) (environment.reseeded residue) state =
    next environment environment state
  rw [same, (hnext environment).same]

theorem decided_ensure {condition : Prop} [Decidable condition] (fault : Fault) :
    Decided (ensure condition fault : Procedure σ Unit) := by
  unfold ensure
  split
  · exact decided_pure ()
  · exact decided_stop _

theorem decided_orFail (failure : Failure) (option : Option α) :
    Decided (orFail failure option : Procedure σ α) := by
  cases option with
  | none => exact decided_stop _
  | some value => exact decided_pure value

end Procedure

open Procedure

/-! ## Requests -/

/-- Where a region is put does not hang on what fresh memory holds. -/
theorem Machine.decided_claim (align length : Nat) (origin : Origin) :
    Decided (claim align length origin) := ⟨fun _ _ => rfl⟩

/-- Whether the heap serves a request is decided, whatever the memory holds. -/
theorem Heap.decided_allocate (size align : Nat) : Decided (allocate size align) := by
  refine decided_environment (fun _ _ => rfl) fun environment =>
    decided_bind (decided_const _) fun machine => ?_
  split
  · exact decided_bind (Machine.decided_claim ..) fun _ => decided_pure _
  · exact decided_pure _

theorem Heap.decided_resize (address old new align : Nat) :
    Decided (resize address old new align) := by
  refine decided_environment (fun _ _ => rfl) fun environment =>
    decided_bind (decided_const _) fun machine => ?_
  refine decided_bind (decided_const _) fun _ => ?_
  split
  · refine decided_bind (decided_const _) fun _ => ?_
    split
    · exact decided_bind (decided_const _) fun _ => decided_pure _
    · exact decided_bind (Machine.decided_claim ..) fun _ => decided_pure _
  · exact decided_pure _

theorem Heap.decided_free (address size align : Nat) : Decided (free address size align) :=
  decided_bind (decided_const _) fun _ => decided_bind (decided_const _) fun _ => decided_const _

/-- Whether the kernel maps pages is decided. -/
theorem Pages.decided_serve (request : MapRequest) : Decided (serve request) := by
  refine decided_bind (decided_ensure _) fun _ => ?_
  split
  · exact decided_pure _
  · refine decided_environment (fun _ _ => rfl) fun environment =>
      decided_bind (decided_const _) fun machine => ?_
    split
    · exact decided_bind (Machine.decided_claim ..) fun _ =>
        decided_bind (decided_const _) fun _ => decided_pure _
    · exact decided_bind (decided_const _) fun _ => decided_pure _

theorem Pages.decided_map (size : Nat) : Decided (map size) := by
  unfold map
  split
  · exact decided_serve _
  · exact decided_pure _

theorem Pages.decided_unmap (address length : Nat) : Decided (unmap address length) := by
  refine decided_bind (decided_ensure _) fun _ => decided_bind (decided_const _) fun _ =>
    decided_environment (fun _ _ => rfl) fun environment =>
      decided_bind (decided_const _) fun machine => ?_
  exact decided_bind (decided_const _) fun _ =>
    decided_bind (decided_ensure _) fun _ => decided_const _

theorem Pages.decided_protect (address length : Nat) (protection : Protection) :
    Decided (protect address length protection) := by
  refine decided_environment (fun _ _ => rfl) fun environment =>
    decided_bind (decided_const _) fun machine => ?_
  split
  · exact decided_bind (decided_const _) fun _ => decided_pure _
  · exact decided_pure _

/-- Whether and where a mapping is resized is decided. -/
theorem Pages.decided_remap (address old new : Nat) (mayMove : Bool) :
    Decided (remap address old new mayMove) := by
  refine decided_bind (decided_ensure _) fun _ => decided_environment (fun _ _ => rfl)
    fun environment => decided_bind (decided_const _) fun machine => ?_
  refine decided_bind (decided_const _) fun _ => ?_
  dsimp only
  split
  · split
    · exact decided_bind (decided_const _) fun _ =>
        decided_bind (decided_const _) fun _ => decided_pure _
    · exact decided_bind (decided_const _) fun _ => decided_bind (Machine.decided_claim ..) fun _ =>
        decided_bind (decided_const _) fun _ => decided_pure _
  · exact decided_bind (decided_const _) fun _ => decided_pure _

namespace Region

theorem decided_release (disposal : Disposal) (address size align : Nat) :
    Decided (release disposal address size align) := by
  cases disposal with
  | heapFree =>
    unfold release
    dsimp only
    split
    · exact Heap.decided_free ..
    · exact decided_stop _
  | pageUnmap =>
    unfold release
    dsimp only
    split
    · exact Pages.decided_unmap ..
    · exact decided_stop _

theorem decided_ensureLayout (size align : Nat) :
    Decided (ensureLayout size align : Procedure Machine Unit) := by
  unfold ensureLayout
  split
  · exact decided_pure _
  · exact decided_stop _

theorem decided_refused {α : Type} (aborts : Bool) (size align : Nat) (event : Event) :
    Decided (refused aborts size align event : Procedure Machine α) := by
  unfold refused
  split
  · exact decided_bind (decided_const _) fun _ => decided_stop _
  · exact decided_bind (decided_const _) fun _ => decided_stop _

/-- A request for pages is decided. -/
theorem decided_allocatePages (size align : Nat) : Decided (allocatePages size align) := by
  have hrest : Decided (do
      let length ← orFail .overflow (Size.roundToPages? size)
      let address ← orFail (.outOfMemory length) (← Pages.map length)
      return ofMemory address (Memory.zeroed length) : Procedure Machine Region) :=
    decided_bind (decided_orFail ..) fun _ => decided_bind (Pages.decided_map _) fun _ =>
      decided_bind (decided_orFail ..) fun _ => decided_pure _
  unfold allocatePages
  split
  · exact decided_bind (decided_stop _) fun _ => hrest
  · exact hrest

/-! ## Regions up to their contents -/

/-- Two runs are stopped in the same way, or give regions of the same place and size. Whatever comes
of them, they leave the same machine behind. -/
inductive SameButContents :
    Except Stop Region × Machine → Except Stop Region × Machine → Prop where
  | stopped (reason : Stop) (after : Machine) :
      SameButContents (.error reason, after) (.error reason, after)
  | gives (address length : Nat) {memory memory' : Memory Empty} (after : Machine)
      (same : memory'.length = memory.length) :
      SameButContents (.ok ⟨address, length, memory⟩, after) (.ok ⟨address, length, memory'⟩, after)

theorem SameButContents.refl (run : Except Stop Region × Machine) : SameButContents run run := by
  obtain ⟨reason | region, after⟩ := run
  · exact .stopped reason after
  · exact .gives region.address region.length after rfl

/-- Two procedures do the same up to contents, the second one while fresh heap memory holds something
else. -/
structure Blind (procedure procedure' : Procedure Machine Region) : Prop where
  same : ∀ environment residue machine,
    SameButContents (procedure environment machine)
      (procedure' (environment.reseeded residue) machine)

section Blind

variable {α : Type} {memory memory' : Memory Empty}

/-- What is decided is blind to all contents. -/
theorem blind_of_decided {procedure : Procedure Machine Region} (h : Decided procedure) :
    Blind procedure procedure := by
  refine ⟨fun environment residue machine => ?_⟩
  rw [h.same]
  exact .refl _

theorem blind_pure (address length : Nat) (same : memory'.length = memory.length) :
    Blind (pure ⟨address, length, memory⟩) (pure ⟨address, length, memory'⟩) :=
  ⟨fun _ _ machine => .gives address length machine same⟩

theorem blind_ofMemory (address : Nat) (same : memory'.length = memory.length) :
    Blind (pure (ofMemory address memory)) (pure (ofMemory address memory')) := by
  rw [ofMemory, ofMemory, same]
  exact blind_pure address memory.length same

/-- A choice that does not look at contents is blind if both branches are. -/
theorem blind_ite {condition : Prop} [Decidable condition]
    {procedure procedure' other other' : Procedure Machine Region}
    (h : Blind procedure procedure') (hother : Blind other other') :
    Blind (if condition then procedure else other)
      (if condition then procedure' else other') := by
  split
  · exact h
  · exact hother

/-- A first step that depends on decisions alone. -/
theorem blind_after {first : Procedure Machine α} {next next' : α → Procedure Machine Region}
    (h : Decided first) (hnext : ∀ value, Blind (next value) (next' value)) :
    Blind (first >>= next) (first >>= next') := by
  refine ⟨fun environment residue machine => ?_⟩
  rw [bind_apply, bind_apply, h.same]
  cases first environment machine with
  | mk result middle =>
    cases result with
    | error reason => exact .stopped reason middle
    | ok value => exact (hnext value).same environment residue middle

/-- A first step that gives the same region up to its contents. -/
theorem blind_bind {first first' : Procedure Machine Region}
    {next next' : Region → Procedure Machine Region} (h : Blind first first')
    (hnext : ∀ address length memory memory', memory'.length = memory.length →
      Blind (next ⟨address, length, memory⟩) (next' ⟨address, length, memory'⟩)) :
    Blind (first >>= next) (first' >>= next') := by
  refine ⟨fun environment residue machine => ?_⟩
  have hfirst := h.same environment residue machine
  rw [bind_apply, bind_apply]
  generalize first environment machine = run at hfirst
  generalize first' (environment.reseeded residue) machine = run' at hfirst
  cases hfirst with
  | stopped reason middle => exact .stopped reason middle
  | gives address length middle same =>
    exact (hnext _ _ _ _ same).same environment residue middle

/-- What fresh memory holds is not looked at. -/
theorem blind_environment {next next' : Environment → Procedure Machine Region}
    (hnext : ∀ environment residue,
      Blind (next environment) (next' (environment.reseeded residue))) :
    Blind (Procedure.environment >>= next) (Procedure.environment >>= next') :=
  ⟨fun environment residue machine => (hnext environment residue).same environment residue machine⟩

end Blind

/-- Fresh regions are placed without a look at what they hold. -/
theorem blind_allocate (source : Source) (size align : Nat) :
    Blind (allocate source size align) (allocate source size align) := by
  have hheap : Blind (allocateHeap source size align) (allocateHeap source size align) := by
    refine blind_after (decided_ensureLayout ..) fun _ =>
      blind_after (Heap.decided_allocate ..) fun found => ?_
    cases found with
    | none => exact blind_of_decided (decided_refused ..)
    | some address =>
      -- the two find different bytes in fresh memory, but as many of them
      refine blind_environment fun environment residue => blind_ofMemory address ?_
      cases source.zeroes <;> rfl
  cases source with
  | pageMap => exact blind_of_decided (decided_allocatePages ..)
  | heapOrAbort | heapOrFail | heapZeroedOrAbort | heapZeroedOrFail => exact hheap

variable {memory memory' : Memory Empty}

/-- Moving a heap region does not look at its bytes. -/
theorem blind_moveHeap (source : Source) (address length size newSize align : Nat) :
    Blind (moveHeap source ⟨address, length, memory⟩ size newSize align)
      (moveHeap source ⟨address, length, memory'⟩ size newSize align) := by
  refine blind_bind (blind_allocate ..) fun target _ fresh fresh' hfresh =>
    blind_after (decided_release ..) fun _ => blind_after (decided_const _) fun _ =>
      blind_ofMemory target ?_
  rw [copied, copied, Memory.length_write, Memory.length_write, hfresh]

/-- Moving a mapping does not look at its bytes. -/
theorem blind_moveMapping (address size length newLength : Nat) :
    Blind (moveMapping ⟨address, size, memory⟩ length newLength)
      (moveMapping ⟨address, size, memory'⟩ length newLength) := by
  refine blind_after (Pages.decided_map _) fun _ => blind_after (decided_orFail ..) fun target =>
    blind_after (Pages.decided_protect ..) fun access => ?_
  have hmoved : Blind
      (pure (ofMemory target (copied ⟨address, size, memory⟩ (min length newLength)
        (Memory.zeroed newLength))))
      (pure (ofMemory target (copied ⟨address, size, memory'⟩ (min length newLength)
        (Memory.zeroed newLength)))) := by
    refine blind_ofMemory target ?_
    rw [copied, copied, Memory.length_write, Memory.length_write]
  cases access with
  | false =>
    exact blind_after (decided_const _) fun _ => blind_after (decided_const _) fun _ => hmoved
  | true => exact blind_after (decided_const _) fun _ => hmoved

/-- Resizing a heap region does not look at its bytes. -/
theorem blind_resizeHeap (source : Source) (address length size newSize align : Nat) :
    Blind (resizeHeap source ⟨address, length, memory⟩ size newSize align)
      (resizeHeap source ⟨address, length, memory'⟩ size newSize align) := by
  refine blind_after (decided_ensureLayout ..) fun _ => blind_after (decided_ensureLayout ..)
    fun _ => blind_after (Heap.decided_resize ..) fun found => ?_
  cases found with
  | none => exact blind_of_decided (decided_refused ..)
  | some target =>
    refine blind_environment fun environment residue => blind_ofMemory target ?_
    rw [Memory.length_resized, Memory.length_resized]

/-- Resizing a mapping does not look at its bytes. -/
theorem blind_resizeMapping (address size length newLength : Nat) (mayMove : Bool) :
    Blind (resizeMapping ⟨address, size, memory⟩ length newLength mayMove)
      (resizeMapping ⟨address, size, memory'⟩ length newLength mayMove) := by
  refine blind_after (Pages.decided_remap ..) fun found => ?_
  cases found with
  | none => exact blind_of_decided (decided_stop _)
  | some target =>
    refine blind_ofMemory target ?_
    rw [Memory.length_resized, Memory.length_resized]

/-- A resize does the same whatever the region holds. -/
theorem blind_resize (resizing : Resizing) (address length size newSize align : Nat)
    (diagnostics : Diagnostics) (same : memory'.length = memory.length) :
    Blind (resize resizing ⟨address, length, memory⟩ size newSize align diagnostics)
      (resize resizing ⟨address, length, memory'⟩ size newSize align diagnostics) := by
  cases resizing with
  | noOp =>
    exact blind_ite (blind_pure address size same) (blind_of_decided (decided_stop _))
  | heapOrAbort | heapOrFail =>
    exact blind_ite (blind_moveHeap ..) (blind_resizeHeap ..)
  | remapMayMove | remapKeepAddress =>
    exact blind_after (decided_orFail ..) fun oldLength =>
      blind_after (decided_orFail ..) fun newLength =>
        blind_ite (blind_moveMapping ..) <|
          blind_ite (blind_of_decided (decided_stop _)) (blind_resizeMapping ..)

/-- So does a relocation. -/
theorem blind_relocate (strategies : Strategies) (address length size newSize align : Nat)
    (diagnostics : Diagnostics) (same : memory'.length = memory.length) :
    Blind (relocate strategies ⟨address, length, memory⟩ size newSize align diagnostics)
      (relocate strategies ⟨address, length, memory'⟩ size newSize align diagnostics) := by
  refine blind_ite (blind_of_decided (decided_stop _)) <|
    blind_ite (blind_resize _ _ _ _ _ _ _ same) ?_
  refine blind_bind (blind_allocate ..) fun target _ fresh fresh' hfresh =>
    blind_after (decided_release ..) fun _ => blind_after (decided_const _) fun _ =>
      blind_ofMemory target ?_
  rw [copied, copied, Memory.length_write, Memory.length_write, hfresh]

end Region

end PagedAlloc
