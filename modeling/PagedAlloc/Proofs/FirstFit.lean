import PagedAlloc.Proofs.BlocksInUse
import PagedAlloc.Proofs.PlainCategory

/-!
# First fit

What a category hands out is the first free block that is large enough, in the order of the chain and
of the addresses in a chunk, and a chunk is mapped only if there is none (`Category.TakesFirst`). The
hints that chunks remember only save looking: whatever is done with a category and with a plain one,
they give the same answers and reach the same layouts (`Category.Reachable.plain_agrees`).
-/

namespace PagedAlloc

variable {paging : Size.Paging}

open Layout

namespace Category

open Procedure

variable {environment : Environment} {machine : Machine} {category : Category} {address size : Nat}
  {chunk : Chunk} {slot : Slot} {before after : List Slot}

/-! ## What an allocation takes -/

/-- With these blocks an allocation of `size` bytes takes the first free one that is large enough, and
neither asks for pages nor changes the chain. Only if there is none it takes a block in a new chunk,
which it puts behind the others. -/
def TakesFirst [Size.Paging] (environment : Environment) (size : Nat)
    (blocks : List (BlockRef × BlockHeader)) (state : Machine × Category) : Prop :=
  match blocks.find? fun (_, header) => header.isFree && size ≤ header.size with
  | some (ref, _) => ∃ after,
      Category.allocate size environment state = (.ok ref, state.1, after) ∧
        after.chunks.addresses = state.2.chunks.addresses
  | none => ∀ ref machine after,
      Category.allocate size environment state = (.ok ref, machine, after) →
        ref = Chunk.firstBlock ref.chunk ∧
          after.chunks.addresses = state.2.chunks.addresses ++ [ref.chunk]

namespace Sound

/-- Walking a sound category finds the blocks of the plain one. -/
theorem blocks_eq (h : Sound machine category) :
    blocksOf category.chunks.toList = .ok category.plain.blocks := by
  rw [blocks_plain, blocksOf_eq fun entry hentry => ⟨_, h.settled hentry⟩]

/-- A sound category has the layout of the plain one. -/
theorem layout_eq (h : Sound machine category) : category.layout = .ok category.plain.layout := by
  rw [Category.layout, layoutOf_eq fun entry hentry => ⟨_, h.settled hentry⟩, PlainCategory.layout,
    plain, outline, List.map_map]
  refine congrArg Except.ok (List.map_congr_left fun entry hentry => ?_)
  simp only [Function.comp_apply, (h.laid entry.1 entry.2 hentry).category,
    (h.settled hentry).measured]

theorem addresses_changed (h : Sound machine category) (address : Nat) (final : Chunk)
    (used : Nat) :
    (category.changed address final used).chunks.addresses = category.chunks.addresses := by
  rw [changed, (h.sequence.put address final).addresses_eq, Chain.map_fst_replaced,
    h.sequence.addresses_eq]

/-- An allocation that found a block takes it, and changes no more of the chain. -/
theorem allocate_found {state : Machine × Category} (h : Sound machine category)
    (hmem : (address, chunk) ∈ category.chunks.toList)
    (hslots : chunk.slots address = before ++ slot :: after) (free : slot.isFree = true)
    (fits : size ≤ slot.size) (valid : Slot.Valid ⟨size, true⟩)
    (hfind : Category.findOrMap size environment state =
      (.ok (⟨address, stop Chunk.headerSize before⟩, largest before), machine, category)) :
    ∃ final, Category.allocate size environment state =
        (.ok ⟨address, stop Chunk.headerSize before⟩, machine, final) ∧
      final.chunks.addresses = category.chunks.addresses := by
  obtain ⟨final, htake, -⟩ := h.take_block hmem hslots free fits valid environment
  refine ⟨category.changed address final
    (category.used + (cut category.chunkSize.isSome size slot).1.size), ?_, h.addresses_changed ..⟩
  rw [Category.allocate, bind_apply_ok _ _ hfind]
  exact bind_apply_ok _ _ htake

/-- A sound category takes the first free block that is large enough. -/
theorem takesFirst (h : Sound machine category) (hfits : environment.FitsAddresses)
    (valid : Slot.Valid ⟨size, true⟩) :
    TakesFirst environment size category.plain.blocks (machine, category) := by
  obtain ⟨remembered, hplain⟩ := h.firstFit_plain size
  unfold TakesFirst
  rcases firstFit_cases size fun entry hentry => ⟨_, h.settled hentry⟩ with ⟨hnone, -⟩ |
    ⟨front, address, chunk, back, before, slot, after, hlist, -, hslots, -, hfree, hlarge, hfound⟩
  · rw [hnone] at hplain
    have hmissing : category.plain.firstFit? size = none := by simpa using hplain
    rw [PlainCategory.firstFit?, Option.map_eq_none_iff] at hmissing
    rw [hmissing]
    intro ref machine' after hrun
    -- no chunk has a block that is large enough, so one is mapped and taken from
    obtain ⟨result, middle, mapped, hmap, hsound, -, hfresh, -, -⟩ := h.mapChunk hfits size
    have hfind : Category.findOrMap size environment (machine, category) =
        (do return (Chunk.firstBlock (← Category.mapChunk size), 0)) environment
          (machine, category) := by
      rw [Category.findOrMap, bind_apply_ok _ _ (own_apply ..), hnone,
        bind_apply_ok _ _ (checked_ok ..)]
    cases result with
    | error reason =>
      rw [Category.allocate, bind_apply_error _ _ (hfind.trans (bind_apply_error _ _ hmap))] at hrun
      cases hrun
    | ok address =>
      obtain ⟨chunk, slot, hlist, hslots, hfree, hlarge⟩ := hfresh address rfl
      have hsplit : chunk.slots address = [] ++ slot :: [] := hslots
      obtain ⟨final, hallocate, haddresses⟩ := hsound.allocate_found
        (hlist ▸ List.mem_append_cons_self) hsplit hfree hlarge valid
        (hfind.trans (bind_apply_ok _ _ hmap))
      cases hallocate.symm.trans hrun
      refine ⟨rfl, ?_⟩
      rw [haddresses, hsound.sequence.addresses_eq, hlist, h.sequence.addresses_eq, List.map_append]
      rfl
  · rw [hfound] at hplain
    -- the walk over the chunks with hints ends at the block that the plain walk finds
    obtain ⟨ref, hfirst, heq⟩ : ∃ ref, category.plain.firstFit? size = some ref ∧
        (ref, remembered) = (⟨address, stop Chunk.headerSize before⟩, largest before) := by
      simpa using hplain.symm
    obtain ⟨rfl, rfl⟩ := Prod.mk.inj heq
    obtain ⟨⟨_, header⟩, hserves, rfl⟩ := Option.map_eq_some_iff.1 hfirst
    rw [hserves]
    refine h.allocate_found (hlist ▸ List.mem_append_cons_self) hslots hfree hlarge valid ?_
    rw [Category.findOrMap, bind_apply_ok _ _ (own_apply ..), hfound,
      bind_apply_ok _ _ (checked_ok ..)]
    rfl

end Sound

/-! ## Runs without hints -/

/-- What an operation tells its caller. -/
inductive Answer where
  | done
  | block (ref : BlockRef)
  | grown (did : Bool)
  | bytes (count : Nat)
  deriving DecidableEq, Repr

namespace Action

/-- An operation with what it tells. -/
def answer [Size.Paging] : Action → Procedure (Machine × Category) Answer
  | allocate size => .block <$> Category.allocate size
  | free ref => (fun _ => .done) <$> Category.free ref
  | shrink ref size => (fun _ => .done) <$> Category.shrink ref size
  | grow ref size => .grown <$> Category.grow ref size
  | clear => (fun _ => .done) <$> Category.clear
  | trim => .bytes <$> Category.trim
  | write ref offset content => (fun _ => .done) <$> run (.write ref offset content)

/-- The same operation on a plain category, in which a payload holds nothing. -/
def onPlain [Size.Paging] : Action → Procedure (Machine × PlainCategory) Answer
  | allocate size => .block <$> PlainCategory.allocate size
  | free ref => (fun _ => .done) <$> PlainCategory.free ref
  | shrink ref size => (fun _ => .done) <$> PlainCategory.shrink ref size
  | grow ref size => .grown <$> PlainCategory.grow ref size
  | clear => (fun _ => .done) <$> PlainCategory.clear
  | trim => .bytes <$> PlainCategory.trim
  | write .. => (fun _ => .done) <$> (pure () : Procedure _ Unit)

theorem answer_state (action : Action) (environment : Environment) (state : Machine × Category) :
    (action.answer environment state).2 = (action.run environment state).2 := by
  cases action <;> simp only [answer, run, map_state, discard_state]

end Action

/-- What the caller promises and others keep to at each of some moves: operations are allowed, and
others leave the chunks alone. -/
def Permits [Size.Paging] : Machine × Category → List (Move Action) → Prop
  | _, [] => True
  | state, .call environment action :: rest =>
    (environment.FitsAddresses ∧ action.Allowed state.2) ∧
      Permits (action.run environment state).2 rest
  | (before, category), .others machine :: rest =>
    category.StaysMapped before machine ∧ Permits (machine, category) rest

/-- An operation that is allowed does the same without hints. -/
theorem Sound.answer_plain (h : Sound machine category) (fits : environment.FitsAddresses)
    {action : Action} (allowed : action.Allowed category) :
    Mirrored plain environment machine category action.answer action.onPlain := by
  cases action with
  | allocate size => exact (h.allocate_plain fits allowed).map _
  | free ref =>
    obtain ⟨old, hinUse⟩ := allowed
    exact (h.free_plain (h.uses hinUse) environment).map _
  | shrink ref size =>
    obtain ⟨valid, old, hinUse, hle⟩ := allowed
    exact (h.shrink_plain (h.uses hinUse) hle valid environment).map _
  | grow ref size =>
    obtain ⟨valid, old, hinUse, hlt⟩ := allowed
    exact (h.grow_plain (h.uses hinUse) hlt valid environment).map _
  | clear => exact (h.clear_plain environment).map _
  | trim => exact (h.trim_plain environment).map _
  | write ref offset content =>
    obtain ⟨old, hinUse, hle⟩ := allowed
    exact (h.write_plain (h.uses hinUse) hle environment).map _

/-- Whatever is done, both give the same answers and go on as each other. -/
theorem Sound.moves_plain (h : Sound machine category) {steps : List (Move Action)}
    (permitted : Permits (machine, category) steps) :
    ∃ answers machine' after, moves Action.answer steps (machine, category) =
        (answers, machine', after) ∧ Sound machine' after ∧
      moves Action.onPlain steps (machine, category.plain) = (answers, machine', after.plain) := by
  induction steps generalizing machine category with
  | nil => exact ⟨_, _, _, rfl, h, rfl⟩
  | cons step rest ih =>
    cases step with
    | call environment action =>
      obtain ⟨⟨fits, allowed⟩, hrest⟩ := permitted
      obtain ⟨result, machine', after, hrun, hmirror⟩ := h.answer_plain fits allowed
      have hstate : (action.run environment (machine, category)).2 = (machine', after) := by
        rw [← Action.answer_state, hrun]
      have hsound := h.run fits allowed
      rw [hstate] at hrest hsound
      obtain ⟨answers, last, final, hmoves, hfinal, hplain⟩ := ih hsound hrest
      refine ⟨result :: answers, last, final, ?_, hfinal, ?_⟩
      · simp only [moves, hrun, hmoves]
      · simp only [moves, hmirror, hplain]
    | others other => exact ih (h.of_machine permitted.1) permitted.2

/-- In every reachable state an allocation takes the first free block that is large enough, and maps a
chunk only if there is none. From there on a category and a plain one, whatever they are asked for,
give the same answers, and they reach the same layouts. -/
theorem Reachable.plain_agrees {index : Nat} {chunkSize : Option Nat}
    (lengths : ∀ length ∈ chunkSize, 0 < length ∧ Size.pageSize ∣ length ∧ length < Size.limit)
    {state : Machine × Category} (h : Reachable index chunkSize state) :
    (∃ blocks, blocksOf state.2.chunks.toList = .ok blocks ∧
      ∀ (environment : Environment) (size : Nat), environment.FitsAddresses →
        Slot.Valid ⟨size, true⟩ → TakesFirst environment size blocks state) ∧
      ∀ steps, Permits state steps →
        let last := moves Action.answer steps state
        moves Action.onPlain steps (state.1, state.2.plain) =
            (last.1, last.2.1, last.2.2.plain) ∧
          last.2.2.layout = .ok last.2.2.plain.layout := by
  have hsound := h.sound lengths
  refine ⟨⟨_, hsound.blocks_eq, fun environment size fits valid => hsound.takesFirst fits valid⟩,
    fun steps permitted => ?_⟩
  obtain ⟨answers, machine, category, hmoves, hlast, hplain⟩ := hsound.moves_plain permitted
  rw [show moves Action.answer steps state = _ from hmoves]
  exact ⟨hplain, hlast.layout_eq⟩

end Category

end PagedAlloc

namespace PagedAlloc.Category

open Layout
open Procedure

attribute [local instance] Size.Paging.common

/-- A first block is freed in front of another chunk, and is the one that is taken next. -/
theorem plain_agrees_after_free :
    let start := (Machine.fresh, Category.empty 0 (some 65536))
    let steps : List (Move Action) := [.call .ordinary (.allocate 65456),
      .call .ordinary (.allocate 64), .call .ordinary (.free ⟨65536, 48⟩),
      .call .ordinary (.allocate 48)]
    Reachable 0 (some 65536) start ∧ Permits start steps ∧
      (moves Action.onPlain steps (Machine.fresh, ⟨0, some 65536, [], 0⟩)).1 =
        [.ok (.block ⟨65536, 48⟩), .ok (.block ⟨131072, 48⟩), .ok .done,
          .ok (.block ⟨65536, 48⟩)] := by
  intro start steps
  have hstart : Reachable 0 (some 65536) start := .start Machine.fresh
  have agrees := (hstart.plain_agrees (by rintro _ ⟨⟩; decide)).2
  refine ⟨hstart, ?permitted, (congrArg Prod.fst (agrees steps ?permitted).1).trans ?answers⟩
  case permitted =>
    have fits := Environment.ordinary_fitsAddresses
    exact ⟨⟨fits, show Slot.Valid ⟨65456, true⟩ by decide⟩,
      ⟨fits, show Slot.Valid ⟨64, true⟩ by decide⟩,
      ⟨fits, 65456, by decide +kernel⟩,
      ⟨fits, show Slot.Valid ⟨48, true⟩ by decide⟩, trivial⟩
  case answers => decide +kernel

end PagedAlloc.Category
