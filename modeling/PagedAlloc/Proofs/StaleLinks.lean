import PagedAlloc.Proofs.Chain

/-!
# Chains in shared memory

A chain keeps no node it does not hold. In memory it is different: a node that leaves a chain stays
where it is, with the links it had. `Shared` is a chain that finds its nodes in such a memory, and
every legal sequence of edits brings both to the same list (`edited_represents`): the walks from the
two ends give what was appended and not removed since, and end there, so no stale link is ever
followed.
-/

namespace PagedAlloc.Chain

variable {α : Type} {chain : Chain α} {entries : List (Nat × α)} {address : Nat}

/-! ## Nodes in memory -/

/-- A chain that owns its ends only: the nodes are in a memory that forgets nothing. -/
structure Shared (α : Type) where
  /-- Address of the first node. -/
  head : Option Nat
  /-- Address of the last node. -/
  tail : Option Nat
  /-- Number of nodes. -/
  length : Nat
  /-- What was last written as a node at an address. -/
  memory : Nat → Option (Node α)

/-- Changes the node at an address in memory, if there is an address. -/
def change (place : Option Nat) (f : Node α → Node α) (memory : Nat → Option (Node α)) :
    Nat → Option (Node α) :=
  fun here => if place = some here then (memory here).map f else memory here

namespace Shared

/-- The chain without nodes, in a memory that holds anything. -/
def empty (memory : Nat → Option (Node α)) : Shared α := ⟨none, none, 0, memory⟩

/-- Writes a node behind the last one. -/
def append (list : Shared α) (address : Nat) (data : α) : Shared α where
  head := if list.tail.isSome then list.head else some address
  tail := some address
  length := list.length + 1
  memory :=
    change list.tail (fun node => { node with next := some address }) fun here =>
      if here = address then some ⟨none, list.tail, data⟩ else list.memory here

/-- Takes the node at an address out: only its neighbours or the ends are written to. -/
def remove (list : Shared α) (address : Nat) : Shared α :=
  match list.memory address with
  | none => list
  | some node =>
    { head := if node.prev.isSome then list.head else node.next
      tail := if node.next.isSome then list.tail else node.prev
      length := list.length - 1
      memory :=
        change node.next (fun after => { after with prev := node.prev }) <|
          change node.prev (fun before => { before with next := node.next }) list.memory }

/-- The memory has the ends and all the nodes of a chain, and possibly more nodes. -/
structure Shows (list : Shared α) (chain : Chain α) : Prop where
  head : list.head = chain.head
  tail : list.tail = chain.tail
  length : list.length = chain.length
  nodes : ∀ here node, chain.find? here = some node → list.memory here = some node

theorem shows_empty (memory : Nat → Option (Node α)) : (empty memory).Shows Chain.empty :=
  ⟨rfl, rfl, rfl, nofun⟩

/-- A node that is shown stays so when both sides change in the same way. -/
theorem change_mono {find memory : Nat → Option (Node α)} {here : Nat}
    (shown : ∀ node, find here = some node → memory here = some node) (place : Option Nat)
    (f : Node α → Node α) (node : Node α) (found : change place f find here = some node) :
    change place f memory here = some node := by
  rw [change] at found ⊢
  split_ifs at found ⊢ with hplace
  · obtain ⟨old, hold, rfl⟩ := Option.map_eq_some_iff.1 found
    rw [shown old hold, Option.map_some]
  · exact shown node found

namespace Shows

variable {list : Shared α}

/-- Appending a node keeps what the memory shows: it writes the new node and the one that was last.
-/
theorem append (shows : list.Shows chain) (h : IsSequence chain entries)
    (fresh : address ∉ entries.map Prod.fst) (data : α) :
    (list.append address data).Shows (chain.append address data) where
  head := by rw [Shared.append, Chain.append, shows.tail, shows.head]
  tail := rfl
  length := congrArg (· + 1) shows.length
  nodes := by
    intro here node hfound
    -- the last node is not the new one, which may have been in the chain before
    have hlast : chain.tail ≠ some address := fun heq =>
      fresh (mem_of_backOr_eq_some (h.tail ▸ heq))
    rw [find?_append] at hfound
    simp only [Shared.append, shows.tail]
    by_cases hhere : here = address
    · subst hhere
      simpa [change, hlast] using hfound
    · rw [if_neg hhere] at hfound
      refine change_mono (fun old hold => ?_) chain.tail _ node hfound
      rw [if_neg hhere, shows.nodes here old hold]

/-- Removing a node keeps what the memory shows: the node itself stays behind with its links. -/
theorem remove (shows : list.Shows chain) {node : Node α}
    (found : chain.find? address = some node) :
    (list.remove address).Shows (chain.remove address) := by
  have hshown := shows.nodes address node found
  refine ⟨?_, ?_, ?_, ?_⟩
  · simp only [Shared.remove, Chain.remove, hshown, found, shows.head]
  · simp only [Shared.remove, Chain.remove, hshown, found, shows.tail]
  · simp only [Shared.remove, Chain.remove, hshown, found, shows.length]
  · intro here other hfound
    have hhere : here ≠ address := by
      rintro rfl
      simp [find?_remove found] at hfound
    rw [find?_remove found, if_neg hhere] at hfound
    simp only [Shared.remove, hshown]
    exact change_mono (change_mono (shows.nodes here) node.prev _) node.next _ other hfound

end Shows

end Shared

/-! ## Walks without a bound -/

/-- The walk from a place along a link visits the entries and comes to its end behind them. -/
inductive Visits (find : Nat → Option (Node α)) (link : Node α → Option Nat) :
    Option Nat → List (Nat × α) → Prop
  | done : Visits find link none []
  | step {address : Nat} {node : Node α} {rest : List (Nat × α)}
      (found : find address = some node) (further : Visits find link (link node) rest) :
      Visits find link (some address) ((address, node.data) :: rest)

section Walks

variable {find find' : Nat → Option (Node α)} {next prev : Option Nat}

/-- A walk is not disturbed by nodes that it does not come to. -/
theorem Linked.mono (h : Linked find next prev entries)
    (more : ∀ here node, find here = some node → find' here = some node) :
    Linked find' next prev entries := by
  induction entries generalizing prev with
  | nil => trivial
  | cons entry rest ih => exact ⟨more _ _ h.1, ih h.2⟩

/-- A walk along the links from the front visits all entries in their order. -/
theorem Linked.visits_next (h : Linked find none prev entries) :
    Visits find Node.next (frontOr none entries) entries := by
  induction entries generalizing prev with
  | nil => exact .done
  | cons entry rest ih => exact .step h.1 (ih h.2)

/-- A walk along the links from the back visits all entries in reverse. -/
theorem Linked.visits_prev (h : Linked find next none entries) :
    Visits find Node.prev (backOr none entries) entries.reverse := by
  induction entries using List.reverseRecOn generalizing next with
  | nil => exact .done
  | append_singleton init entry ih =>
    rw [linked_append] at h
    rw [backOr_append, List.reverse_append]
    exact .step h.2.1 (ih h.1)

theorem Linked.data_eq (h : Linked find next prev entries) {data : α}
    (hmem : (address, data) ∈ entries) : (find address).map Node.data = some data := by
  obtain ⟨before, after, rfl⟩ := List.append_of_mem hmem
  rw [((linked_append _ _).1 h).2.1, Option.map_some]

end Walks

/-- Nodes, ends and a length stand for a list: the walks in both directions visit its entries and
end, and every node holds its contents. -/
structure Represents (find : Nat → Option (Node α)) (head tail : Option Nat) (length : Nat)
    (entries : List (Nat × α)) : Prop where
  forward : Visits find Node.next head entries
  backward : Visits find Node.prev tail entries.reverse
  length : length = entries.length
  head : head = none ↔ entries = []
  tail : tail = none ↔ entries = []
  data : ∀ entry ∈ entries, (find entry.1).map Node.data = some entry.2

theorem Represents.of_linked {find : Nat → Option (Node α)} (h : Linked find none none entries) :
    Represents find (frontOr none entries) (backOr none entries) entries.length entries where
  forward := h.visits_next
  backward := h.visits_prev
  length := rfl
  head := by cases entries <;> simp
  tail := by simp [backOr_eq_none_iff]
  data _ hmem := h.data_eq hmem

/-- A chain represents the list of its entries. -/
theorem IsSequence.represents (h : IsSequence chain entries) :
    Represents chain.find? chain.head chain.tail chain.length entries := by
  rw [h.head, h.tail, h.length]
  exact .of_linked h.linked

/-- A memory that shows a chain represents the same list as the chain. -/
theorem Shared.Shows.represents {list : Shared α} (shows : list.Shows chain)
    (h : IsSequence chain entries) :
    Represents list.memory list.head list.tail list.length entries := by
  rw [shows.head, shows.tail, shows.length, h.head, h.tail, h.length]
  exact .of_linked (h.linked.mono shows.nodes)

/-! ## Edits -/

/-- A change of which nodes are in a chain. -/
inductive Edit (α : Type) where
  | append (address : Nat) (data : α)
  | remove (address : Nat)

namespace Edit

/-- The edit of a chain. -/
def run : Edit α → Chain α → Chain α
  | append address data, chain => chain.append address data
  | remove address, chain => chain.remove address

/-- The edit of a chain in memory. -/
def write : Edit α → Shared α → Shared α
  | append address data, list => list.append address data
  | remove address, list => list.remove address

/-- The entries after an edit. -/
def keep : Edit α → List (Nat × α) → List (Nat × α)
  | append address data, entries => entries ++ [(address, data)]
  | remove address, entries => entries.filter fun entry => entry.1 ≠ address

/-- A node is appended where none of the chain is, and one of the chain is removed. -/
def Legal : Edit α → List (Nat × α) → Prop
  | append address _, entries => address ∉ entries.map Prod.fst
  | remove address, entries => address ∈ entries.map Prod.fst

/-- Whether the edit removes the node at an address. -/
def removes (address : Nat) : Edit α → Bool
  | append _ _ => false
  | remove removed => removed = address

instance (edit : Edit α) (entries : List (Nat × α)) : Decidable (edit.Legal entries) :=
  match edit with
  | append address _ => inferInstanceAs (Decidable (address ∉ entries.map Prod.fst))
  | remove address => inferInstanceAs (Decidable (address ∈ entries.map Prod.fst))

end Edit

/-- Every edit is legal for the entries that the ones before it leave. -/
def LegalFrom : List (Nat × α) → List (Edit α) → Prop
  | _, [] => True
  | entries, edit :: rest => edit.Legal entries ∧ LegalFrom (edit.keep entries) rest

instance decidableLegalFrom : (entries : List (Nat × α)) → (edits : List (Edit α)) →
    Decidable (LegalFrom entries edits)
  | _, [] => inferInstanceAs (Decidable True)
  | entries, edit :: rest =>
    have := decidableLegalFrom (edit.keep entries) rest
    inferInstanceAs (Decidable (_ ∧ _))

/-- The chain after some edits. -/
def edited (chain : Chain α) (edits : List (Edit α)) : Chain α :=
  edits.foldl (fun chain edit => edit.run chain) chain

/-- The chain in memory after some edits. -/
def Shared.edited (list : Shared α) (edits : List (Edit α)) : Shared α :=
  edits.foldl (fun list edit => edit.write list) list

/-- What the edits append and do not remove later, in the order in which it was appended. -/
def survivors : List (Edit α) → List (Nat × α)
  | [] => []
  | .append address data :: rest =>
    if rest.any (Edit.removes address) then survivors rest else (address, data) :: survivors rest
  | .remove _ :: rest => survivors rest

/-- Edits drop the entries they remove and put the surviving ones behind the others. -/
theorem foldl_keep_eq (entries : List (Nat × α)) (edits : List (Edit α)) :
    edits.foldl (fun entries edit => edit.keep entries) entries =
      entries.filter (fun entry => !edits.any (Edit.removes entry.1)) ++ survivors edits := by
  induction edits generalizing entries with
  | nil => simp [survivors]
  | cons edit rest ih =>
    rw [List.foldl_cons, ih]
    cases edit with
    | append address data =>
      cases hrest : rest.any (Edit.removes address) <;>
        simp [Edit.keep, survivors, Edit.removes, List.filter_append, hrest]
    | remove address =>
      simp only [Edit.keep, survivors, List.filter_filter]
      congr 2
      funext entry
      simp [Edit.removes, Bool.and_comm, eq_comm]

/-- One legal edit acts on the sequence, the chain and the memory in the same way. -/
theorem Edit.run_isSequence {edit : Edit α} {list : Shared α} (h : IsSequence chain entries)
    (shows : list.Shows chain) (legal : edit.Legal entries) :
    IsSequence (edit.run chain) (edit.keep entries) ∧ (edit.write list).Shows (edit.run chain) := by
  cases edit with
  | append address data => exact ⟨h.append legal data, shows.append h legal data⟩
  | remove address =>
    obtain ⟨⟨_, data⟩, hmem, rfl⟩ := List.mem_map.1 legal
    obtain ⟨before, after, hentries, hlist, hseq⟩ := h.toList_remove_middle hmem
    have hfound := (hentries ▸ h).find?_middle
    rw [h.toList_remove hmem] at hseq
    exact ⟨hseq, shows.remove hfound⟩

/-- Legal edits act on the sequence, the chain and the memory in the same way. -/
theorem edited_isSequence {list : Shared α} (edits : List (Edit α)) (h : IsSequence chain entries)
    (shows : list.Shows chain) (legal : LegalFrom entries edits) :
    IsSequence (chain.edited edits)
        (edits.foldl (fun entries edit => edit.keep entries) entries) ∧
      (list.edited edits).Shows (chain.edited edits) := by
  induction edits generalizing chain list entries with
  | nil => exact ⟨h, shows⟩
  | cons edit rest ih =>
    obtain ⟨hnext, hshows⟩ := Edit.run_isSequence h shows legal.1
    exact ih hnext hshows legal.2

/-- After any legal edits of an empty chain, whatever was in memory before, the chain and its
memory stand for what was appended and not removed since, in the order in which it was appended. -/
theorem edited_represents (edits : List (Edit α)) (memory : Nat → Option (Node α))
    (legal : LegalFrom [] edits) :
    let chain := (empty : Chain α).edited edits
    let list := (Shared.empty memory).edited edits
    chain.toList = survivors edits ∧
      chain.toListReverse = (survivors edits).reverse ∧
      (chain.isEmpty ↔ survivors edits = []) ∧
      Represents chain.find? chain.head chain.tail chain.length (survivors edits) ∧
      Represents list.memory list.head list.tail list.length (survivors edits) := by
  intro chain list
  obtain ⟨hseq, hshows⟩ :=
    edited_isSequence edits isSequence_empty (Shared.shows_empty memory) legal
  rw [foldl_keep_eq, List.filter_nil, List.nil_append] at hseq
  refine ⟨hseq.toList_eq, hseq.toListReverse_eq, ?_, hseq.represents, hshows.represents hseq⟩
  rw [isEmpty, decide_eq_true_iff, hseq.length, List.length_eq_zero_iff]

/-- A middle node, the head and the only node leave, and addresses are used again while the memory
still has the nodes that were there. -/
theorem edited_represents_again :
    let edits : List (Edit Char) :=
      [.append 16 'a', .append 32 'b', .append 48 'c', .remove 32, .remove 16, .remove 48,
        .append 32 'd', .append 16 'e', .append 64 'f', .remove 64]
    LegalFrom [] edits ∧ survivors edits = [(32, 'd'), (16, 'e')] ∧
      (((Shared.empty fun _ => none).edited edits).memory 64).map Node.prev = some (some 16) ∧
      ((empty : Chain Char).edited edits).toList = [(32, 'd'), (16, 'e')] :=
  have hlegal := by decide
  ⟨hlegal, by decide, by decide, (edited_represents _ (fun _ => none) hlegal).1⟩

end PagedAlloc.Chain
