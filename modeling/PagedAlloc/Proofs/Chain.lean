import PagedAlloc.Chain
import Mathlib.Data.List.Induction
import Mathlib.Data.List.Nodup

/-!
# Chains as sequences

`IsSequence chain entries` says that the nodes of a chain and its two ends stand for a list: every
node holds its contents and the addresses of its neighbours in the list, and there are no other
nodes. Main statements: the walks in both directions give the list (`IsSequence.toList_eq`,
`IsSequence.toListReverse_eq`), and every operation acts on it as its name says
(`IsSequence.put`, `IsSequence.append`, `IsSequence.remove`).
-/

namespace PagedAlloc.Chain

variable {α : Type} {chain : Chain α} {entries : List (Nat × α)} {address : Nat} {data : α}

/-- Address of the first entry, or `next` if there is none. -/
def frontOr (next : Option Nat) (entries : List (Nat × α)) : Option Nat :=
  (entries.head?.map Prod.fst).or next

/-- Address of the last entry, or `prev` if there is none. -/
def backOr (prev : Option Nat) (entries : List (Nat × α)) : Option Nat :=
  (entries.getLast?.map Prod.fst).or prev

/-- The nodes of the entries hold their contents and are linked in both directions, with `prev` in
front of the first one and `next` behind the last one. -/
def Linked (find : Nat → Option (Node α)) (next : Option Nat) :
    (prev : Option Nat) → List (Nat × α) → Prop
  | _, [] => True
  | prev, (address, data) :: rest =>
    find address = some ⟨frontOr next rest, prev, data⟩ ∧ Linked find next (some address) rest

/-- A chain stands for a list of contents at distinct addresses. -/
structure IsSequence (chain : Chain α) (entries : List (Nat × α)) : Prop where
  linked : Linked chain.find? none none entries
  head : chain.head = frontOr none entries
  tail : chain.tail = backOr none entries
  length : chain.length = entries.length
  distinct : (entries.map Prod.fst).Nodup
  keys : (chain.nodes.map Prod.fst).Perm (entries.map Prod.fst)

/-- The entries after the contents at an address are replaced. -/
def replaced (address : Nat) (data : α) (entries : List (Nat × α)) : List (Nat × α) :=
  entries.map fun entry => if entry.1 = address then (entry.1, data) else entry

/-! ## Ends of lists -/

@[simp]
theorem frontOr_nil (next : Option Nat) : frontOr next ([] : List (Nat × α)) = next := rfl

@[simp]
theorem frontOr_cons (next : Option Nat) (entry : Nat × α) (rest : List (Nat × α)) :
    frontOr next (entry :: rest) = some entry.1 := rfl

theorem frontOr_append (next : Option Nat) (a b : List (Nat × α)) :
    frontOr next (a ++ b) = frontOr (frontOr next b) a := by
  cases a <;> simp

@[simp]
theorem backOr_nil (prev : Option Nat) : backOr prev ([] : List (Nat × α)) = prev := rfl

@[simp]
theorem backOr_cons (prev : Option Nat) (entry : Nat × α) (rest : List (Nat × α)) :
    backOr prev (entry :: rest) = backOr (some entry.1) rest := by
  cases rest with
  | nil => rfl
  | cons second rest => simp [backOr, List.getLast?_cons]

theorem backOr_append (prev : Option Nat) (a b : List (Nat × α)) :
    backOr prev (a ++ b) = backOr (backOr prev a) b := by
  induction a generalizing prev with
  | nil => rfl
  | cons entry rest ih => simp [ih]

/-- The front of a sequence is one of its addresses. -/
theorem mem_of_frontOr_eq_some (h : frontOr none entries = some address) :
    address ∈ entries.map Prod.fst := by
  cases entries with
  | nil => simp at h
  | cons entry rest => simp_all

/-- The back of a sequence is one of its addresses. -/
theorem mem_of_backOr_eq_some (h : backOr none entries = some address) :
    address ∈ entries.map Prod.fst := by
  rcases List.eq_nil_or_concat entries with rfl | ⟨init, entry, rfl⟩
  · simp at h
  · simp_all [backOr_append]

/-- Only an empty sequence has no back. -/
theorem backOr_eq_none_iff {prev : Option Nat} :
    backOr prev entries = none ↔ entries = [] ∧ prev = none := by
  induction entries generalizing prev with
  | nil => simp
  | cons entry rest ih => simp [ih]

/-! ## Links -/

section Links

variable {find find' : Nat → Option (Node α)} {next prev : Option Nat}

/-- A sequence is linked just if its parts are, each to the end of the other. -/
theorem linked_append (a b : List (Nat × α)) :
    Linked find next prev (a ++ b) ↔
      Linked find (frontOr next b) prev a ∧ Linked find next (backOr prev a) b := by
  induction a generalizing prev with
  | nil => simp [Linked]
  | cons entry rest ih =>
    obtain ⟨address, data⟩ := entry
    simp only [List.cons_append, Linked, frontOr_append, ih, backOr_cons]
    exact and_assoc.symm

/-- Links depend on nothing but the nodes of the sequence. -/
theorem Linked.congr (h : Linked find next prev entries)
    (same : ∀ entry ∈ entries, find' entry.1 = find entry.1) :
    Linked find' next prev entries := by
  induction entries generalizing prev with
  | nil => trivial
  | cons entry rest ih =>
    obtain ⟨address, data⟩ := entry
    refine ⟨?_, ih h.2 fun entry hmem => same entry (List.mem_cons_of_mem _ hmem)⟩
    rw [same (address, data) (List.mem_cons_self ..)]
    exact h.1

/-- Linking the last node to another one behind it. -/
theorem Linked.retarget_next (h : Linked find next prev entries)
    (distinct : (entries.map Prod.fst).Nodup) (target : Option Nat)
    (same : ∀ entry ∈ entries, find' entry.1 =
      if backOr none entries = some entry.1 then
        (find entry.1).map fun node => { node with next := target }
      else find entry.1) :
    Linked find' target prev entries := by
  rcases List.eq_nil_or_concat entries with rfl | ⟨init, ⟨address, data⟩, rfl⟩
  · trivial
  rw [List.concat_eq_append] at *
  rw [linked_append] at h ⊢
  rw [List.map_append, List.nodup_append] at distinct
  have hback : backOr none (init ++ [(address, data)]) = some address := by
    simp [backOr_append]
  refine ⟨h.1.congr ?_, ?_, trivial⟩
  · intro entry hmem
    rw [same entry (List.mem_append_left _ hmem), hback, if_neg]
    rintro ⟨rfl⟩
    exact distinct.2.2 entry.1 (List.mem_map_of_mem hmem) entry.1 (by simp) rfl
  · rw [same (address, data) (by simp), hback, if_pos rfl, h.2.1]
    rfl

/-- Linking the first node to another one in front of it. -/
theorem Linked.retarget_prev (h : Linked find next prev entries)
    (distinct : (entries.map Prod.fst).Nodup) (target : Option Nat)
    (same : ∀ entry ∈ entries, find' entry.1 =
      if frontOr none entries = some entry.1 then
        (find entry.1).map fun node => { node with prev := target }
      else find entry.1) :
    Linked find' next target entries := by
  cases entries with
  | nil => trivial
  | cons entry rest =>
    obtain ⟨address, data⟩ := entry
    refine ⟨?_, h.2.congr ?_⟩
    · rw [same (address, data) (List.mem_cons_self ..), frontOr_cons, if_pos rfl, h.1]
      rfl
    · intro entry hmem
      rw [same entry (List.mem_cons_of_mem _ hmem), frontOr_cons, if_neg]
      intro heq
      rw [List.map_cons, List.nodup_cons] at distinct
      exact distinct.1 (List.mem_map.2 ⟨entry, hmem, (Option.some.inj heq).symm⟩)

end Links

/-! ## Stored nodes -/

/-- A change at one address is seen there only. -/
theorem lookup_alter (change : Node α → Node α) (nodes : List (Nat × Node α)) (here : Nat) :
    (alter address change nodes).lookup here =
      if address = here then (nodes.lookup here).map change else nodes.lookup here := by
  induction nodes with
  | nil => simp [alter]
  | cons entry rest ih =>
    obtain ⟨key, node⟩ := entry
    unfold alter at ih ⊢
    rw [List.map_cons, List.lookup_cons, List.lookup_cons]
    by_cases hkey : here = key
    · subst hkey
      by_cases hhere : here = address
      · simp [hhere]
      · simp [hhere, Ne.symm hhere]
    · simpa [beq_eq_false_iff_ne.2 hkey] using ih

theorem lookup_alter? (place : Option Nat) (change : Node α → Node α)
    (nodes : List (Nat × Node α)) (here : Nat) :
    (alter? place change nodes).lookup here =
      if place = some here then (nodes.lookup here).map change else nodes.lookup here := by
  cases place with
  | none => simp [alter?]
  | some place => simpa [alter?] using lookup_alter change nodes here

/-- A node that was erased is gone, and no other is. -/
theorem lookup_erase (nodes : List (Nat × Node α)) (here : Nat) :
    (erase address nodes).lookup here = if here = address then none else nodes.lookup here := by
  induction nodes with
  | nil => simp [erase]
  | cons entry rest ih =>
    obtain ⟨key, node⟩ := entry
    unfold erase at ih ⊢
    by_cases hdrop : key = address
    · subst hdrop
      rw [List.filter_cons_of_neg (by simp), ih]
      by_cases hhere : here = key
      · simp [hhere]
      · simp [hhere, List.lookup_cons, beq_eq_false_iff_ne.2 hhere]
    · rw [List.filter_cons_of_pos (by simpa using hdrop), List.lookup_cons, List.lookup_cons]
      by_cases hhere : here = key
      · subst hhere
        simp [hdrop]
      · simpa [beq_eq_false_iff_ne.2 hhere] using ih

@[simp]
theorem keys_alter (change : Node α → Node α) (nodes : List (Nat × Node α)) :
    (alter address change nodes).map Prod.fst = nodes.map Prod.fst := by
  simp [alter, Function.comp_def]

@[simp]
theorem keys_alter? (place : Option Nat) (change : Node α → Node α)
    (nodes : List (Nat × Node α)) :
    (alter? place change nodes).map Prod.fst = nodes.map Prod.fst := by
  cases place with
  | none => rfl
  | some place => exact keys_alter change nodes

theorem keys_erase (nodes : List (Nat × Node α)) :
    (erase address nodes).map Prod.fst = (nodes.map Prod.fst).filter (· ≠ address) := by
  rw [erase, List.filter_map]
  rfl

theorem filter_of_absent {keys : List Nat} (absent : address ∉ keys) :
    keys.filter (· ≠ address) = keys := by
  apply List.filter_eq_self.2
  intro key hkey
  simp only [ne_eq, decide_not, Bool.not_eq_true', decide_eq_false_iff_not]
  rintro rfl
  exact absent hkey

/-! ## Sequences -/

/-- New contents are found at their address, with the links that were there. -/
theorem find?_put (chain : Chain α) (here : Nat) :
    (chain.put address data).find? here =
      if address = here then (chain.find? here).map fun node => { node with data := data }
      else chain.find? here := by
  rw [find?, put, lookup_alter]
  rfl

/-- Appending a node changes the node that was last before. -/
theorem find?_append (chain : Chain α) (here : Nat) :
    (chain.append address data).find? here =
      if here = address then some ⟨none, chain.tail, data⟩
      else if chain.tail = some here then
        (chain.find? here).map fun node => { node with next := some address }
      else chain.find? here := by
  rw [find?, append, List.lookup_cons, lookup_alter?, lookup_erase]
  by_cases hhere : here = address
  · simp [hhere]
  · simp [hhere, beq_eq_false_iff_ne.2 hhere, find?]

/-- Removing a node changes the two nodes beside it. -/
theorem find?_remove {node : Node α} (found : chain.find? address = some node) (here : Nat) :
    (chain.remove address).find? here =
      if here = address then none
      else
        let before := if node.prev = some here then
            (chain.find? here).map fun before => { before with next := node.next }
          else chain.find? here
        if node.next = some here then before.map fun after => { after with prev := node.prev }
        else before := by
  simp only [remove, found]
  rw [find?, lookup_erase, lookup_alter?, lookup_alter?]
  rfl

namespace IsSequence

theorem find?_eq_none (h : IsSequence chain entries) (absent : address ∉ entries.map Prod.fst) :
    chain.find? address = none := by
  rw [find?, List.lookup_eq_none_iff]
  intro entry hmem
  rw [bne_iff_ne]
  rintro rfl
  exact absent (h.keys.mem_iff.1 (List.mem_map_of_mem hmem))

/-- The node in the middle of a sequence. -/
theorem find?_middle {before after : List (Nat × α)}
    (h : IsSequence chain (before ++ (address, data) :: after)) :
    chain.find? address = some ⟨frontOr none after, backOr none before, data⟩ :=
  ((linked_append _ _).1 h.linked).2.1

/-- The contents at an address are those of its entry. -/
theorem get?_eq_some_iff (h : IsSequence chain entries) :
    chain.get? address = some data ↔ (address, data) ∈ entries := by
  constructor
  · intro hget
    by_contra hmem
    have hkey : address ∈ entries.map Prod.fst := by
      by_contra hkey
      rw [get?, h.find?_eq_none hkey] at hget
      simp at hget
    obtain ⟨⟨_, other⟩, hother, rfl⟩ := List.mem_map.1 hkey
    obtain ⟨before, after, rfl⟩ := List.append_of_mem hother
    rw [get?, h.find?_middle] at hget
    obtain rfl : other = data := by simpa using hget
    exact hmem hother
  · intro hmem
    obtain ⟨before, after, rfl⟩ := List.append_of_mem hmem
    rw [get?, h.find?_middle]
    rfl

/-- There are as many nodes as entries. -/
theorem length_nodes (h : IsSequence chain entries) : chain.nodes.length = entries.length := by
  simpa using h.keys.length_eq

end IsSequence

/-- The walk forward along a linked list gives the list. -/
theorem walk_next_eq {prev : Option Nat} (h : Linked chain.find? none prev entries) {bound : Nat}
    (enough : entries.length ≤ bound) :
    chain.walk Node.next bound (frontOr none entries) = entries := by
  induction entries generalizing prev bound with
  | nil => cases bound <;> rfl
  | cons entry rest ih =>
    obtain ⟨address, data⟩ := entry
    cases bound with
    | zero => simp at enough
    | succ bound => simp [walk, h.1, ih h.2 (by simpa using enough)]

/-- The walk backward along a linked list gives the reversed list. -/
theorem walk_prev_eq {next : Option Nat} (h : Linked chain.find? next none entries) {bound : Nat}
    (enough : entries.length ≤ bound) :
    chain.walk Node.prev bound (backOr none entries) = entries.reverse := by
  induction entries using List.reverseRecOn generalizing next bound with
  | nil => cases bound <;> rfl
  | append_singleton init entry ih =>
    obtain ⟨address, data⟩ := entry
    rw [linked_append] at h
    cases bound with
    | zero => simp at enough
    | succ bound =>
      simp [backOr_append, walk, h.2.1, ih h.1 (by simpa using enough)]

namespace IsSequence

/-- The walk forward gives the entries in order. -/
theorem toList_eq (h : IsSequence chain entries) : chain.toList = entries := by
  rw [toList, h.head]
  exact walk_next_eq h.linked (Nat.le_of_eq h.length_nodes.symm)

/-- The walk backward gives the entries in reverse order. -/
theorem toListReverse_eq (h : IsSequence chain entries) :
    chain.toListReverse = entries.reverse := by
  rw [toListReverse, h.tail]
  exact walk_prev_eq h.linked (Nat.le_of_eq h.length_nodes.symm)

/-- The addresses of a chain are those of its entries, in their order. -/
theorem addresses_eq (h : IsSequence chain entries) :
    chain.addresses = entries.map Prod.fst := by
  rw [addresses, h.toList_eq]

end IsSequence

/-! ## Operations -/

theorem isSequence_empty : IsSequence (empty : Chain α) [] :=
  ⟨trivial, rfl, rfl, rfl, List.nodup_nil, List.Perm.refl _⟩

@[simp]
theorem map_fst_replaced : (replaced address data entries).map Prod.fst = entries.map Prod.fst := by
  simp only [replaced, List.map_map]
  apply List.map_congr_left
  intro entry _
  simp only [Function.comp]
  split <;> rfl

theorem frontOr_replaced (address : Nat) (data : α) (entries : List (Nat × α)) (next : Option Nat) :
    frontOr next (replaced address data entries) = frontOr next entries := by
  simp only [frontOr, ← List.head?_map, map_fst_replaced]

theorem backOr_replaced (address : Nat) (data : α) (entries : List (Nat × α)) (prev : Option Nat) :
    backOr prev (replaced address data entries) = backOr prev entries := by
  simp only [backOr, ← List.getLast?_map, map_fst_replaced]

/-- New contents leave the links as they are. -/
theorem Linked.replaced {next prev : Option Nat} (h : Linked chain.find? next prev entries) :
    Linked (chain.put address data).find? next prev (Chain.replaced address data entries) := by
  induction entries generalizing prev with
  | nil => trivial
  | cons entry rest ih =>
    obtain ⟨here, old⟩ := entry
    have hfront := frontOr_replaced address data rest next
    unfold Chain.replaced at ih hfront ⊢
    by_cases hhere : here = address
    · subst hhere
      simp only [List.map_cons, if_true, Linked, find?_put, h.1, hfront, Option.map_some]
      exact ⟨trivial, ih h.2⟩
    · simp only [List.map_cons, if_neg hhere, if_neg (Ne.symm hhere), Linked, find?_put, h.1,
        hfront]
      exact ⟨trivial, ih h.2⟩

namespace IsSequence

/-- Replacing the contents at an address. -/
theorem put (h : IsSequence chain entries) (address : Nat) (data : α) :
    IsSequence (chain.put address data) (replaced address data entries) where
  linked := h.linked.replaced
  head := h.head.trans (frontOr_replaced ..).symm
  tail := h.tail.trans (backOr_replaced ..).symm
  length := h.length.trans (by simp [replaced])
  distinct := by simpa using h.distinct
  keys := by simpa [Chain.put] using h.keys

/-- Appending contents at a new address. -/
theorem append (h : IsSequence chain entries) (absent : address ∉ entries.map Prod.fst)
    (data : α) : IsSequence (chain.append address data) (entries ++ [(address, data)]) where
  linked := by
    rw [linked_append]
    refine ⟨h.linked.retarget_next h.distinct (some address) ?_, ?_, trivial⟩
    · -- the last node gets the new address as its next one, and it alone
      intro entry hmem
      have hother : entry.1 ≠ address := fun heq => absent (heq ▸ List.mem_map_of_mem hmem)
      rw [find?_append, if_neg hother, h.tail]
    · rw [find?_append, if_pos rfl, h.tail]
      rfl
  head := by
    rw [frontOr_append, Chain.append, h.tail, h.head]
    cases entries with
    | nil => rfl
    | cons entry rest => simp [Option.isSome_iff_ne_none, backOr_eq_none_iff]
  tail := by simp [backOr_append, Chain.append]
  length := by simp [Chain.append, h.length]
  distinct := by
    rw [List.map_append, List.nodup_append]
    refine ⟨h.distinct, List.nodup_singleton _, ?_⟩
    intro key hkey other hother heq
    rw [List.map_singleton, List.mem_singleton] at hother
    subst heq hother
    exact absent hkey
  keys := by
    have habsent : address ∉ chain.nodes.map Prod.fst := fun hkey =>
      absent (h.keys.mem_iff.1 hkey)
    rw [Chain.append, List.map_cons, keys_alter?, keys_erase, filter_of_absent habsent,
      List.map_append]
    exact (h.keys.cons address).trans (List.perm_append_singleton _ _).symm

/-- Removing an entry. -/
theorem remove {before after : List (Nat × α)}
    (h : IsSequence chain (before ++ (address, data) :: after)) :
    IsSequence (chain.remove address) (before ++ after) := by
  have hfound := h.find?_middle
  have hlinked := (linked_append _ _).1 h.linked
  have hkeys := h.distinct
  rw [List.map_append, List.map_cons, List.nodup_append, List.nodup_cons] at hkeys
  obtain ⟨hbefore, ⟨haddress, hafter⟩, happart⟩ := hkeys
  have hfind := fun here => find?_remove hfound here
  refine ⟨(linked_append _ _).2 ⟨?_, ?_⟩, ?_, ?_, ?_, ?_, ?_⟩
  · -- of the nodes in front only the last one is linked anew
    apply hlinked.1.retarget_next hbefore _
    intro entry hmem
    have hkey := List.mem_map_of_mem (f := Prod.fst) hmem
    have hfront : frontOr none after ≠ some entry.1 := fun heq =>
      happart _ hkey _ (List.mem_cons_of_mem _ (mem_of_frontOr_eq_some heq)) rfl
    rw [hfind, if_neg (happart _ hkey _ (List.mem_cons_self ..)), if_neg hfront]
  · -- and of those behind only the first one
    apply hlinked.2.2.retarget_prev hafter _
    intro entry hmem
    have hkey := List.mem_map_of_mem (f := Prod.fst) hmem
    have hback : backOr none before ≠ some entry.1 := fun heq =>
      happart _ (mem_of_backOr_eq_some heq) _ (List.mem_cons_of_mem _ hkey) rfl
    have hother : entry.1 ≠ address := fun heq => haddress (heq ▸ hkey)
    simp only [hfind, if_neg hother, if_neg hback]
  · have hhead := h.head
    simp only [Chain.remove, hfound, frontOr_append] at hhead ⊢
    cases before with
    | nil => simp
    | cons => simpa [Option.isSome_iff_ne_none, backOr_eq_none_iff] using hhead
  · have htail := h.tail
    simp only [Chain.remove, hfound, backOr_append] at htail ⊢
    cases after with
    | nil => simp
    | cons => simpa using htail
  · simp [Chain.remove, hfound, h.length]
  · rw [List.map_append, List.nodup_append]
    exact ⟨hbefore, hafter, fun key hkey other hother =>
      happart key hkey other (List.mem_cons_of_mem _ hother)⟩
  · have hkeep : ((before ++ (address, data) :: after).map Prod.fst).filter (· ≠ address) =
        (before ++ after).map Prod.fst := by
      have habsent : address ∉ before.map Prod.fst := fun hkey =>
        happart address hkey address (List.mem_cons_self ..) rfl
      rw [List.map_append, List.map_cons, List.filter_append, List.filter_cons_of_neg (by simp),
        List.map_append, filter_of_absent habsent, filter_of_absent haddress]
    simp only [Chain.remove, hfound]
    rw [keys_erase, keys_alter?, keys_alter?, ← hkeep]
    exact h.keys.filter _

end IsSequence

/-! ## Replacing contents twice -/

/-- Of two contents the second one counts. -/
theorem put_put (chain : Chain α) (address : Nat) (first second : α) :
    (chain.put address first).put address second = chain.put address second := by
  simp only [put, alter, List.map_map]
  congr 1
  apply List.map_congr_left
  intro entry _
  simp only [Function.comp]
  split <;> rfl

theorem alter_of_absent {nodes : List (Nat × Node α)} (absent : address ∉ nodes.map Prod.fst)
    (change : Node α → Node α) : alter address change nodes = nodes := by
  refine (List.map_congr_left ?_).trans (List.map_id _)
  intro entry hentry
  have hne : entry.1 ≠ address := fun heq => absent (heq ▸ List.mem_map_of_mem hentry)
  simp only [if_neg hne]
  rfl

/-- Replacing what was just appended. -/
theorem append_put (chain : Chain α) (address : Nat) (first second : α) :
    (chain.append address first).put address second = chain.append address second := by
  have habsent : address ∉ (alter? chain.tail (fun node => { node with next := some address })
      (erase address chain.nodes)).map Prod.fst := by
    rw [keys_alter?, keys_erase]
    simp
  have hrest := alter_of_absent habsent fun node => { node with data := second }
  rw [alter] at hrest
  simp only [put, append, alter, List.map_cons, hrest, if_true]

/-- What was put is found again. -/
theorem get?_put_self {old : α} (found : chain.get? address = some old) (data : α) :
    (chain.put address data).get? address = some data := by
  rw [get?, Option.map_eq_some_iff] at found
  obtain ⟨node, hnode, -⟩ := found
  rw [get?, find?_put, if_pos rfl, hnode]
  rfl

theorem lookup_eq_some_of_mem {nodes : List (Nat × α)} {node : α}
    (distinct : (nodes.map Prod.fst).Nodup) (hmem : (address, node) ∈ nodes) :
    nodes.lookup address = some node := by
  induction nodes with
  | nil => simp at hmem
  | cons entry rest ih =>
    obtain ⟨key, first⟩ := entry
    rw [List.map_cons, List.nodup_cons] at distinct
    rw [List.lookup_cons]
    rcases List.mem_cons.1 hmem with heq | hrest
    · obtain ⟨rfl, rfl⟩ := Prod.mk.inj heq
      simp
    · have hne : address ≠ key := fun heq =>
        distinct.1 (show key ∈ rest.map Prod.fst from heq ▸ List.mem_map_of_mem hrest)
      rw [beq_eq_false_iff_ne.2 hne]
      exact ih distinct.2 hrest

/-! ## Entries of a sequence -/

/-- Around an entry there are just those at other addresses. -/
theorem mem_around_iff {before after : List (Nat × α)}
    (distinct : ((before ++ (address, data) :: after).map Prod.fst).Nodup) {entry : Nat × α} :
    entry ∈ before ++ after ↔
      entry.1 ≠ address ∧ entry ∈ before ++ (address, data) :: after := by
  rw [List.map_append, List.map_cons, List.nodup_append, List.nodup_cons] at distinct
  obtain ⟨-, ⟨hafter, -⟩, hbefore⟩ := distinct
  simp only [List.mem_append, List.mem_cons]
  constructor
  · rintro (hin | hin)
    · exact ⟨hbefore _ (List.mem_map_of_mem hin) _ (List.mem_cons_self ..), Or.inl hin⟩
    · refine ⟨fun heq => hafter ?_, Or.inr (Or.inr hin)⟩
      have hkey : entry.1 ∈ after.map Prod.fst := List.mem_map_of_mem hin
      rwa [heq] at hkey
  · rintro ⟨hother, hin | rfl | hin⟩
    · exact Or.inl hin
    · exact absurd rfl hother
    · exact Or.inr hin

/-- Replacing an entry of a sequence leaves those in front of it and behind it. -/
theorem replaced_middle {before after : List (Nat × α)} {old : α}
    (distinct : ((before ++ (address, old) :: after).map Prod.fst).Nodup) (data : α) :
    replaced address data (before ++ (address, old) :: after) =
      before ++ (address, data) :: after := by
  rw [List.map_append, List.map_cons, List.nodup_append, List.nodup_cons] at distinct
  obtain ⟨-, ⟨haddress, -⟩, happart⟩ := distinct
  have hkeep : ∀ entries : List (Nat × α), address ∉ entries.map Prod.fst →
      replaced address data entries = entries := by
    intro entries habsent
    refine (List.map_congr_left fun entry hmem => if_neg ?_).trans (List.map_id _)
    intro heq
    exact habsent (heq ▸ List.mem_map_of_mem hmem)
  have hbefore := hkeep before fun hmem => happart _ hmem _ (List.mem_cons_self ..) rfl
  have hafter := hkeep after haddress
  rw [replaced] at hbefore hafter ⊢
  rw [List.map_append, List.map_cons, hbefore, hafter, if_pos rfl]

namespace IsSequence

/-- New contents change one entry of the sequence. -/
theorem toList_put (h : IsSequence chain entries) (address : Nat) (data : α) :
    (chain.put address data).toList = replaced address data entries :=
  (h.put address data).toList_eq

/-- Putting back what is there changes nothing. -/
theorem put_self (h : IsSequence chain entries) (hmem : (address, data) ∈ entries) :
    chain.put address data = chain := by
  have hfound := h.get?_eq_some_iff.2 hmem
  have hdistinct := h.keys.nodup_iff.2 h.distinct
  suffices hnodes : alter address (fun node => { node with data := data }) chain.nodes =
      chain.nodes by rw [Chain.put, hnodes]
  refine (List.map_congr_left ?_).trans (List.map_id _)
  intro entry hentry
  obtain ⟨key, node⟩ := entry
  simp only
  split
  · rename_i heq
    subst heq
    simp only [get?, find?, lookup_eq_some_of_mem hdistinct hentry, Option.map_some,
      Option.some.injEq] at hfound
    rw [← hfound]
    rfl
  · rfl

/-- What a chain holds after the contents of one node were replaced. -/
theorem toList_put_middle (h : IsSequence chain entries) (hmem : (address, data) ∈ entries)
    (data' : α) :
    ∃ before after, entries = before ++ (address, data) :: after ∧
      (chain.put address data').toList = before ++ (address, data') :: after := by
  obtain ⟨before, after, rfl⟩ := List.append_of_mem hmem
  exact ⟨before, after, rfl, (h.toList_put address data').trans (replaced_middle h.distinct data')⟩

/-- The entries after new contents are put are the new one and all others. -/
theorem mem_put_iff (h : IsSequence chain entries) (hmem : (address, data) ∈ entries) {data' : α}
    {entry : Nat × α} :
    entry ∈ (chain.put address data').toList ↔
      entry = (address, data') ∨ entry.1 ≠ address ∧ entry ∈ entries := by
  obtain ⟨before, after, rfl, hnew⟩ := h.toList_put_middle hmem data'
  rw [hnew, ← mem_around_iff h.distinct]
  simp only [List.mem_append, List.mem_cons]
  exact or_left_comm

/-- What a chain holds after a node left it. -/
theorem toList_remove_middle (h : IsSequence chain entries) (hmem : (address, data) ∈ entries) :
    ∃ before after, entries = before ++ (address, data) :: after ∧
      (chain.remove address).toList = before ++ after ∧
      (chain.remove address).IsSequence (chain.remove address).toList := by
  obtain ⟨before, after, rfl⟩ := List.append_of_mem hmem
  have hlist := h.remove.toList_eq
  exact ⟨before, after, rfl, hlist, hlist ▸ h.remove⟩

/-- The entries after a removal are all others. -/
theorem mem_remove_iff (h : IsSequence chain entries) (hmem : (address, data) ∈ entries)
    {entry : Nat × α} :
    entry ∈ (chain.remove address).toList ↔ entry.1 ≠ address ∧ entry ∈ entries := by
  obtain ⟨before, after, rfl, hlist, -⟩ := h.toList_remove_middle hmem
  rw [hlist, mem_around_iff h.distinct]

/-- A node that leaves a chain leaves the others in their order. -/
theorem toList_remove (h : IsSequence chain entries) (hmem : (address, data) ∈ entries) :
    (chain.remove address).toList = entries.filter fun entry => entry.1 ≠ address := by
  obtain ⟨before, after, rfl, hlist, -⟩ := h.toList_remove_middle hmem
  have hother : ∀ entry ∈ before ++ after, decide (entry.1 ≠ address) = true := fun entry hentry =>
    decide_eq_true ((mem_around_iff h.distinct).1 hentry).1
  rw [hlist, List.filter_append, List.filter_cons_of_neg (by simp), ← List.filter_append,
    List.filter_eq_self.2 hother]

/-- Each address of a sequence has one content. -/
theorem mem_unique (h : IsSequence chain entries) {a b : α} (ha : (address, a) ∈ entries)
    (hb : (address, b) ∈ entries) : a = b :=
  Option.some.inj ((h.get?_eq_some_iff.2 ha).symm.trans (h.get?_eq_some_iff.2 hb))

end IsSequence

end PagedAlloc.Chain
