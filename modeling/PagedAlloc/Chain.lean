/-!
# Chains

A doubly linked chain of nodes that live at addresses. A node holds the addresses of its neighbours,
so a node is appended or removed by changing links only, wherever in the chain it is. Nobody else
owns the nodes: appending takes the contents of a node in, removing forgets them.

The view of a chain is `toList`, its addresses and contents from the head along the `next` links.
-/

namespace PagedAlloc

/-- A link of a chain with its contents. -/
structure Chain.Node (α : Type) where
  /-- Address of the following node. -/
  next : Option Nat
  /-- Address of the preceding node. -/
  prev : Option Nat
  /-- Contents. -/
  data : α
  deriving Repr

/-- Nodes that are linked in both directions. -/
structure Chain (α : Type) where
  /-- Address of the first node. -/
  head : Option Nat
  /-- Address of the last node. -/
  tail : Option Nat
  /-- Number of nodes. -/
  length : Nat
  /-- The nodes at their addresses. -/
  nodes : List (Nat × Chain.Node α)
  deriving Repr

namespace Chain

/-- The chain without nodes. -/
def empty : Chain α := ⟨none, none, 0, []⟩

/-- Whether there is no node. -/
def isEmpty (chain : Chain α) : Bool := chain.length = 0

/-- The node at an address. -/
def find? (chain : Chain α) (address : Nat) : Option (Node α) := chain.nodes.lookup address

/-- The contents of the node at an address. -/
def get? (chain : Chain α) (address : Nat) : Option α := (chain.find? address).map Node.data

/-- Changes the node at an address. -/
def alter (address : Nat) (change : Node α → Node α) (nodes : List (Nat × Node α)) :
    List (Nat × Node α) :=
  nodes.map fun (here, node) => (here, if here = address then change node else node)

/-- Changes the node at an address, if there is an address. -/
def alter? (address : Option Nat) (change : Node α → Node α) (nodes : List (Nat × Node α)) :
    List (Nat × Node α) :=
  match address with
  | some address => alter address change nodes
  | none => nodes

/-- Forgets the node at an address. -/
def erase (address : Nat) (nodes : List (Nat × Node α)) : List (Nat × Node α) :=
  nodes.filter fun entry => entry.1 ≠ address

/-- Replaces the contents of the node at an address. -/
def put (chain : Chain α) (address : Nat) (data : α) : Chain α :=
  { chain with nodes := alter address (fun node => { node with data := data }) chain.nodes }

/-- Puts a node at an address behind the last one. -/
def append (chain : Chain α) (address : Nat) (data : α) : Chain α where
  head := if chain.tail.isSome then chain.head else some address
  tail := some address
  length := chain.length + 1
  nodes :=
    (address, ⟨none, chain.tail, data⟩) ::
      alter? chain.tail (fun node => { node with next := some address })
        (erase address chain.nodes)

/-- Takes the node at an address out. -/
def remove (chain : Chain α) (address : Nat) : Chain α :=
  match chain.find? address with
  | none => chain
  | some node =>
    { head := if node.prev.isSome then chain.head else node.next
      tail := if node.next.isSome then chain.tail else node.prev
      length := chain.length - 1
      nodes :=
        erase address <|
          alter? node.next (fun after => { after with prev := node.prev }) <|
            alter? node.prev (fun before => { before with next := node.next }) chain.nodes }

/-- The nodes from an address along a link, at most as many as `bound`. -/
def walk (chain : Chain α) (link : Node α → Option Nat) :
    (bound : Nat) → Option Nat → List (Nat × α)
  | 0, _ => []
  | _, none => []
  | bound + 1, some address =>
    match chain.find? address with
    | none => []
    | some node => (address, node.data) :: chain.walk link bound (link node)

/-- The addresses and contents from the head along the `next` links. -/
def toList (chain : Chain α) : List (Nat × α) :=
  chain.walk Node.next chain.nodes.length chain.head

/-- The addresses and contents from the tail along the `prev` links. -/
def toListReverse (chain : Chain α) : List (Nat × α) :=
  chain.walk Node.prev chain.nodes.length chain.tail

/-- The addresses of the nodes, in order. -/
def addresses (chain : Chain α) : List Nat := chain.toList.map Prod.fst

end Chain

end PagedAlloc
