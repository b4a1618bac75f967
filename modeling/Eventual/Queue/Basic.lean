import Eventual.Routine

/-!
# The linked queue

A first-in first-out queue as a singly linked list behind a sentinel that holds
no payload and is never unlinked. The sentinel is installed by the first append.
Each node carries a tag that works as a small lock: an append locks the last
node before it links behind it, and a take locks the sentinel and the first node
before it unlinks that node. An unlinked node keeps the tag of its take for
good, so whoever still holds a stale reference to it fails to lock it and starts
again from the sentinel.

Nodes live in an array and are named by their index. A node comes into being in
the step that links it, for nobody else can name it before, and an index is
never used twice. Hence a link always leads to a larger index.

`Queue.toList` is what the queue holds, front to back. `Queue.AtRest` is the
condition between operations: nothing that is linked is locked, and everything
unlinked is locked for good and cut off.
-/

namespace Eventual

/-- Who, if anybody, has locked a node. -/
inductive Tag where
  | chained
  | appending
  | popping
  deriving DecidableEq, Inhabited

/-- A node: its payload until that is taken, the next node, and its tag. -/
structure Node (α : Type) where
  payload : Option α := none
  next : Option Nat := none
  tag : Tag := .chained
  deriving Inhabited

/-- A queue: the sentinel, once installed, and all nodes that ever were linked. -/
structure Queue (α : Type) where
  head : Option Nat := none
  nodes : Array (Node α) := #[]
  deriving Inhabited

namespace Queue

variable {α : Type}

/-- The node that follows a node. -/
def next? (q : Queue α) (i : Nat) : Option Nat := q.nodes[i]?.bind Node.next

/-- The tag of a node. -/
def tag? (q : Queue α) (i : Nat) : Option Tag := q.nodes[i]?.map Node.tag

/-- The payload that is still in a node. -/
def payload? (q : Queue α) (i : Nat) : Option α := q.nodes[i]?.bind Node.payload

/-- Change one node. -/
def update (q : Queue α) (i : Nat) (f : Node α → Node α) : Queue α :=
  { q with nodes := q.nodes.modify i f }

/-- Make `n` follow the node. -/
def setNext (q : Queue α) (i : Nat) (n : Option Nat) : Queue α :=
  q.update i fun node => { node with next := n }

/-- Give the node a tag. -/
def setTag (q : Queue α) (i : Nat) (t : Tag) : Queue α :=
  q.update i fun node => { node with tag := t }

/-- Empty the node. -/
def clearPayload (q : Queue α) (i : Nat) : Queue α :=
  q.update i fun node => { node with payload := none }

/-- Exchange the tag `chained` for `t`, if the node has it. -/
def tryLock (q : Queue α) (i : Nat) (t : Tag) : Queue α × Bool :=
  if q.tag? i = some .chained then (q.setTag i t, true) else (q, false)

/-- Bring a node into being. Its index is the number of nodes before it. -/
def allocate (q : Queue α) (node : Node α) : Queue α :=
  { q with nodes := q.nodes.push node }

/-- At most `fuel` nodes, from the given one along the links. -/
def follow (q : Queue α) : (fuel : Nat) → Option Nat → List Nat
  | 0, _ | _, none => []
  | fuel + 1, some i => i :: q.follow fuel (q.next? i)

/-- The linked nodes, front to back, without the sentinel. -/
def linked (q : Queue α) : List Nat :=
  match q.head with
  | none => []
  | some sentinel => q.follow q.nodes.size (q.next? sentinel)

/-- What the queue holds, front to back. -/
def toList (q : Queue α) : List α := q.linked.filterMap q.payload?

/-- How many nodes are linked. -/
def length (q : Queue α) : Nat := q.linked.length

/-- Whether nothing is linked. -/
def isEmpty (q : Queue α) : Bool :=
  match q.head with
  | none => true
  | some sentinel => (q.next? sentinel).isNone

/-- A queue on which no operation is under way: the sentinel and all linked
nodes are unlocked, every linked node holds a payload, links lead to larger
indices, and every other node is locked for good, cut off and empty. -/
structure AtRest (q : Queue α) : Prop where
  head_eq : q.head = if q.nodes.size = 0 then none else some 0
  sentinel : ∀ node ∈ q.nodes[0]?, node.tag = .chained ∧ node.payload = none
  ascending : ∀ i j, q.next? i = some j → i < j ∧ j < q.nodes.size
  linked_node : ∀ i ∈ q.linked, ∀ node ∈ q.nodes[i]?, node.tag = .chained ∧ node.payload.isSome
  unlinked_node : ∀ i, i ≠ 0 → i ∉ q.linked →
    ∀ node ∈ q.nodes[i]?, node.tag = .popping ∧ node.next = none ∧ node.payload = none

end Queue

end Eventual
