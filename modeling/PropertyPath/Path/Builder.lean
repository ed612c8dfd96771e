import PropertyPath.Path.Tree

/-!
# Building trees node by node

A builder is a growing list of numbered nodes. Its nodes may be shared, dangling or never used: what
counts is the tree that unfolds from the root, and `finish` accepts it when every node of it is in
order. An item has to be added before the node that uses it, so the unfolding ends. As it goes the
unfolding is listed under new numbers, and it is limited how many nodes are listed.
-/
namespace PropertyPath

namespace TreeEntry

/-- What is asked of a node alone: a property, or as many operands as its operator takes. -/
def check (id : NodeId) : TreeEntry → Except PathFault Unit
  | property set =>
      if set.properties.isEmpty then .error (.malformedNode id .emptyPropertySet) else .ok ()
  | path operator items =>
      if operator.isUnary && items.length != 1 then
        .error (.malformedNode id (.operandCount operator items.length))
      else if items.isEmpty then .error (.malformedNode id (.noOperand operator))
      else .ok ()

/-- The same node with other numbers for its items. -/
def withItems (ids : List NodeId) : TreeEntry → TreeEntry
  | property set => .property set
  | path operator _ => .path operator ids

end TreeEntry

/-- Lists nodes one after the other, each under the number of the nodes before it. -/
abbrev Numbering := StateT (List TreeEntry) (Except PathFault)

/-- Lists a node that had the given number before, unless as many nodes are listed as there may
be. -/
def Numbering.list (limit : Nat) (id : NodeId) (entry : TreeEntry) :
    Numbering NodeId := fun listed =>
  if limit ≤ listed.length then .error (.malformedNode id (.tooManyNodes limit))
  else .ok (⟨listed.length⟩, listed ++ [entry])

structure TreeBuilder where
  entries : List TreeEntry
  deriving DecidableEq, Repr

namespace TreeBuilder

def empty : TreeBuilder := ⟨[]⟩

def node? (b : TreeBuilder) (id : NodeId) : Option TreeEntry := b.entries[id.index]?

/-- Adds one node and tells its identifier. -/
def push (b : TreeBuilder) (entry : TreeEntry) : TreeBuilder × NodeId :=
  (⟨b.entries ++ [entry]⟩, ⟨b.entries.length⟩)

def property (b : TreeBuilder) (set : PropertySet) : TreeBuilder × NodeId :=
  b.push (.property set)

def path (b : TreeBuilder) (operator : Operator) (items : List NodeId) :
    TreeBuilder × NodeId :=
  b.push (.path operator items)

/-- What a node adds to a node of the given operator: its own items if it has the same operator. -/
def splice (b : TreeBuilder) (operator : Operator) (id : NodeId) : List NodeId :=
  match b.node? id with
  | some (.path inner items) => if inner = operator then items else [id]
  | _ => [id]

/-- Adds a node whose items are spliced one level deep. For a single item nothing is added. -/
def flattened (b : TreeBuilder) (operator : Operator) : List NodeId → TreeBuilder × NodeId
  | [id] => (b, id)
  | items => b.path operator (items.flatMap (b.splice operator))

/-- Adds the nodes of a tree in post-order. -/
def copy (b : TreeBuilder) (t : PathTree) : TreeBuilder × NodeId :=
  (⟨b.entries ++ t.listing b.entries.length⟩, t.rootId b.entries.length)

/-- Copies a node from a list of nodes, behind copies of its items. A node that is not in the list,
or not behind its items, has no copy. -/
def copyNode (nodes : List TreeEntry) (id : NodeId) : StateT TreeBuilder Option NodeId :=
  let child (item : NodeId) : StateT TreeBuilder Option NodeId :=
    if item.index < id.index then copyNode nodes item else fun _ => none
  match nodes[id.index]? with
  | none => fun _ => none
  | some entry => do
      let ids ← entry.items.mapM child
      fun b => some (b.push (entry.withItems ids)).swap
termination_by id.index

/-- The tree that unfolds from a node. A node is checked before its items, and the items from left
to right. -/
def unfold (b : TreeBuilder) (id : NodeId) : Except PathFault PathTree :=
  let child (item : NodeId) : Except PathFault PathTree :=
    if item.index < id.index then unfold b item else .error (.malformedNode item .lateChild)
  match b.node? id with
  | none => .error (.malformedNode id .unknownNode)
  | some (.property set) =>
      if set.properties.isEmpty then .error (.malformedNode id .emptyPropertySet)
      else .ok (.property set)
  | some (.path .inverse [item]) => return .inverse (← child item)
  | some (.path .inverse items) =>
      .error (.malformedNode id (.operandCount .inverse items.length))
  | some (.path (.closure kind) [item]) => return .closure kind (← child item)
  | some (.path (.closure kind) items) =>
      .error (.malformedNode id (.operandCount (.closure kind) items.length))
  | some (.path operator []) => .error (.malformedNode id (.noOperand operator))
  | some (.path .negation items) => return .negation (← items.mapM child)
  | some (.path .sequence items) => return .sequence (← items.mapM child)
  | some (.path .alternative items) => return .alternative (← items.mapM child)
termination_by id.index

/-- Lists what unfolds from a node in post-order, and tells the new number of the node. -/
def renumber (b : TreeBuilder) (limit : Nat) (id : NodeId) : Numbering NodeId :=
  let child (item : NodeId) : Numbering NodeId :=
    if item.index < id.index then renumber b limit item
    else fun _ => .error (.malformedNode item .lateChild)
  match b.node? id with
  | none => fun _ => .error (.malformedNode id .unknownNode)
  | some entry => do
      entry.check id
      let ids ← entry.items.mapM child
      Numbering.list limit id (entry.withItems ids)
termination_by id.index

/-- The number of the finished root and all finished nodes. -/
def finishWithin (b : TreeBuilder) (limit : Nat) (root : NodeId) :
    Except PathFault (NodeId × List TreeEntry) := b.renumber limit root []

/-- There are `2 ^ 32` positions; the first and the last of them are no nodes. -/
def maxNodes : Nat := 4294967294

/-- The finished tree with the given node as its root, if it has no more nodes than there may be. -/
def finish (b : TreeBuilder) (root : NodeId) : Except PathFault PathTree := do
  let _ ← b.finishWithin maxNodes root
  b.unfold root

end TreeBuilder

end PropertyPath
