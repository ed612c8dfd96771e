import PropertyPath.Path.Fault
import PropertyPath.Path.PropertySet

/-!
# Path trees

A path tree has n-ary sequences and alternatives, and leaves that take a single edge. Its nodes are
numbered in post-order, so that the items of a node come before it and the root comes last;
`listing` is that numbering written out. A tree that stands behind `k` other nodes has its own
numbers shifted by `k`.
-/
namespace PropertyPath

inductive PathTree where
  | property (set : PropertySet)
  | inverse (item : PathTree)
  | negation (items : List PathTree)
  | closure (kind : Closure) (item : PathTree)
  | sequence (items : List PathTree)
  | alternative (items : List PathTree)
  deriving Repr

/-- One node of a numbered tree: a leaf, or an operator with the numbers of its items. -/
inductive TreeEntry where
  | property (set : PropertySet)
  | path (operator : Operator) (items : List NodeId)
  deriving DecidableEq, Repr

namespace TreeEntry

def operator? : TreeEntry → Option Operator
  | property _ => none
  | path operator _ => some operator

def items : TreeEntry → List NodeId
  | property _ => []
  | path _ items => items

end TreeEntry

namespace PathTree

mutual

/-- The number of nodes before the root. -/
def before : PathTree → Nat
  | .property _ => 0
  | .inverse item => item.before + 1
  | .negation items => sizeAll items
  | .closure _ item => item.before + 1
  | .sequence items => sizeAll items
  | .alternative items => sizeAll items

/-- The number of nodes of several trees. -/
def sizeAll : List PathTree → Nat
  | [] => 0
  | t :: ts => t.before + 1 + sizeAll ts

end

/-- The number of nodes. -/
def size (t : PathTree) : Nat := t.before + 1

/-- The identifier of the root of a tree that stands behind `k` nodes. -/
def rootId (k : Nat) (t : PathTree) : NodeId := ⟨k + t.before⟩

/-- The identifiers of the roots of trees that stand one behind the other, after `k` nodes. -/
def rootIds (k : Nat) : List PathTree → List NodeId
  | [] => []
  | t :: ts => rootId k t :: rootIds (k + t.size) ts

mutual

/-- The nodes in post-order, numbered from `k`. -/
def listing (k : Nat) : PathTree → List TreeEntry
  | .property set => [.property set]
  | .inverse item => listing k item ++ [.path .inverse [rootId k item]]
  | .negation items => listingAll k items ++ [.path .negation (rootIds k items)]
  | .closure kind item => listing k item ++ [.path (.closure kind) [rootId k item]]
  | .sequence items => listingAll k items ++ [.path .sequence (rootIds k items)]
  | .alternative items => listingAll k items ++ [.path .alternative (rootIds k items)]

def listingAll (k : Nat) : List PathTree → List TreeEntry
  | [] => []
  | t :: ts => listing k t ++ listingAll (k + t.size) ts

end

mutual

/-- The subtrees, each at the place of its root in post-order. -/
def subtrees : PathTree → List PathTree
  | .property set => [.property set]
  | .inverse item => subtrees item ++ [.inverse item]
  | .negation items => subtreesAll items ++ [.negation items]
  | .closure kind item => subtrees item ++ [.closure kind item]
  | .sequence items => subtreesAll items ++ [.sequence items]
  | .alternative items => subtreesAll items ++ [.alternative items]

def subtreesAll : List PathTree → List PathTree
  | [] => []
  | t :: ts => subtrees t ++ subtreesAll ts

end

/-- The subtree whose root has the given identifier. -/
def subtree? (t : PathTree) (id : NodeId) : Option PathTree := t.subtrees[id.index]?

def containsOperator (t : PathTree) (operator : Operator) : Bool :=
  (t.listing 0).any (·.operator? == some operator)

mutual

/-- A unary operator is written at its operand, the others between parentheses. -/
def text : PathTree → String
  | .property set => set.text
  | .inverse item => "^" ++ text item
  | .negation items => "!(" ++ "|".intercalate (textAll items) ++ ")"
  | .closure kind item => text item ++ kind.symbol
  | .sequence items => "(" ++ "/".intercalate (textAll items) ++ ")"
  | .alternative items => "(" ++ "|".intercalate (textAll items) ++ ")"

def textAll : List PathTree → List String
  | [] => []
  | t :: ts => text t :: textAll ts

end

/-- What a tree adds to a sequence: the items of a sequence, or itself. -/
def sequenceItems : PathTree → List PathTree
  | .sequence items => items
  | t => [t]

/-- What a tree adds to an alternative: the items of an alternative, or itself. -/
def alternativeItems : PathTree → List PathTree
  | .alternative items => items
  | t => [t]

/-- The sequence of the given trees without a sequence directly inside it; one tree stands for
itself. -/
def joinSequence : List PathTree → PathTree
  | [t] => t
  | ts => .sequence (ts.flatMap sequenceItems)

/-- The alternative of the given trees without an alternative directly inside it; one tree stands
for itself. -/
def joinAlternative : List PathTree → PathTree
  | [t] => t
  | ts => .alternative (ts.flatMap alternativeItems)

@[simp] theorem position_rootId (k : Nat) (t : PathTree) : (t.rootId k).position = k + t.size := by
  simp [rootId, NodeId.position, size, Nat.add_assoc]

theorem length_rootIds (k : Nat) (ts : List PathTree) : (rootIds k ts).length = ts.length := by
  induction ts generalizing k with
  | nil => rfl
  | cons t ts ih => simp [rootIds, ih]

mutual

theorem length_listing (k : Nat) (t : PathTree) : (t.listing k).length = t.size := by
  cases t with
  | property set => rfl
  | inverse item => simp [listing, size, before, length_listing k item]
  | negation items => simp [listing, size, before, length_listingAll k items]
  | closure kind item => simp [listing, size, before, length_listing k item]
  | sequence items => simp [listing, size, before, length_listingAll k items]
  | alternative items => simp [listing, size, before, length_listingAll k items]

theorem length_listingAll (k : Nat) (ts : List PathTree) :
    (listingAll k ts).length = sizeAll ts := by
  cases ts with
  | nil => rfl
  | cons t ts =>
      rw [listingAll, List.length_append, length_listing k t, length_listingAll (k + t.size) ts]
      rfl

end

end PathTree

end PropertyPath
