import PropertyPath.Path.Tree

/-!
# Marked paths

The letters of a normal path are its leaves and the outermost closures below its root; each letter
is marked with its position in the tree. A closure at the root is no letter but repeats the letters
below it. A walk that matches the path reads a word of letters, and what is needed to recognize
these words is which letters come first, which come last, and which may follow each other. A closure
letter may read nothing at all when the closure itself is nullable.
-/
namespace PropertyPath

/-- A path cut off at its letters. -/
inductive Marked where
  | letter (position : StateName) (node : PathTree)
  | sequence (items : List Marked)
  | alternative (items : List Marked)
  deriving Repr

/-- A marked path with the closure at its root, if there is one. -/
structure MarkedPath where
  loop : Option Closure
  body : Marked
  deriving Repr

namespace PathTree

mutual

/-- Whether the empty walk matches. -/
def nullable : PathTree → Bool
  | .property _ => false
  | .inverse item => nullable item
  | .negation _ => false
  | .closure kind item => kind.allowsZero || nullable item
  | .sequence items => allNullable items
  | .alternative items => anyNullable items

def allNullable : List PathTree → Bool
  | [] => true
  | t :: ts => nullable t && allNullable ts

def anyNullable : List PathTree → Bool
  | [] => false
  | t :: ts => nullable t || anyNullable ts

end

mutual

/-- Marks a path that stands behind `k` nodes. Inverses and negations have no letters. -/
def mark (k : Nat) : PathTree → Except PathFault Marked
  | .property set => .ok (.letter (k + 1) (.property set))
  | .inverse item => .error (.malformedNode ⟨k + item.size⟩ (.notNormalized .inverse))
  | .negation items => .error (.malformedNode ⟨k + sizeAll items⟩ (.notNormalized .negation))
  | .closure kind item => .ok (.letter (k + item.size + 1) (.closure kind item))
  | .sequence items => return .sequence (← markAll k items)
  | .alternative items => return .alternative (← markAll k items)

def markAll (k : Nat) : List PathTree → Except PathFault (List Marked)
  | [] => .ok []
  | t :: ts => do
      let m ← mark k t
      return m :: (← markAll (k + t.size) ts)

end

/-- The closure at the root. -/
def loop? : PathTree → Option Closure
  | .closure kind _ => some kind
  | _ => none

/-- The part that holds the letters: what a closure at the root repeats, or else the whole path. -/
def body : PathTree → PathTree
  | .closure _ item => item
  | t => t

/-- Marks a whole path. -/
def markRoot (t : PathTree) : Except PathFault MarkedPath := return ⟨t.loop?, ← t.body.mark 0⟩

end PathTree

namespace Marked

mutual

def nullable : Marked → Bool
  | .letter _ node => node.nullable
  | .sequence items => allNullable items
  | .alternative items => anyNullable items

def allNullable : List Marked → Bool
  | [] => true
  | m :: ms => nullable m && allNullable ms

def anyNullable : List Marked → Bool
  | [] => false
  | m :: ms => nullable m || anyNullable ms

end

mutual

/-- The letters from left to right, hence by ascending position. -/
def positions : Marked → List StateName
  | .letter position _ => [position]
  | .sequence items => positionsAll items
  | .alternative items => positionsAll items

def positionsAll : List Marked → List StateName
  | [] => []
  | m :: ms => positions m ++ positionsAll ms

end

mutual

/-- The letters that may come first. -/
def first : Marked → List StateName
  | .letter position _ => [position]
  | .sequence items => firstOfSequence items
  | .alternative items => firstOfAny items

def firstOfSequence : List Marked → List StateName
  | [] => []
  | m :: ms => first m ++ if nullable m then firstOfSequence ms else []

def firstOfAny : List Marked → List StateName
  | [] => []
  | m :: ms => first m ++ firstOfAny ms

end

mutual

/-- The letters that may come last. -/
def last : Marked → List StateName
  | .letter position _ => [position]
  | .sequence items => lastOfSequence items
  | .alternative items => lastOfAny items

def lastOfSequence : List Marked → List StateName
  | [] => []
  | m :: ms => (if allNullable ms then last m else []) ++ lastOfSequence ms

def lastOfAny : List Marked → List StateName
  | [] => []
  | m :: ms => last m ++ lastOfAny ms

end

/-- All pairs of a letter of the one list and a letter of the other. -/
def pairs (ps qs : List StateName) : List (StateName × StateName) :=
  ps.flatMap fun p => qs.map fun q => (p, q)

mutual

/-- The pairs of letters of which the second may come right after the first. -/
def follow : Marked → List (StateName × StateName)
  | .letter _ _ => []
  | .sequence items => followOfSequence items
  | .alternative items => followOfAny items

def followOfSequence : List Marked → List (StateName × StateName)
  | [] => []
  | m :: ms => follow m ++ pairs (last m) (firstOfSequence ms) ++ followOfSequence ms

def followOfAny : List Marked → List (StateName × StateName)
  | [] => []
  | m :: ms => follow m ++ followOfAny ms

end

mutual

/-- The nodes of the tree in post-order; there is nothing to tell about a node inside a letter. -/
def nodes : Marked → List (Option Marked)
  | .letter position node => List.replicate node.before none ++ [some (.letter position node)]
  | .sequence items => nodesAll items ++ [some (.sequence items)]
  | .alternative items => nodesAll items ++ [some (.alternative items)]

def nodesAll : List Marked → List (Option Marked)
  | [] => []
  | m :: ms => nodes m ++ nodesAll ms

end

/-- What comes second in the pairs that begin with the given letter. -/
def successors (ps : List (StateName × StateName)) (p : StateName) : List StateName :=
  (ps.filter (·.1 == p)).map (·.2)

@[simp] theorem mem_pairs {ps qs : List StateName} {p q : StateName} :
    (p, q) ∈ pairs ps qs ↔ p ∈ ps ∧ q ∈ qs := by
  simp [pairs]

@[simp] theorem mem_successors {ps : List (StateName × StateName)} {p q : StateName} :
    q ∈ successors ps p ↔ (p, q) ∈ ps := by
  simp [successors]

end Marked

namespace MarkedPath

def positions (m : MarkedPath) : List StateName := m.body.positions

def nullable (m : MarkedPath) : Bool := m.loop.any (·.allowsZero) || m.body.nullable

def first (m : MarkedPath) : List StateName := m.body.first

def last (m : MarkedPath) : List StateName := m.body.last

/-- A loop at the root lets every first letter follow every last letter. -/
def follow (m : MarkedPath) : List (StateName × StateName) :=
  m.body.follow ++ if m.loop.any (·.repeats) then Marked.pairs m.body.last m.body.first else []

end MarkedPath

/-- What is known about one node; each set is listed by ascending position. -/
structure NodeAttributes where
  nullable : Bool
  first : List StateName
  last : List StateName
  follow : List StateName
  deriving DecidableEq, Repr

namespace NodeAttributes

/-- Nothing is known about a node inside a letter. -/
def unknown : NodeAttributes := ⟨false, [], [], []⟩

/-- The given positions that are in a set. -/
def among (positions set : List StateName) : List StateName :=
  positions.filter fun p => decide (p ∈ set)

/-- The attributes of a node within a path of the given positions. Only a letter has followers. -/
def ofNode (positions : List StateName) (follow : List (StateName × StateName)) (m : Marked) :
    NodeAttributes where
  nullable := m.nullable
  first := among positions m.first
  last := among positions m.last
  follow :=
    match m with
    | .letter position _ => among positions (Marked.successors follow position)
    | _ => []

/-- The attributes of a closure at the root. -/
def ofLoop (m : MarkedPath) : NodeAttributes :=
  ⟨m.nullable, among m.positions m.first, among m.positions m.last, []⟩

end NodeAttributes

/-- The attributes of all nodes in post-order. -/
def MarkedPath.attributes (m : MarkedPath) : List NodeAttributes :=
  let known := NodeAttributes.ofNode m.positions m.follow
  m.body.nodes.map (fun node => (node.map known).getD .unknown) ++
    m.loop.toList.map fun _ => .ofLoop m

end PropertyPath
