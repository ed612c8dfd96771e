import PropertyPath.Path.Tree

/-!
# Normal form of path trees

In normal form a tree has no inverse and no negation: directions are pushed down to the leaves,
which reverses the items of a sequence, and a negated set of properties becomes one negated leaf for
each direction that occurs in it. The whole path may be inverted on the way. Faults name nodes by
their numbers in the given tree. The normal form of a finished tree is not checked once more: its
nodes are in order, and there are not more of them than before.
-/
namespace PropertyPath

namespace PathTree

mutual

/-- The properties below a negation, each with whether it is taken from object to subject. -/
def negatedSteps (k : Nat) (inverse : Bool) : PathTree → Except PathFault (List (Bool × Iri))
  | .property set =>
      if set.negation then .error (.malformedNode ⟨k⟩ .negatedWithinNegation)
      else .ok (set.properties.toList.map fun p => (set.inverse ^^ inverse, p))
  | .inverse item => negatedSteps k (!inverse) item
  | .alternative items => negatedStepsAll k inverse items
  | .negation items => .error (.malformedNode ⟨k + sizeAll items⟩ (.notWithinNegation .negation))
  | .closure kind item =>
      .error (.malformedNode ⟨k + item.size⟩ (.notWithinNegation (.closure kind)))
  | .sequence items => .error (.malformedNode ⟨k + sizeAll items⟩ (.notWithinNegation .sequence))

def negatedStepsAll (k : Nat) (inverse : Bool) :
    List PathTree → Except PathFault (List (Bool × Iri))
  | [] => .ok []
  | t :: ts => do
      let steps ← negatedSteps k inverse t
      return steps ++ (← negatedStepsAll (k + t.size) inverse ts)

end

/-- The members of the given direction. -/
def directed (inverse : Bool) (steps : List (Bool × Iri)) : IriSet :=
  .ofList ((steps.filter (·.1 == inverse)).map (·.2))

/-- The leaf that takes the edges outside a set, if there is anything to leave out. -/
def negatedLeaf (inverted inverse : Bool) (steps : List (Bool × Iri)) : List PathTree :=
  let set := directed inverse steps
  if set.isEmpty then [] else [.property ⟨set, inverse ^^ inverted, true⟩]

mutual

/-- The normal form of a tree that stands behind `k` nodes, or of its inverse. -/
def normalizeFrom (k : Nat) (inverted : Bool) : PathTree → Except PathFault PathTree
  | .property set =>
      if set.properties.isEmpty then .error (.malformedNode ⟨k⟩ .emptyPropertySet)
      else .ok (.property (set.withInverse (set.inverse ^^ inverted)))
  | .inverse item => normalizeFrom k (!inverted) item
  | .negation items => do
      let steps ← negatedStepsAll k false items
      match negatedLeaf inverted false steps ++ negatedLeaf inverted true steps with
      | [] => .error (.malformedNode ⟨k + sizeAll items⟩ .emptyNegation)
      | leaves => return joinAlternative leaves
  | .closure kind item => return .closure kind (← normalizeFrom k inverted item)
  | .sequence items => do
      let ts ← normalizeAllFrom k inverted items
      return joinSequence (if inverted then ts.reverse else ts)
  | .alternative items => return joinAlternative (← normalizeAllFrom k inverted items)

def normalizeAllFrom (k : Nat) (inverted : Bool) : List PathTree → Except PathFault (List PathTree)
  | [] => .ok []
  | t :: ts => do
      let u ← normalizeFrom k inverted t
      return u :: (← normalizeAllFrom (k + t.size) inverted ts)

end

/-- The normal form of a path, to be followed from its start (`forward`) or from its end. -/
def normalize (forward : Bool) (t : PathTree) : Except PathFault PathTree :=
  normalizeFrom 0 (!forward) t

end PathTree

end PropertyPath
