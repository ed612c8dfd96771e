import PropertyPath.Path.Builder

/-!
# Property path expressions

The expressions of the query algebra have binary sequences and alternatives. Their nodes are added
to a builder, where nested sequences become one n-ary sequence, nested alternatives one alternative,
and a negated set of properties becomes a negation over a leaf.
-/
namespace PropertyPath

inductive PathExpr where
  | iri (iri : Iri)
  | reverse (path : PathExpr)
  | sequence (left right : PathExpr)
  | alternative (left right : PathExpr)
  | zeroOrMore (path : PathExpr)
  | oneOrMore (path : PathExpr)
  | zeroOrOne (path : PathExpr)
  | negatedSet (properties : List Iri)
  deriving DecidableEq, Repr

namespace PathExpr

/-- Adds the nodes of an expression, the operands before the operator, and tells which one is its
root. -/
def addTo (b : TreeBuilder) : PathExpr → TreeBuilder × NodeId
  | .iri property => b.property (.forward property)
  | .reverse path =>
      let (b, item) := path.addTo b
      b.path .inverse [item]
  | .sequence left right =>
      let (b, l) := left.addTo b
      let (b, r) := right.addTo b
      b.flattened .sequence [l, r]
  | .alternative left right =>
      let (b, l) := left.addTo b
      let (b, r) := right.addTo b
      b.flattened .alternative [l, r]
  | .zeroOrMore path =>
      let (b, item) := path.addTo b
      b.path (.closure .zeroOrMore) [item]
  | .oneOrMore path =>
      let (b, item) := path.addTo b
      b.path (.closure .oneOrMore) [item]
  | .zeroOrOne path =>
      let (b, item) := path.addTo b
      b.path (.closure .zeroOrOne) [item]
  | .negatedSet properties =>
      let (b, leaf) := b.property ⟨.ofList properties, false, false⟩
      b.path .negation [leaf]

def toTree (e : PathExpr) : Except PathFault PathTree :=
  let (b, root) := e.addTo .empty
  b.finish root

end PathExpr

end PropertyPath
