import PropertyPath.Graph.Store

/-!
# Graphs that share their content

A pool holds contents and handles to them. A clone is a second handle to the same content, so what
is inserted through the one is seen through the other; a graph made from triples has a content of
its own.
-/
namespace PropertyPath

/-- `handles` tells for each graph which content it has; the tables of new contents have the given
order. -/
structure GraphPool where
  order : TableOrder
  contents : List TripleStore
  handles : List Nat

namespace GraphPool

/-- One graph, which is empty. -/
def start (order : TableOrder) : GraphPool := ⟨order, [.empty order], [0]⟩

def single : GraphPool := start .arrival

def content? (p : GraphPool) (graph : Nat) : Option TripleStore := do
  p.contents[← p.handles[graph]?]?

/-- Changes the content of a graph and tells what the change returned. -/
def update {α : Type} (p : GraphPool) (graph : Nat) (change : TripleStore → TripleStore × α) :
    Option (GraphPool × α) := do
  let index ← p.handles[graph]?
  let g ← p.contents[index]?
  let (g', result) := change g
  return ({ p with contents := p.contents.set index g' }, result)

def insert (p : GraphPool) (graph : Nat) (t : Triple) : Option (GraphPool × Bool) :=
  p.update graph (·.insert t)

def extend (p : GraphPool) (graph : Nat) (ts : List Triple) : Option (GraphPool × Nat) :=
  p.update graph (·.extend ts)

/-- Adds a handle to the content of a graph; the new graph comes last. -/
def clone (p : GraphPool) (graph : Nat) : Option (GraphPool × Nat) := do
  let index ← p.handles[graph]?
  return ({ p with handles := p.handles ++ [index] }, p.handles.length)

/-- Adds a graph that holds the given triples; the new graph comes last. -/
def fromTriples (p : GraphPool) (ts : List Triple) : GraphPool × Nat :=
  ({ p with
      contents := p.contents ++ [.arranged p.order ts]
      handles := p.handles ++ [p.contents.length] }, p.handles.length)

end GraphPool

end PropertyPath
