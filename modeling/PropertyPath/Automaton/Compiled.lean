import PropertyPath.Automaton.Position
import PropertyPath.Path.Expr
import PropertyPath.Path.Normal
import PropertyPath.Reduction.Pass

/-!
# Compiled paths

A path is compiled into two automata: one to follow it from its subject, one to follow it from its
object.
-/
namespace PropertyPath

/-- The automaton that follows a path from its start (`forward`) or from its end. -/
def PathTree.compile (t : PathTree) (optimize forward : Bool) : Except PathFault Automaton := do
  let normal ← t.normalize forward
  let a ← normal.automaton false
  if optimize then a.optimize Pass.all else return a

structure CompiledPath where
  tree : PathTree
  forward : Automaton
  backward : Automaton
  deriving Repr

namespace CompiledPath

def ofTree (t : PathTree) (optimize : Bool) : Except PathFault CompiledPath := do
  let forward ← t.compile optimize true
  let backward ← t.compile optimize false
  return ⟨t, forward, backward⟩

def ofExpr (e : PathExpr) (optimize : Bool) : Except PathFault CompiledPath := do
  ofTree (← e.toTree) optimize

/-- Whether the empty walk matches the path. -/
def isNullable (c : CompiledPath) : Bool := c.forward.isNullable

end CompiledPath

end PropertyPath
