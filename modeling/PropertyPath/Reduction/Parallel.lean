import PropertyPath.Automaton.Valid

/-!
# Parallel transitions

All transitions between the same two states that take a fixed number of edges become one choice, in
the place of the first of them, with each chain listed once. A second pass removes repeated chains
from choices and repeated transitions. Closure transitions are left as they are.
-/
namespace PropertyPath

namespace Transition

def ends (t : Transition) : StateName × StateName := (t.source, t.target)

/-- The chains that lead from one state to another, by order of transitions. -/
def chainsBetween (ends : StateName × StateName) (ts : List Transition) : List (List Instruction) :=
  ts.flatMap fun t => if t.ends = ends then t.label.branches?.getD [] else []

/-- Joins parallel transitions. `seen` holds the ends of those that have been joined already. -/
def joinParallel (seen : List (StateName × StateName)) : List Transition → List Transition
  | [] => []
  | t :: ts =>
      match t.label.branches? with
      | none => t :: joinParallel seen ts
      | some _ =>
          if seen.contains t.ends then joinParallel seen ts
          else
            ⟨t.source, t.target, .alternative (chainsBetween t.ends (t :: ts)).eraseDups⟩ ::
              joinParallel (t.ends :: seen) ts

/-- The same transition without repeated branches. -/
def distinctBranches (t : Transition) : Transition :=
  match t.label with
  | .alternative branches => ⟨t.source, t.target, .alternative branches.eraseDups⟩
  | _ => t

end Transition

namespace Automaton

def mergePaths (a : Automaton) : Except PathFault Automaton :=
  make a.states (Transition.joinParallel [] a.transitions)

def distinctPaths (a : Automaton) : Except PathFault Automaton :=
  make a.states (a.transitions.map Transition.distinctBranches).eraseDups

end Automaton

end PropertyPath
