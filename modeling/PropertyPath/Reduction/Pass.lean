import PropertyPath.Reduction.Bisimulation
import PropertyPath.Reduction.Compression
import PropertyPath.Reduction.Parallel

/-!
# Passes that reduce an automaton

A pass reduces the automata nested in an automaton before the automaton itself. The optimizer runs
its passes in order and checks what each of them returns.
-/
namespace PropertyPath

inductive Pass where
  | pathsCompression
  | statesMerging
  | pathsMerging
  | distinctPaths
  deriving DecidableEq, Repr

namespace Pass

def name : Pass → String
  | pathsCompression => "paths-compression"
  | statesMerging => "states-merging"
  | pathsMerging => "paths-merging"
  | distinctPaths => "distinct-paths"

/-- The passes in the order in which the optimizer runs them. -/
def all : List Pass := [pathsCompression, statesMerging, pathsMerging, distinctPaths]

def ofName? (name : String) : Option Pass := all.find? (·.name == name)

/-- Reduces an automaton and leaves nested automata as they are. -/
def reduceTop : Pass → Automaton → Except PathFault Automaton
  | pathsCompression => Automaton.compress
  | statesMerging => Automaton.mergeStates
  | pathsMerging => Automaton.mergePaths
  | distinctPaths => Automaton.distinctPaths

mutual

/-- Reduces an automaton after the automata nested in it. -/
def reduce (p : Pass) : Automaton → Except PathFault Automaton
  | ⟨states, transitions⟩ => do
      let ts ← reduceNested p transitions
      p.reduceTop (← Automaton.make states ts)

def reduceNested (p : Pass) : List Transition → Except PathFault (List Transition)
  | [] => .ok []
  | ⟨source, target, label⟩ :: ts => do
      let label' ← reduceLabel p label
      return ⟨source, target, label'⟩ :: (← reduceNested p ts)

def reduceLabel (p : Pass) : Label → Except PathFault Label
  | .closure kind nested => return .closure kind (← reduce p nested)
  | .property i => .ok (.property i)
  | .sequence is => .ok (.sequence is)
  | .alternative branches => .ok (.alternative branches)

end

end Pass

/-- Runs passes one after the other. -/
def Automaton.optimize (passes : List Pass) (a : Automaton) : Except PathFault Automaton :=
  passes.foldlM (fun current pass => do
    let next ← pass.reduce current
    next.validate
    return next) a

end PropertyPath
