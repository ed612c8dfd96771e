import PropertyPath.Automaton.Basic
import PropertyPath.Graph.Service

/-!
# What can go wrong during an evaluation
-/
namespace PropertyPath

inductive EvaluationFault where
  | storage (fault : StorageFault)
  | path (fault : PathFault)
  | nestingTooDeep (limit : Nat)
  | visitLimitExceeded (limit : Nat)
  | unboundEnds (query : ConjunctiveQuery)
  | emptyHop
  deriving DecidableEq, Repr

namespace EvaluationFault

/-- Faults that no graph in memory and no compiled path gives rise to. -/
def isInternal : EvaluationFault → Bool
  | unboundEnds _ => true
  | emptyHop => true
  | _ => false

def internalMessage (cause : String) : String :=
  "An internal error that likely indicates towards a bug in RDF Paths: " ++ cause

def message : EvaluationFault → String
  | storage fault => fault.message
  | path fault => fault.message
  | nestingTooDeep limit =>
      "Nested closures exceed the maximum nesting depth of " ++ toString limit
  | visitLimitExceeded limit => "The search visited more than " ++ toString limit ++ " states"
  | unboundEnds query =>
      internalMessage ("The hop query " ++ query.text ++ " did not bind its endpoints")
  | emptyHop => internalMessage "An empty hop requires a bound start"

end EvaluationFault

end PropertyPath
