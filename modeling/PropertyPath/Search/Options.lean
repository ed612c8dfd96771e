/-!
# Options of an evaluation
-/
namespace PropertyPath

structure EvaluationOptions where
  /-- Whether compiled automata are optimized. -/
  optimize : Bool := true
  /-- Whether the search of an origin stops once it has reached the only node it looks for. -/
  earlyTermination : Bool := true
  /-- States that lie so many transitions from their origin are not expanded. -/
  maxSearchDepth : Option Nat := none
  /-- How many closures may be evaluated within each other. -/
  maxNestingDepth : Nat := 32
  /-- How many states one search may reach. -/
  maxVisited : Option Nat := none
  deriving DecidableEq, Repr

end PropertyPath
