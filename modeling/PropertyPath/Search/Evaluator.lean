import PropertyPath.Automaton.Compiled
import PropertyPath.Search.Origins

/-!
# Evaluating property paths

A path pattern is searched from its subject when the subject is given, from its object when only the
object is given, and otherwise from wherever the path may begin. Nothing is asked of the graph when
the path cannot be compiled.
-/
namespace PropertyPath

structure Evaluator where
  graph : GraphService
  context : CallContext
  options : EvaluationOptions

namespace Evaluator

def search (e : Evaluator) (a : Automaton) (target : Target) (backward : Bool) : Search :=
  ⟨e.graph, e.context, e.options, a, target, backward, true⟩

/-- The evaluation of a pattern whose path has been compiled. -/
def evaluation (e : Evaluator) (subject : Endpoint) (path : CompiledPath) (object : Endpoint) :
    Evaluation Unit :=
  match subject, object with
  | .term s, .term o => (e.search path.forward (.term o) false).runFrom s
  | .term s, .var _ => (e.search path.forward .any false).runFrom s
  | .var _, .term o => (e.search path.backward .any true).runFrom o
  | .var x, .var y =>
      (e.search path.forward (if x = y then .origin else .any) false).runAnywhere

def evaluateCompiled (e : Evaluator) (subject : Endpoint) (path : CompiledPath)
    (object : Endpoint) : Run Unit :=
  e.evaluation subject path object 0

def evaluate (e : Evaluator) (subject : Endpoint) (path : PathExpr) (object : Endpoint) :
    Except PathFault (Run Unit) := do
  let compiled ← CompiledPath.ofExpr path e.options.optimize
  return e.evaluateCompiled subject compiled object

/-- Whether a path leads from one term to another. The search always stops as early as it can. -/
def contains (e : Evaluator) (subject : Term) (path : PathExpr) (object : Term) : Run Bool :=
  let options := { e.options with earlyTermination := true }
  match CompiledPath.ofExpr path options.optimize with
  | .error fault => ⟨[], .error (.fault (.path fault))⟩
  | .ok compiled =>
      ({ e with options }.evaluateCompiled (.term subject) compiled (.term object)).any

end Evaluator

end PropertyPath
