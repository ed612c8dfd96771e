import PropertyPath.Search.Evaluation

/-!
# Hops

A hop takes a fixed chain of instructions. It is asked as one conjunctive query with a pattern for
each instruction: the patterns are joined by fresh variables, and an instruction that is no single
property has a fresh variable in its predicate, restricted by a filter. Fresh variables begin with
an underscore and are numbered in the order in which they are made; the end of the hop is made
first.
-/
namespace PropertyPath

namespace Variable

def fresh (letter : String) (k : Nat) : Variable := ⟨"_" ++ letter ++ toString k⟩

end Variable

structure Hop where
  start : Endpoint
  finish : Variable
  query : ConjunctiveQuery
  deriving DecidableEq, Repr

namespace Hop

/-- The edge that one instruction takes, between two ends that are given in walking direction. -/
def edge (i : Instruction) (source : Endpoint) (predicate : PredicatePattern) (target : Endpoint) :
    TriplePattern :=
  if i.inverse then ⟨target, predicate, source⟩ else ⟨source, predicate, target⟩

def filterOf (v : Variable) (i : Instruction) : PredicateFilter :=
  ⟨v, i.properties.toList, if i.negation then .noneOf else .oneOf⟩

/-- The query of a chain that goes on from `source` when `k` variables have been made. -/
def chainFrom (finish : Variable) (k : Nat) (source : Endpoint) :
    List Instruction → ConjunctiveQuery
  | [] => ⟨[], []⟩
  | i :: rest =>
      let last := rest.isEmpty
      let target := if last then finish else Variable.fresh "n" k
      let k := if last then k else k + 1
      match i.single? with
      | some property =>
          let q := chainFrom finish k (.var target) rest
          ⟨edge i source (.iri property) (.var target) :: q.patterns, q.filters⟩
      | none =>
          let v := Variable.fresh "p" k
          let q := chainFrom finish (k + 1) (.var target) rest
          ⟨edge i source (.var v) (.var target) :: q.patterns, filterOf v i :: q.filters⟩

def ofChain (start : Endpoint) (is : List Instruction) : Hop :=
  let finish := Variable.fresh "o" 0
  ⟨start, finish, chainFrom finish 1 start is⟩

/-- The two ends of the hop under some bindings. -/
def ends (h : Hop) (b : Bindings) : Except EvaluationFault (Term × Term) :=
  match h.start.resolve b, b.get? h.finish with
  | some s, some t => .ok (s, t)
  | _, _ => .error (.unboundEnds h.query)

/-- The distinct pairs of nodes that the hop joins. A hop over no edge stays where it starts, and so
has to start at a known term. -/
def execute (h : Hop) (g : GraphService) (context : CallContext) :
    Evaluation (List (Term × Term)) :=
  if h.query.isEmpty then
    match h.start with
    | .term t => return [(t, t)]
    | .var _ => .fail .emptyHop
  else do
    let solutions ← .ask g context (.query h.query)
    let pairs ← .ofExcept (solutions.mapM h.ends)
    return pairs.eraseDups

end Hop

/-- The hops of several chains, one after the other. -/
def pairsByChain (g : GraphService) (context : CallContext) (start : Endpoint) :
    List (List Instruction) → Evaluation (List (Term × Term))
  | [] => return []
  | is :: branches => do
      let pairs ← (Hop.ofChain start is).execute g context
      return pairs ++ (← pairsByChain g context start branches)

/-- The distinct pairs of nodes that are joined by one of several chains. -/
def joinedPairs (g : GraphService) (context : CallContext) (start : Endpoint)
    (branches : List (List Instruction)) : Evaluation (List (Term × Term)) :=
  return (← pairsByChain g context start branches).eraseDups

end PropertyPath
