import PropertyPath.Graph.Store
import PropertyPath.Graph.Query

/-!
# Answering queries by nested loops

The patterns are matched one after the other, each against the triples that an index offers for what
is bound so far. A filter is applied after every pattern; it says nothing until its variable is
bound. Once no solution is left, the remaining patterns are not looked at.
-/
namespace PropertyPath

namespace Endpoint

/-- The term that an end stands for under some bindings, if it is known. -/
def resolve (e : Endpoint) (b : Bindings) : Option Term :=
  match e with
  | .term t => some t
  | .var v => b.get? v

/-- The bindings under which an end stands for the given term. -/
def unify (e : Endpoint) (t : Term) (b : Bindings) : Option Bindings :=
  match e with
  | .term expected => if expected = t then some b else none
  | .var v => b.bind? v t

end Endpoint

def PredicatePattern.unify (p : PredicatePattern) (i : Iri) (b : Bindings) : Option Bindings :=
  match p with
  | .iri expected => if expected = i then some b else none
  | .var v => b.bind? v (.iri i)

/-- The bindings under which a pattern is the given triple. -/
def TriplePattern.unify (p : TriplePattern) (t : Triple) (b : Bindings) : Option Bindings := do
  let b ← p.subject.unify t.subject.toTerm b
  let b ← p.predicate.unify t.predicate b
  p.object.unify t.object b

namespace TripleStore

/-- The triples that a pattern may match, by the first part of it that is known: subject, object,
then predicate. A predicate variable that is bound to no IRI has no candidates. -/
def candidates (g : TripleStore) (p : TriplePattern) (b : Bindings) : List Triple :=
  match p.subject.resolve b, p.object.resolve b with
  | some s, _ => g.withSubject s
  | none, some o => g.withObject o
  | none, none =>
      match p.predicate with
      | .iri i => g.withPredicate i
      | .var v =>
          match b.get? v with
          | some (.iri i) => g.withPredicate i
          | some _ => []
          | none => g.all

/-- The solutions that extend given ones by a match of the pattern. -/
def matchPattern (g : TripleStore) (filters : List PredicateFilter) (p : TriplePattern)
    (solutions : List Bindings) : List Bindings :=
  (solutions.flatMap fun b => (g.candidates p b).filterMap fun t => p.unify t b).filter fun b =>
    filters.all (·.passes b)

def matchPatterns (g : TripleStore) (filters : List PredicateFilter) :
    List TriplePattern → List Bindings → List Bindings
  | [], solutions => solutions
  | p :: ps, solutions =>
      match g.matchPattern filters p solutions with
      | [] => []
      | next => matchPatterns g filters ps next

/-- All solutions of a query. -/
def solutions (g : TripleStore) (q : ConjunctiveQuery) : List Bindings :=
  g.matchPatterns q.filters q.patterns [.empty]

end TripleStore

end PropertyPath
