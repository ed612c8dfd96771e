import PropertyPath.Rdf.Bindings

/-!
# Conjunctive queries

A query asks for the bindings under which all its patterns are triples of a graph and every filter
accepts the value of its variable.
-/
namespace PropertyPath

inductive PredicatePattern where
  | iri (iri : Iri)
  | var (name : Variable)
  deriving DecidableEq, Repr

def PredicatePattern.text : PredicatePattern → String
  | iri i => i.text
  | var v => v.text

structure TriplePattern where
  subject : Endpoint
  predicate : PredicatePattern
  object : Endpoint
  deriving DecidableEq, Repr

namespace TriplePattern

def text (p : TriplePattern) : String :=
  "(" ++ p.subject.text ++ " " ++ p.predicate.text ++ " " ++ p.object.text ++ ")"

/-- The variables from left to right, repeated ones included. -/
def occurrences (p : TriplePattern) : List Variable :=
  p.subject.toVariable?.toList ++
    (match p.predicate with
      | .iri _ => []
      | .var v => [v]) ++
    p.object.toVariable?.toList

/-- The variables of several patterns in order of first appearance. -/
def variablesOf (ps : List TriplePattern) : List Variable := (ps.flatMap occurrences).eraseDups

end TriplePattern

inductive FilterRule where
  | oneOf
  | noneOf
  deriving DecidableEq, Repr

structure PredicateFilter where
  var : Variable
  properties : List Iri
  mode : FilterRule
  deriving DecidableEq, Repr

namespace PredicateFilter

def accepts (f : PredicateFilter) (t : Term) : Bool :=
  let listed := f.properties.any fun p => t == Term.iri p
  match f.mode with
  | .oneOf => listed
  | .noneOf => !listed

def text (f : PredicateFilter) : String :=
  let operator :=
    match f.mode with
    | .oneOf => "IN"
    | .noneOf => "NOT IN"
  f.var.text ++ " " ++ operator ++ " (" ++ ", ".intercalate (f.properties.map Iri.text) ++ ")"

/-- Whether the value of the variable is accepted; a variable without a value is not looked at. -/
def passes (f : PredicateFilter) (b : Bindings) : Bool := (b.get? f.var).all f.accepts

end PredicateFilter

structure ConjunctiveQuery where
  patterns : List TriplePattern
  filters : List PredicateFilter
  deriving DecidableEq, Repr

namespace ConjunctiveQuery

def isEmpty (q : ConjunctiveQuery) : Bool := q.patterns.isEmpty

def text (q : ConjunctiveQuery) : String :=
  " . ".intercalate (q.patterns.map TriplePattern.text) ++
    if q.filters.isEmpty then ""
    else " FILTER " ++ " && ".intercalate (q.filters.map PredicateFilter.text)

end ConjunctiveQuery

end PropertyPath
