import PropertyPath.Search.Options
import PropertyPath.Search.Hop

/-!
# Breadth-first search of an automaton and a graph

A search walks an automaton and a graph at once, one origin after the other. A configuration is
visited when it is put in the queue, and expanded when it is taken out of it: if the automaton may
end there and the node is one that is looked for, the pair of origin and node is delivered, unless
it has been delivered before; then all transitions that leave the state are followed. The nodes
behind a closure are found by a search of their own over the nested automaton, and are remembered by
transition and node. What a configuration delivers is delivered after it has been expanded, so a
fault on the way takes it along.
-/
namespace PropertyPath

/-- The nodes at which a solution may end. -/
inductive Target where
  | any
  | term (term : Term)
  | origin
  deriving DecidableEq, Repr

namespace Target

def admits : Target → Configuration → Bool
  | any, _ => true
  | term t, c => t == c.node
  | origin, c => c.subject == c.node

/-- Whether an origin has at most one node to look for. -/
def isFixed : Target → Bool
  | any => false
  | _ => true

end Target

/-- What stays the same during one search. Unless it remembers, every closure is searched anew each
time. -/
structure Search where
  graph : GraphService
  context : CallContext
  options : EvaluationOptions
  automaton : Automaton
  target : Target
  backward : Bool
  remember : Bool

/-- What one search has visited, and the nodes it has found behind closures. -/
structure Progress where
  visits : Visits
  closures : List ((Nat × Term) × List Term)
  deriving Repr

/-- Finds the nodes behind a closure. -/
abbrev ClosureSearch := Automaton → Term → Evaluation (List Term)

namespace Search

def start (s : Search) : Progress := ⟨.withLimit s.options.maxVisited, []⟩

/-- Solutions are told from subject to object, whichever way the search runs. -/
def solution (s : Search) (c : Configuration) : Solution :=
  let t : Solution := ⟨c.subject, c.node⟩
  if s.backward then t.reversed else t

/-- The nodes that a transition has been found to lead to before. -/
def remembered? (s : Search) (index : Nat) (node : Term) (p : Progress) : Option (List Term) :=
  if s.remember then p.closures.lookup (index, node) else none

/-- The nodes behind a transition. -/
def follow (s : Search) (close : ClosureSearch) (index : Nat) (t : Transition) (node : Term)
    (p : Progress) : Evaluation (List Term × Progress) :=
  match t.label with
  | .closure _ nested =>
      match s.remembered? index node p with
      | some nodes => return (nodes, p)
      | none => do
          let nodes ← close nested node
          .log [.closure index node]
          return (nodes, { p with closures := ((index, node), nodes) :: p.closures })
  | label => do
      let pairs ← joinedPairs s.graph s.context (.term node) (label.branches?.getD [])
      return (pairs.map (·.2), p)

/-- Follows numbered transitions from a configuration and tells what is visited for the first
time. -/
def followAll (s : Search) (close : ClosureSearch) (c : Configuration) :
    List (Transition × Nat) → Progress → Evaluation (List Configuration × Progress)
  | [], p => return ([], p)
  | (t, index) :: ts, p => do
      let (nodes, p) ← s.follow close index t c.node p
      let (visits, fresh) ← .ofExcept
        (p.visits.visitAll (nodes.map fun node => c.successor node t.target))
      let (later, p) ← followAll s close c ts { p with visits }
      return (fresh ++ later, p)

/-- The transitions that leave a state, with their numbers. -/
def leaving (s : Search) (state : StateName) : List (Transition × Nat) :=
  s.automaton.transitions.zipIdx.filter fun t => t.1.source == state

/-- Whether a configuration lies too deep to be expanded. -/
def isTooDeep (s : Search) (c : Configuration) : Bool :=
  s.options.maxSearchDepth.any fun depth => decide (depth ≤ c.depth)

/-- Whether a walk may end here. -/
def hits (s : Search) (c : Configuration) : Bool := s.automaton.isFinal c.state && s.target.admits c

/-- Expands a configuration. There is nothing new, but `none`, when its origin is done with. -/
def expand (s : Search) (close : ClosureSearch) (c : Configuration) (p : Progress) :
    Evaluation (Option (List Configuration) × Progress) := do
  .log [.expand c]
  let (visits, new) := if s.hits c then p.visits.deliver c.subject c.node else (p.visits, false)
  let p := { p with visits }
  let batch := if new then [s.solution c] else []
  if s.hits c && s.options.earlyTermination && s.target.isFixed then
    .deliver batch
    return (none, p)
  else if s.isTooDeep c then
    .deliver batch
    return (some [], p)
  else
    let (fresh, p) ← s.followAll close c (s.leaving c.state) p
    .deliver batch
    return (some fresh, p)

/-- Works through a queue for at most `rounds` expansions. -/
def explore (s : Search) (close : ClosureSearch) :
    Nat → List Configuration → Progress → Evaluation Progress
  | _, [], p => return p
  | 0, _ :: _, _ => .halt .givenUp
  | rounds + 1, c :: queue, p => do
      match ← s.expand close c p with
      | (none, p) => return p
      | (some fresh, p) => explore s close rounds (queue ++ fresh) p

/-- As many expansions as one origin can need: every node of the graph, and the origin itself, in
every state of the automaton. -/
def rounds (s : Search) : Nat := (s.graph.nodeBound + 1) * s.automaton.states.length

/-- Searches one origin after the other. -/
def searchFrom (s : Search) (close : ClosureSearch) : List Term → Progress → Evaluation Progress
  | [], p => return p
  | origin :: origins, p => do
      let (visits, fresh) ← .ofExcept (p.visits.visitAll [.origin origin])
      let p ← s.explore close s.rounds fresh { p with visits }
      searchFrom s close origins p

/-- The search of a nested automaton, for whatever node it reaches. -/
def nested (s : Search) (a : Automaton) : Search :=
  { s with automaton := a, target := .any, backward := false }

/-- The search behind closures when so many may still be evaluated within each other. -/
def closureSearch (s : Search) : Nat → ClosureSearch
  | 0 => fun _ _ => .fail (.nestingTooDeep s.options.maxNestingDepth)
  | allowed + 1 => fun a origin => do
      let inner := s.nested a
      let solutions ← .collect (inner.searchFrom (closureSearch s allowed) [origin] inner.start)
      return solutions.map (·.object)

/-- Searches the given origins from the beginning. -/
def run (s : Search) (origins : List Term) : Evaluation Progress :=
  s.searchFrom (s.closureSearch s.options.maxNestingDepth) origins s.start

end Search

end PropertyPath
