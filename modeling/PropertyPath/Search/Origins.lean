import PropertyPath.Search.Explore

/-!
# Origins of a search that starts anywhere

When no end of a path is given, the origins are the nodes at which some transition out of the
initial state can be taken. A closure starts where its nested automaton does. The empty walk needs
no edge and is added at the end, for every node of the graph.
-/
namespace PropertyPath

mutual

/-- The choices of chains with which a walk may begin: those of the automaton itself by order of
transitions, then those of its initial closures, the last closure first. -/
def Automaton.openings : Automaton → List (List (List Instruction))
  | ⟨_, transitions⟩ =>
      (transitions.filter (·.source == Automaton.start)).filterMap (·.label.branches?) ++
        Transition.nestedOpenings transitions

def Transition.nestedOpenings : List Transition → List (List (List Instruction))
  | [] => []
  | ⟨source, _, label⟩ :: ts =>
      Transition.nestedOpenings ts ++ if source == Automaton.start then Label.openings label else []

def Label.openings : Label → List (List (List Instruction))
  | .closure _ nested => Automaton.openings nested
  | .property _ => []
  | .sequence _ => []
  | .alternative _ => []

end

namespace Search

def originVariable : Variable := ⟨"_s"⟩

/-- Asks for the starts of several choices of chains, one after the other. -/
def probeAll (s : Search) : List (List (List Instruction)) → Evaluation (List Term)
  | [] => return []
  | branches :: rest => do
      let pairs ← joinedPairs s.graph s.context (.var originVariable) branches
      return pairs.map (·.1) ++ (← probeAll s rest)

/-- The distinct nodes at which a walk may begin. -/
def probe (s : Search) : Evaluation (List Term) :=
  return (← s.probeAll s.automaton.openings).eraseDups

/-- The pattern that every triple matches. -/
def anyTriple : TriplePattern := ⟨.var originVariable, .var ⟨"_p"⟩, .var ⟨"_o"⟩⟩

/-- The nodes of some solutions of `anyTriple`, subject before object. -/
def tripleEnds (solutions : List Bindings) : List Term :=
  solutions.flatMap fun b => (b.get? originVariable).toList ++ (b.get? ⟨"_o"⟩).toList

/-- Delivers every node of the graph with itself, unless that has been delivered before. -/
def reflexive (s : Search) (p : Progress) : Evaluation Unit := do
  let solutions ← .ask s.graph s.context (.bgp [anyTriple])
  .deliver (p.visits.deliverReflexive (tripleEnds solutions)).2

/-- Searches from wherever a walk may begin. -/
def runAnywhere (s : Search) : Evaluation Unit := do
  let p ← s.run (← s.probe)
  if s.automaton.isNullable then s.reflexive p else return

/-- Searches from one term. -/
def runFrom (s : Search) (origin : Term) : Evaluation Unit := do
  let _ ← s.run [origin]
  return

end Search

end PropertyPath
