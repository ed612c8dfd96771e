import PropertyPath.Automaton.Chain
import PropertyPath.Automaton.Valid

/-!
# Compression of chains

From the initial state on, every chain of transitions is followed until it reaches a state that has
to be kept: the initial state, a final state, or one that is not entered and left exactly once. What
was followed becomes one sequence, and the states in between are dropped. States that no chain ends
in are not reached and are dropped as well.
-/
namespace PropertyPath

namespace Automaton

def inDegree (a : Automaton) (s : StateName) : Nat := a.transitions.countP (·.target == s)

def outDegree (a : Automaton) (s : StateName) : Nat := a.transitions.countP (·.source == s)

/-- Whether a chain may run through the state. -/
def isInner (a : Automaton) (s : StateName) : Bool :=
  s != start && !a.isFinal s && a.inDegree s == 1 && a.outDegree s == 1

/-- The chain that leaves the state, if one does. -/
def nextChain? (a : Automaton) (s : StateName) : Option Chain :=
  (a.outgoing s).findSome? Chain.ofTransition?

/-- Grows a chain over at most `room` inner states, none of which it passes twice. -/
def growChain (a : Automaton) : Nat → List StateName → Chain → Except PathFault Chain
  | 0, _, c => .ok c
  | room + 1, passed, c =>
      if a.isInner c.target && !passed.contains c.target then
        match a.nextChain? c.target with
        | some next => do growChain a room (c.target :: passed) (← c.append next)
        | none => .ok c
      else .ok c

/-- A transition with all that can be followed from it. -/
def compressTransition (a : Automaton) (t : Transition) : Except PathFault Transition :=
  match Chain.ofTransition? t with
  | some c => do return (← a.growChain a.states.length [t.source] c).toTransition
  | none => .ok t

/-- What is kept of the transitions that leave a state. -/
def compressOutgoing (a : Automaton) (s : StateName) : Except PathFault (List Transition) :=
  (a.outgoing s).mapM a.compressTransition

/-- Adds the states of a list that are not yet among the known ones, each once and in order. -/
def discover (known : List StateName) : List StateName → List StateName × List StateName
  | [] => (known, [])
  | s :: ss =>
      if known.contains s then discover known ss
      else
        let (known', fresh) := discover (known ++ [s]) ss
        (known', s :: fresh)

/-- Works through a queue of at most `room` kept states, and through the states that their
compressed transitions lead to. The known states are those that have ever been queued. -/
def compressFrom (a : Automaton) : Nat → List StateName → List StateName →
    Except PathFault (List StateName × List Transition)
  | 0, known, _ => .ok (known, [])
  | _, known, [] => .ok (known, [])
  | room + 1, known, s :: queue => do
      let transitions ← a.compressOutgoing s
      let (known', fresh) := discover known (transitions.map (·.target))
      let (all, rest) ← compressFrom a room known' (queue ++ fresh)
      return (all, transitions ++ rest)

/-- Keeps the states that have been queued, and the transitions between them in the order in which
they are found. -/
def compress (a : Automaton) : Except PathFault Automaton := do
  let (names, transitions) ← a.compressFrom (a.states.length + 1) [start] [start]
  make (a.states.filter fun s => names.contains s.name) transitions

end Automaton

end PropertyPath
