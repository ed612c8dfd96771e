import PropertyPath.Automaton.Valid
import PropertyPath.Path.Marked

/-!
# Position automata

The position automaton of a normal path has an initial state and one state for each letter, named
after its position. A transition into a letter takes what the letter matches: one edge for a leaf, a
walk of a nested automaton for a closure. Nested automata accept no empty walk, as the letters
around a nullable closure may follow each other directly; so `*` and `+` both nest the automaton of
`+`, and `?` nests the automaton of its operand. What is nested is a part of a finished tree and is
not checked once more.
-/
namespace PropertyPath

namespace MarkedPath

/-- The states and transitions of a marked path whose letters have the given labels, listed by
ascending position. In an embedded automaton the initial state is not final. -/
def automaton (m : MarkedPath) (embedded : Bool) (letters : List (StateName × Label)) :
    Except PathFault Automaton :=
  let first := m.first
  let last := m.last
  let follow := m.follow
  let states := ⟨Automaton.start, true, m.nullable && !embedded⟩ ::
    letters.map fun p => ⟨p.1, false, decide (p.1 ∈ last)⟩
  let entering := (letters.filter fun q => decide (q.1 ∈ first)).map fun q =>
    (⟨Automaton.start, q.1, q.2⟩ : Transition)
  let following := letters.flatMap fun p =>
    let next := Marked.successors follow p.1
    (letters.filter fun q => decide (q.1 ∈ next)).map fun q => (⟨p.1, q.1, q.2⟩ : Transition)
  Automaton.make states (entering ++ following)

end MarkedPath

namespace PathTree

mutual

/-- The labels of the letters of a path that stands behind `k` nodes, by ascending position. -/
def letterLabels (k : Nat) : PathTree → Except PathFault (List (StateName × Label))
  | .property set => return [(k + 1, .property (← Instruction.ofSet set))]
  | .closure .zeroOrOne (.closure kind item) => do
      let m ← item.mark 0
      let nested ← MarkedPath.automaton ⟨some kind, m⟩ true (← letterLabels 0 item)
      return [(k + item.size + 2, .closure .zeroOrOne nested)]
  | .closure .zeroOrOne item => do
      let m ← item.mark 0
      let nested ← MarkedPath.automaton ⟨none, m⟩ true (← letterLabels 0 item)
      return [(k + item.size + 1, .closure .zeroOrOne nested)]
  | .closure kind item => do
      let m ← item.mark 0
      let nested ← MarkedPath.automaton ⟨some .oneOrMore, m⟩ true (← letterLabels 0 item)
      return [(k + item.size + 1, .closure kind nested)]
  | .sequence items => letterLabelsAll k items
  | .alternative items => letterLabelsAll k items
  | .inverse item => .error (.malformedNode ⟨k + item.size⟩ (.notNormalized .inverse))
  | .negation items => .error (.malformedNode ⟨k + sizeAll items⟩ (.notNormalized .negation))

def letterLabelsAll (k : Nat) : List PathTree → Except PathFault (List (StateName × Label))
  | [] => .ok []
  | t :: ts => do
      let letters ← letterLabels k t
      return letters ++ (← letterLabelsAll (k + t.size) ts)

end

/-- The automaton of a normal path: the one of a whole path, or the one to be nested in a
closure. -/
def automaton (embedded : Bool) (t : PathTree) : Except PathFault Automaton := do
  let m ← t.markRoot
  m.automaton embedded (← t.body.letterLabels 0)

end PathTree

end PropertyPath
