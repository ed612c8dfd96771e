import PropertyPath.Automaton.Basic
import PropertyPath.Text.Lines

/-!
# Automata as text

One line for each state, then one for each transition. The lines of a nested automaton follow the
line of its transition and are indented.
-/
namespace PropertyPath

def State.text (s : State) : String :=
  toString s.name ++
    match s.isInitial, s.isFinal with
    | true, true => " [initial, final]"
    | true, false => " [initial]"
    | false, true => " [final]"
    | false, false => ""

def Instruction.chainText (is : List Instruction) : String :=
  "/".intercalate (is.map Instruction.text)

mutual

def Automaton.text : Automaton → String
  | ⟨states, transitions⟩ =>
      "\n".intercalate (states.map State.text) ++ Transition.textAll transitions

/-- The lines of several transitions, each after a line feed. -/
def Transition.textAll : List Transition → String
  | [] => ""
  | ⟨source, target, label⟩ :: ts =>
      "\n" ++ toString source ++ " -> " ++ toString target ++ " : " ++ Label.text label ++
        Transition.textAll ts

def Label.text : Label → String
  | .property i => i.text
  | .sequence is => Instruction.chainText is
  | .alternative branches => " | ".intercalate (branches.map Instruction.chainText)
  | .closure kind nested => "closure" ++ kind.symbol ++ Text.indent (Automaton.text nested)

end

def Transition.text (t : Transition) : String :=
  toString t.source ++ " -> " ++ toString t.target ++ " : " ++ t.label.text

end PropertyPath
