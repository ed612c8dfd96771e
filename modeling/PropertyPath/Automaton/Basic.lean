import PropertyPath.Automaton.Instruction

/-!
# Automata over instructions

A transition has two ends and a label. Three kinds of label take a fixed number of edges: one
instruction, a chain of instructions, or a choice among chains. The fourth kind takes any walk that
a nested automaton accepts, so automata, transitions and labels are defined together. Equality is
structural at every level of nesting.
-/
namespace PropertyPath

structure State where
  name : StateName
  isInitial : Bool
  isFinal : Bool
  deriving DecidableEq, Repr

mutual

structure Automaton where
  states : List State
  transitions : List Transition

structure Transition where
  source : StateName
  target : StateName
  label : Label

inductive Label where
  | property (instruction : Instruction)
  | sequence (instructions : List Instruction)
  | alternative (branches : List (List Instruction))
  | closure (kind : Closure) (nested : Automaton)

end

deriving instance Repr for Automaton, Transition, Label

instance : Inhabited Automaton := ⟨⟨[], []⟩⟩

mutual

def Automaton.decEq : (a b : Automaton) → Decidable (a = b)
  | ⟨states, transitions⟩, ⟨states', transitions'⟩ =>
      match instDecidableEqList states states', Transition.decEqAll transitions transitions' with
      | isTrue h, isTrue h' => isTrue (by rw [h, h'])
      | isFalse h, _ => isFalse (by intro e; injection e; contradiction)
      | _, isFalse h => isFalse (by intro e; injection e; contradiction)

def Transition.decEqAll : (ts us : List Transition) → Decidable (ts = us)
  | [], [] => isTrue rfl
  | [], _ :: _ => isFalse nofun
  | _ :: _, [] => isFalse nofun
  | ⟨source, target, label⟩ :: ts, ⟨source', target', label'⟩ :: us =>
      match Label.decEq label label', Transition.decEqAll ts us with
      | isTrue h, isTrue h' =>
          if ends : source = source' ∧ target = target' then
            isTrue (by rw [ends.1, ends.2, h, h'])
          else isFalse (by
            simp only [List.cons.injEq, Transition.mk.injEq]
            exact fun e => ends ⟨e.1.1, e.1.2.1⟩)
      | isFalse h, _ =>
          isFalse (by simp only [List.cons.injEq, Transition.mk.injEq]; intro e; exact h e.1.2.2)
      | _, isFalse h => isFalse (by simp only [List.cons.injEq]; intro e; exact h e.2)

def Label.decEq : (l m : Label) → Decidable (l = m)
  | .property i, .property j => decidable_of_iff (i = j) (by rw [Label.property.injEq])
  | .sequence is, .sequence js => decidable_of_iff (is = js) (by rw [Label.sequence.injEq])
  | .alternative bs, .alternative cs => decidable_of_iff (bs = cs) (by rw [Label.alternative.injEq])
  | .closure kind a, .closure kind' b =>
      match Automaton.decEq a b with
      | isTrue h =>
          decidable_of_iff (kind = kind') (by
            rw [Label.closure.injEq]
            exact ⟨fun e => ⟨e, h⟩, And.left⟩)
      | isFalse h => isFalse (by rw [Label.closure.injEq]; exact fun e => h e.2)
  | .property _, .sequence _ => isFalse nofun
  | .property _, .alternative _ => isFalse nofun
  | .property _, .closure _ _ => isFalse nofun
  | .sequence _, .property _ => isFalse nofun
  | .sequence _, .alternative _ => isFalse nofun
  | .sequence _, .closure _ _ => isFalse nofun
  | .alternative _, .property _ => isFalse nofun
  | .alternative _, .sequence _ => isFalse nofun
  | .alternative _, .closure _ _ => isFalse nofun
  | .closure _ _, .property _ => isFalse nofun
  | .closure _ _, .sequence _ => isFalse nofun
  | .closure _ _, .alternative _ => isFalse nofun

end

instance : DecidableEq Automaton := Automaton.decEq

instance : DecidableEq Label := Label.decEq

instance : DecidableEq Transition := fun t u =>
  decidable_of_iff (t.source = u.source ∧ t.target = u.target ∧ t.label = u.label) (by
    cases t
    cases u
    simp)

namespace Label

/-- The chains of instructions that the label chooses from. A closure is no fixed number of
edges. -/
def branches? : Label → Option (List (List Instruction))
  | property i => some [[i]]
  | sequence is => some [is]
  | alternative bs => some bs
  | closure _ _ => none

def nested? : Label → Option Automaton
  | closure _ a => some a
  | _ => none

end Label

namespace Transition

/-- The same label between other states. -/
def between (t : Transition) (source target : StateName) : Transition := ⟨source, target, t.label⟩

end Transition

namespace Automaton

/-- The name of the initial state. -/
def start : StateName := 0

def state? (a : Automaton) (name : StateName) : Option State := a.states.find? (·.name == name)

def isFinal (a : Automaton) (name : StateName) : Bool := (a.state? name).any (·.isFinal)

def initial? (a : Automaton) : Option State := a.states.head?

/-- Whether the empty walk is accepted. -/
def isNullable (a : Automaton) : Bool := a.initial?.any (·.isFinal)

def outgoing (a : Automaton) (name : StateName) : List Transition :=
  a.transitions.filter (·.source == name)

theorem mem_outgoing {a : Automaton} {t : Transition} {s : StateName} :
    t ∈ a.outgoing s ↔ t ∈ a.transitions ∧ t.source = s := by
  simp [outgoing]

end Automaton

end PropertyPath
