import PropertyPath.Automaton.Basic

/-!
# Chains of instructions between two states

A chain is what a property transition and a sequence transition have in common: both take a fixed
list of edges one after the other. Two chains that meet in a state can be put together.
-/
namespace PropertyPath

structure Chain where
  source : StateName
  target : StateName
  instructions : List Instruction
  deriving DecidableEq, Repr

namespace Chain

def ofTransition? (t : Transition) : Option Chain :=
  match t.label with
  | .property i => some ⟨t.source, t.target, [i]⟩
  | .sequence is => some ⟨t.source, t.target, is⟩
  | .alternative _ => none
  | .closure _ _ => none

def toTransition (c : Chain) : Transition := ⟨c.source, c.target, .sequence c.instructions⟩

/-- The two chains one after the other, from the start of the first to the end of the second. -/
def extend (c d : Chain) : Chain := ⟨c.source, d.target, c.instructions ++ d.instructions⟩

/-- Refuses chains that do not meet. -/
def append (c d : Chain) : Except PathFault Chain :=
  if c.target = d.source then .ok (c.extend d)
  else .error (.misalignedSequence c.target d.source)

@[simp] theorem ofTransition?_toTransition (c : Chain) :
    ofTransition? c.toTransition = some c := rfl

end Chain

end PropertyPath
