import PropertyPath.Path.Fault
import PropertyPath.Path.PropertySet

/-!
# Instructions

An instruction is a property set with at least one property: the rule by which an automaton takes
one edge. Rules with the same direction, sign and properties are equal values.
-/
namespace PropertyPath

structure Instruction extends PropertySet where
  nonempty : properties.toList ≠ []
  deriving DecidableEq, Repr

namespace Instruction

def ofSet (set : PropertySet) : Except PathFault Instruction :=
  if h : set.properties.toList ≠ [] then .ok ⟨set, h⟩ else .error .emptyInstruction

def ofList (properties : List Iri) (inverse negation : Bool) : Except PathFault Instruction :=
  ofSet ⟨.ofList properties, inverse, negation⟩

def forward (property : Iri) : Instruction := ⟨.forward property, List.cons_ne_nil _ _⟩

def backward (property : Iri) : Instruction := ⟨.backward property, List.cons_ne_nil _ _⟩

/-- The property of an instruction that takes the edges of exactly one predicate. -/
def single? (i : Instruction) : Option Iri :=
  match i.properties.toList with
  | [property] => if i.negation then none else some property
  | _ => none

def text (i : Instruction) : String := i.toPropertySet.text

theorem ofSet_eq_ok_iff {set : PropertySet} {i : Instruction} :
    ofSet set = .ok i ↔ i.toPropertySet = set := by
  unfold ofSet
  constructor
  · intro h
    split at h
    · cases h
      rfl
    · cases h
  · intro heq
    subst heq
    rw [dif_pos i.nonempty]

end Instruction

end PropertyPath
