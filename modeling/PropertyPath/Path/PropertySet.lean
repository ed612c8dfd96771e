import PropertyPath.Rdf.Iri

/-!
# Sets of properties with a direction and a sign

A `PropertySet` tells which single edges may be taken. Without a sign it takes the edges whose
predicate is a member, negated it takes all others; inverse, it takes an edge from its object to its
subject.
-/
namespace PropertyPath

structure PropertySet where
  properties : IriSet
  inverse : Bool
  negation : Bool
  deriving DecidableEq, Repr

namespace PropertySet

/-- The single property, from subject to object. -/
def forward (property : Iri) : PropertySet := ⟨IriSet.ofList [property], false, false⟩

/-- The single property, from object to subject. -/
def backward (property : Iri) : PropertySet := ⟨IriSet.ofList [property], true, false⟩

def withInverse (s : PropertySet) (inverse : Bool) : PropertySet := { s with inverse }

/-- Whether an edge with this predicate may be taken, in whichever direction. -/
def admits (s : PropertySet) (predicate : Iri) : Bool :=
  if s.negation then decide (predicate ∉ s.properties) else decide (predicate ∈ s.properties)

/-- A single property stands alone; any other number of them stands in parentheses. -/
def text (s : PropertySet) : String :=
  let members :=
    match s.properties.toList with
    | [property] => property.text
    | properties => "(" ++ "|".intercalate (properties.map Iri.text) ++ ")"
  (if s.inverse then "^" else "") ++ (if s.negation then "!" else "") ++ members

@[simp] theorem withInverse_inverse (s : PropertySet) (b : Bool) :
    (s.withInverse b).inverse = b := rfl

@[simp] theorem withInverse_withInverse (s : PropertySet) (a b : Bool) :
    (s.withInverse a).withInverse b = s.withInverse b := rfl

theorem admits_iff {s : PropertySet} {p : Iri} :
    s.admits p = true ↔ (p ∈ s.properties ↔ s.negation = false) := by
  unfold admits
  cases s.negation <;> simp

end PropertySet

end PropertyPath
