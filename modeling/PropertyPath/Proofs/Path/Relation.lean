import PropertyPath.Path.Tree
import PropertyPath.Proofs.Walk

/-!
# The relation of a path tree

A leaf relates the ends of the edges that it takes, and the operators combine relations: the inverse
is the converse, a sequence the composition, an alternative the union, and the closures are the
reflexive and transitive closures. A negation takes the edges of each direction that occurs in it
and whose predicate it does not list for that direction.

The walks that match a tree are the same thing one level down: the relation of a tree holds of the
ends of the walks that match it.
-/
namespace PropertyPath
open scoped Computability
open Relation (Comp ReflGen ReflTransGen TransGen)

/-- The steps that a property set takes. -/
def PropertySet.Takes (set : PropertySet) (s : Step) : Prop :=
  s.inverse = set.inverse ∧ set.admits s.triple.predicate = true

def Closure.relation (kind : Closure) (r : Term → Term → Prop) : Term → Term → Prop :=
  match kind with
  | .zeroOrMore => ReflTransGen r
  | .oneOrMore => TransGen r
  | .zeroOrOne => ReflGen r

def Closure.language {α : Type} (kind : Closure) (L : Language α) : Language α :=
  match kind with
  | .zeroOrMore => L∗
  | .oneOrMore => L * L∗
  | .zeroOrOne => 1 + L

namespace PathTree

mutual

/-- The properties that stand below a negation, for each direction; every inverse on the way turns
the direction round. -/
def Lists (inverse : Bool) (p : Iri) : PathTree → Prop
  | .property set => set.inverse = inverse ∧ p ∈ set.properties
  | .inverse item => Lists (!inverse) p item
  | .alternative items => AnyLists inverse p items
  | .negation _ => False
  | .closure _ _ => False
  | .sequence _ => False

def AnyLists (inverse : Bool) (p : Iri) : List PathTree → Prop
  | [] => False
  | t :: ts => Lists inverse p t ∨ AnyLists inverse p ts

end

/-- The steps that the negation of some trees takes: something is listed for their direction, but
not their predicate. -/
def Spares (items : List PathTree) (s : Step) : Prop :=
  (∃ p, AnyLists s.inverse p items) ∧ ¬ AnyLists s.inverse s.triple.predicate items

mutual

/-- The pairs of terms that a tree relates in a graph. -/
def relation (G : Set Triple) : PathTree → Term → Term → Prop
  | .property set => Crosses G set.Takes
  | .inverse item => flip (relation G item)
  | .negation items => Crosses G (Spares items)
  | .closure kind item => kind.relation (relation G item)
  | .sequence items => relationOfSequence G items
  | .alternative items => relationOfAny G items

def relationOfSequence (G : Set Triple) : List PathTree → Term → Term → Prop
  | [] => Eq
  | t :: ts => Comp (relation G t) (relationOfSequence G ts)

def relationOfAny (G : Set Triple) : List PathTree → Term → Term → Prop
  | [] => fun _ _ => False
  | t :: ts => fun x y => relation G t x y ∨ relationOfAny G ts x y

end

mutual

/-- The walks that match a tree. -/
def walks : PathTree → Language Step
  | .property set => single set.Takes
  | .inverse item => {w | (w.map Step.reversed).reverse ∈ walks item}
  | .negation items => single (Spares items)
  | .closure kind item => kind.language (walks item)
  | .sequence items => walksOfSequence items
  | .alternative items => walksOfAny items

def walksOfSequence : List PathTree → Language Step
  | [] => 1
  | t :: ts => walks t * walksOfSequence ts

def walksOfAny : List PathTree → Language Step
  | [] => 0
  | t :: ts => walks t + walksOfAny ts

end

end PathTree

section
variable {G : Set Triple}

theorem ends_closure (kind : Closure) (L : Language Step) :
    Ends G (kind.language L) = kind.relation (Ends G L) := by
  cases kind with
  | zeroOrMore => exact ends_kstar L
  | oneOrMore =>
      change Ends G (L * L∗) = TransGen (Ends G L)
      rw [ends_mul, ends_kstar]
      funext x y
      apply propext
      rw [Relation.TransGen.head'_iff]
      rfl
  | zeroOrOne =>
      change Ends G (1 + L) = ReflGen (Ends G L)
      rw [ends_add, ends_one]
      funext x y
      apply propext
      rw [Relation.reflGen_iff, eq_comm]

theorem joins_reverse {w : List Step} {x y : Term} :
    Joins G (w.map Step.reversed).reverse x y ↔ Joins G w y x := by
  induction w generalizing y with
  | nil => simp [eq_comm]
  | cons s w ih =>
      rw [List.map_cons, List.reverse_cons, joins_append]
      simp only [ih, joins_cons, joins_nil, Step.source_reversed, Step.target_reversed]
      constructor
      · intro h
        rcases h with ⟨z, hw, hG, rfl, rfl⟩
        exact ⟨hG, rfl, hw⟩
      · intro h
        rcases h with ⟨hG, rfl, hw⟩
        exact ⟨_, hw, hG, rfl, rfl⟩

theorem ends_reversed (L : Language Step) :
    Ends G {w | (w.map Step.reversed).reverse ∈ L} = flip (Ends G L) := by
  funext x y
  apply propext
  constructor
  · intro hwalk
    rcases hwalk with ⟨w, hw, h⟩
    exact ⟨_, hw, joins_reverse.mpr h⟩
  · intro hjoined
    rcases hjoined with ⟨w, hw, h⟩
    refine ⟨(w.map Step.reversed).reverse, ?_, joins_reverse.mpr h⟩
    change (((w.map Step.reversed).reverse).map Step.reversed).reverse ∈ L
    have hback : (((w.map Step.reversed).reverse).map Step.reversed).reverse = w := by
      rw [List.map_reverse, List.reverse_reverse, List.map_map]
      simp [Function.comp_def]
    rwa [hback]

namespace PathTree

mutual

/-- The relation of a tree holds of the ends of the walks that match it. -/
theorem relation_eq_ends (t : PathTree) : t.relation G = Ends G t.walks := by
  cases t with
  | property set => rw [relation, walks, ends_single]
  | inverse item => rw [relation, walks, ends_reversed, relation_eq_ends item]
  | negation items => rw [relation, walks, ends_single]
  | closure kind item => rw [relation, walks, ends_closure, relation_eq_ends item]
  | sequence items => rw [relation, walks, relationOfSequence_eq_ends items]
  | alternative items => rw [relation, walks, relationOfAny_eq_ends items]

theorem relationOfSequence_eq_ends (ts : List PathTree) :
    relationOfSequence G ts = Ends G (walksOfSequence ts) := by
  cases ts with
  | nil => rw [relationOfSequence, walksOfSequence, ends_one]
  | cons t ts =>
      rw [relationOfSequence, walksOfSequence, ends_mul, relation_eq_ends t,
        relationOfSequence_eq_ends ts]

theorem relationOfAny_eq_ends (ts : List PathTree) :
    relationOfAny G ts = Ends G (walksOfAny ts) := by
  cases ts with
  | nil => rw [relationOfAny, walksOfAny, ends_zero]
  | cons t ts =>
      rw [relationOfAny, walksOfAny, ends_add, relation_eq_ends t, relationOfAny_eq_ends ts]

end

end PathTree

end

end PropertyPath
