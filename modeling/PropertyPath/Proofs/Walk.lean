import Mathlib.Computability.Language
import Mathlib.Logic.Relation
import PropertyPath.Rdf.Term

/-!
# Walks in a graph

A step takes one triple, from its subject to its object or the other way round, and a walk is a list
of steps. A language of walks stands for a relation between terms: it relates the two ends of every
walk of the language that the graph has. Union, concatenation and repetition of languages are union,
composition and closure of relations.
-/
namespace PropertyPath
open scoped Computability
open Relation (Comp ReflTransGen)

/-- A triple with the direction in which it is taken. -/
structure Step where
  triple : Triple
  inverse : Bool

namespace Step

def source (s : Step) : Term := if s.inverse then s.triple.object else s.triple.subject.toTerm

def target (s : Step) : Term := if s.inverse then s.triple.subject.toTerm else s.triple.object

def reversed (s : Step) : Step := ⟨s.triple, !s.inverse⟩

@[simp] theorem reversed_reversed (s : Step) : s.reversed.reversed = s := by
  simp [reversed]

@[simp] theorem source_reversed (s : Step) : s.reversed.source = s.target := by
  cases h : s.inverse <;> simp [reversed, source, target, h]

@[simp] theorem target_reversed (s : Step) : s.reversed.target = s.source := by
  cases h : s.inverse <;> simp [reversed, source, target, h]

end Step

section
variable {G : Set Triple}

/-- The steps follow each other from `x` to `y`, all of them in the graph. -/
def Joins (G : Set Triple) : List Step → Term → Term → Prop
  | [], x, y => x = y
  | s :: w, x, y => s.triple ∈ G ∧ s.source = x ∧ Joins G w s.target y

@[simp] theorem joins_nil {x y : Term} : Joins G [] x y ↔ x = y := Iff.rfl

@[simp] theorem joins_cons {s : Step} {w : List Step} {x y : Term} :
    Joins G (s :: w) x y ↔ s.triple ∈ G ∧ s.source = x ∧ Joins G w s.target y := Iff.rfl

theorem joins_append {v w : List Step} {x z : Term} :
    Joins G (v ++ w) x z ↔ ∃ y, Joins G v x y ∧ Joins G w y z := by
  induction v generalizing x with
  | nil => simp
  | cons s v ih =>
      simp only [List.cons_append, joins_cons, ih]
      constructor
      · intro h
        rcases h with ⟨hs, hx, y, hv, hw⟩
        exact ⟨y, ⟨hs, hx, hv⟩, hw⟩
      · intro h
        rcases h with ⟨y, ⟨hs, hx, hv⟩, hw⟩
        exact ⟨hs, hx, y, hv, hw⟩

/-- The two ends of the walks of a language. -/
def Ends (G : Set Triple) (L : Language Step) (x y : Term) : Prop := ∃ w ∈ L, Joins G w x y

theorem ends_zero : Ends G 0 = fun _ _ => False := by
  funext x y
  simp [Ends]

theorem ends_one : Ends G 1 = Eq := by
  funext x y
  simp [Ends]

theorem ends_add (L M : Language Step) :
    Ends G (L + M) = fun x y => Ends G L x y ∨ Ends G M x y := by
  funext x y
  apply propext
  constructor
  · intro hwalk
    rcases hwalk with ⟨w, hw | hw, h⟩
    · exact Or.inl ⟨w, hw, h⟩
    · exact Or.inr ⟨w, hw, h⟩
  · intro hjoined
    rcases hjoined with ⟨w, hw, h⟩ | ⟨w, hw, h⟩
    · exact ⟨w, Or.inl hw, h⟩
    · exact ⟨w, Or.inr hw, h⟩

theorem ends_mul (L M : Language Step) : Ends G (L * M) = Comp (Ends G L) (Ends G M) := by
  funext x z
  apply propext
  constructor
  · intro hwalk
    rcases hwalk with ⟨_, ⟨v, hv, w, hw, rfl⟩, h⟩
    obtain ⟨y, hxy, hyz⟩ := joins_append.mp h
    exact ⟨y, ⟨v, hv, hxy⟩, ⟨w, hw, hyz⟩⟩
  · intro hjoined
    rcases hjoined with ⟨y, ⟨v, hv, hxy⟩, ⟨w, hw, hyz⟩⟩
    exact ⟨v ++ w, Language.append_mem_mul hv hw, joins_append.mpr ⟨y, hxy, hyz⟩⟩

theorem ends_kstar (L : Language Step) : Ends G L∗ = ReflTransGen (Ends G L) := by
  funext x y
  apply propext
  constructor
  · intro hwalk
    rcases hwalk with ⟨_, ⟨ws, rfl, hws⟩, h⟩
    induction ws generalizing x with
    | nil => exact (joins_nil.mp h) ▸ ReflTransGen.refl
    | cons w ws ih =>
        rw [List.flatten_cons] at h
        obtain ⟨z, hxz, hzy⟩ := joins_append.mp h
        have hrest := ih z (fun v hv => hws v (List.mem_cons_of_mem w hv)) hzy
        exact ReflTransGen.head ⟨w, hws w List.mem_cons_self, hxz⟩ hrest
  · intro h
    induction h using ReflTransGen.head_induction_on with
    | refl => exact ⟨[], Language.nil_mem_kstar L, rfl⟩
    | head hxz _ ih =>
        obtain ⟨v, hv, hxz⟩ := hxz
        obtain ⟨_, ⟨ws, rfl, hws⟩, hzy⟩ := ih
        refine ⟨(v :: ws).flatten, Language.join_mem_kstar ?_, joins_append.mpr ⟨_, hxz, hzy⟩⟩
        intro w hw
        rcases List.mem_cons.mp hw with rfl | hw
        · exact hv
        · exact hws w hw

/-- The ends of the steps of the graph that satisfy a rule. -/
def Crosses (G : Set Triple) (rule : Step → Prop) (x y : Term) : Prop :=
  ∃ s : Step, s.triple ∈ G ∧ rule s ∧ s.source = x ∧ s.target = y

/-- The walks of one step that satisfies a rule. -/
def single (rule : Step → Prop) : Language Step := {w | ∃ s, rule s ∧ w = [s]}

theorem mem_single {rule : Step → Prop} {w : List Step} :
    w ∈ single rule ↔ ∃ s, rule s ∧ w = [s] := Iff.rfl

theorem ends_single (rule : Step → Prop) : Ends G (single rule) = Crosses G rule := by
  funext x y
  apply propext
  constructor
  · intro h
    rcases h with ⟨_, ⟨s, hs, rfl⟩, hG, hx, hy⟩
    exact ⟨s, hG, hs, hx, hy⟩
  · intro h
    rcases h with ⟨s, hG, hs, hx, hy⟩
    exact ⟨[s], ⟨s, hs, rfl⟩, hG, hx, hy⟩

theorem crosses_reversed (rule : Step → Prop) :
    Crosses G (fun s => rule s.reversed) = flip (Crosses G rule) := by
  funext x y
  apply propext
  constructor
  · intro h
    rcases h with ⟨s, hG, hs, rfl, rfl⟩
    exact ⟨s.reversed, hG, hs, s.source_reversed, s.target_reversed⟩
  · intro h
    rcases h with ⟨s, hG, hs, rfl, rfl⟩
    exact ⟨s.reversed, hG, by simpa using hs, s.source_reversed, s.target_reversed⟩

/-- The subjects and objects of the triples. -/
def nodesOf (G : Set Triple) : Set Term := {x | ∃ t ∈ G, x = t.subject.toTerm ∨ x = t.object}

theorem mem_nodesOf_of_crosses {rule : Step → Prop} {x y : Term} (h : Crosses G rule x y) :
    x ∈ nodesOf G ∧ y ∈ nodesOf G := by
  obtain ⟨⟨t, inverse⟩, ht, _, rfl, rfl⟩ := h
  cases inverse with
  | false => exact ⟨⟨t, ht, Or.inl rfl⟩, ⟨t, ht, Or.inr rfl⟩⟩
  | true => exact ⟨⟨t, ht, Or.inr rfl⟩, ⟨t, ht, Or.inl rfl⟩⟩

/-- Only nodes of the graph are related to other terms. -/
def Inside (G : Set Triple) (r : Term → Term → Prop) : Prop :=
  ∀ x y, r x y → x = y ∨ x ∈ nodesOf G ∧ y ∈ nodesOf G

namespace Inside
variable {r q : Term → Term → Prop}

theorem eq : Inside G Eq := fun _ _ h => Or.inl h

theorem crosses (rule : Step → Prop) : Inside G (Crosses G rule) :=
  fun _ _ h => Or.inr (mem_nodesOf_of_crosses h)

theorem comp (hr : Inside G r) (hq : Inside G q) : Inside G (Comp r q) := by
  intro x z h
  rcases h with ⟨y, hxy, hyz⟩
  rcases hr x y hxy with rfl | hxy'
  · exact hq x z hyz
  · rcases hq y z hyz with rfl | hyz'
    · exact Or.inr hxy'
    · exact Or.inr ⟨hxy'.1, hyz'.2⟩

end Inside

end

end PropertyPath
