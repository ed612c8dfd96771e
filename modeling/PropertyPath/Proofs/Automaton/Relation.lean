import PropertyPath.Automaton.Valid
import PropertyPath.Proofs.Automaton.Nesting
import PropertyPath.Proofs.Path.Relation

/-!
# The relation of an automaton

A transition moves from a state and a term to a state and a term. A chain of instructions takes one
edge for each of them, a choice takes one of its chains, and a closure takes any pair of its nested
automaton. The automaton relates two terms when moves lead from the initial state at the one to a
final state at the other.
-/
namespace PropertyPath
open Relation (Comp ReflTransGen)

/-- The pairs of terms that are joined by one edge for each instruction. -/
def chainRelation (G : Set Triple) : List Instruction → Term → Term → Prop
  | [] => Eq
  | i :: is => Comp (Crosses G i.toPropertySet.Takes) (chainRelation G is)

mutual

/-- The pairs of terms that are joined by an accepting run. -/
def Automaton.relation (G : Set Triple) : Automaton → Term → Term → Prop
  | ⟨states, transitions⟩ => fun x y =>
      ∃ q, Automaton.isFinal ⟨states, transitions⟩ q = true ∧
        ReflTransGen (Transition.moves G transitions) (Automaton.start, x) (q, y)

def Transition.moves (G : Set Triple) :
    List Transition → StateName × Term → StateName × Term → Prop
  | [] => fun _ _ => False
  | ⟨source, target, label⟩ :: ts => fun c d =>
      (source = c.1 ∧ target = d.1 ∧ Label.relation G label c.2 d.2) ∨ Transition.moves G ts c d

def Label.relation (G : Set Triple) : Label → Term → Term → Prop
  | .property i => chainRelation G [i]
  | .sequence is => chainRelation G is
  | .alternative branches => fun x y => ∃ is ∈ branches, chainRelation G is x y
  | .closure _ nested => Automaton.relation G nested

end

section
variable {G : Set Triple}

theorem chainRelation_append (is js : List Instruction) :
    chainRelation G (is ++ js) = Comp (chainRelation G is) (chainRelation G js) := by
  induction is with
  | nil => rw [List.nil_append, chainRelation, Relation.eq_comp]
  | cons i is ih => rw [List.cons_append, chainRelation, chainRelation, ih, Relation.comp_assoc]

/-- A node at which a chain that is not empty begins is a node of the graph. -/
theorem mem_nodesOf_of_chainRelation {is : List Instruction} {x y : Term} (hne : is ≠ [])
    (h : chainRelation G is x y) : x ∈ nodesOf G := by
  cases is with
  | nil => exact absurd rfl hne
  | cons i is =>
      obtain ⟨z, hcross, _⟩ := h
      exact (mem_nodesOf_of_crosses hcross).1

theorem Transition.moves_iff {ts : List Transition} {c d : StateName × Term} :
    moves G ts c d ↔
      ∃ t ∈ ts, t.source = c.1 ∧ t.target = d.1 ∧ t.label.relation G c.2 d.2 := by
  induction ts with
  | nil => simp [moves]
  | cons t ts ih =>
      obtain ⟨source, target, label⟩ := t
      simp [moves, ih]

theorem Label.relation_of_branches {l : Label} {branches : List (List Instruction)}
    (h : l.branches? = some branches) :
    l.relation G = fun x y => ∃ is ∈ branches, chainRelation G is x y := by
  funext x y
  cases l with
  | property i =>
      cases h
      simp [relation]
  | sequence is =>
      cases h
      simp [relation]
  | alternative bs =>
      cases h
      rfl
  | closure kind nested => cases h

namespace Automaton

/-- One transition further. -/
abbrev Moves (G : Set Triple) (a : Automaton) : StateName × Term → StateName × Term → Prop :=
  Transition.moves G a.transitions

/-- The final states that moves lead to from a state and a term, at the given term. -/
def Leads (G : Set Triple) (a : Automaton) (c : StateName × Term) (y : Term) : Prop :=
  ∃ q, a.isFinal q = true ∧ ReflTransGen (a.Moves G) c (q, y)

theorem relation_eq (a : Automaton) : a.relation G = fun x y => a.Leads G (start, x) y := by
  cases a
  rfl

theorem leads_of_final {a : Automaton} {q : StateName} {y : Term} (h : a.isFinal q = true) :
    a.Leads G (q, y) y := ⟨q, h, ReflTransGen.refl⟩

end Automaton

theorem inside_chainRelation (is : List Instruction) : Inside G (chainRelation G is) := by
  induction is with
  | nil => exact Inside.eq
  | cons i is ih => exact (Inside.crosses _).comp ih

theorem inside_of_moves {a : Automaton} (h : ∀ t ∈ a.transitions, Inside G (t.label.relation G))
    {c d : StateName × Term} (hrun : ReflTransGen (a.Moves G) c d) :
    c.2 = d.2 ∨ c.2 ∈ nodesOf G ∧ d.2 ∈ nodesOf G := by
  induction hrun with
  | refl => exact Or.inl rfl
  | tail _ hmove ih =>
      obtain ⟨t, ht, _, _, hlabel⟩ := Transition.moves_iff.mp hmove
      rcases ih with heq | hnodes
      · rw [heq]
        exact h t ht _ _ hlabel
      · rcases h t ht _ _ hlabel with heq | hnodes'
        · exact Or.inr ⟨hnodes.1, heq ▸ hnodes.2⟩
        · exact Or.inr ⟨hnodes.1, hnodes'.2⟩

theorem Label.inside_relation (l : Label) : Inside G (l.relation G) := by
  induction l using Label.nested_induction with
  | branches l bs hbs =>
      rw [relation_of_branches hbs]
      intro x y hpath
      rcases hpath with ⟨is, _, hchain⟩
      exact inside_chainRelation is x y hchain
  | closure kind a ih =>
      intro x y h
      rw [relation, Automaton.relation_eq] at h
      obtain ⟨q, _, hrun⟩ := h
      exact inside_of_moves ih hrun

theorem Automaton.inside_relation (a : Automaton) : Inside G (a.relation G) := by
  intro x y h
  rw [relation_eq] at h
  obtain ⟨q, _, hrun⟩ := h
  exact inside_of_moves (fun t _ => Label.inside_relation t.label) hrun

end

end PropertyPath
