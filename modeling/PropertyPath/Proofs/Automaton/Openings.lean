import PropertyPath.Proofs.Automaton.Nesting
import PropertyPath.Proofs.Automaton.Relation
import PropertyPath.Search.Origins

/-!
# How a run begins

A run that takes a transition begins with one out of the initial state, and if that is a closure
then with one out of the initial state of its nested automaton, and so on. As no chain of an
automaton without empty chains is empty, such a run begins at a node of the graph.
-/
namespace PropertyPath

variable {G : Set Triple} {x y : Term}

/-- One of the chains of some choices can be taken from the term. -/
def Opens (G : Set Triple) (openings : List (List (List Instruction))) (x : Term) : Prop :=
  ∃ branches ∈ openings, ∃ is ∈ branches, ∃ y, chainRelation G is x y

/-- The choices of chains with which a transition with this label may begin. -/
def Label.starts (l : Label) : List (List (List Instruction)) := l.branches?.toList ++ l.openings

theorem Transition.mem_nestedOpenings {ts : List Transition} {branches : List (List Instruction)} :
    branches ∈ nestedOpenings ts ↔
      ∃ t ∈ ts, t.source = Automaton.start ∧ branches ∈ t.label.openings := by
  induction ts with
  | nil => simp [nestedOpenings]
  | cons t ts ih =>
      obtain ⟨source, target, label⟩ := t
      rw [nestedOpenings, List.mem_append, ih]
      by_cases hsource : source = Automaton.start
      · simp [hsource, or_comm]
      · simp [hsource]

theorem Automaton.mem_openings {a : Automaton} {branches : List (List Instruction)} :
    branches ∈ a.openings ↔ ∃ t ∈ a.transitions, t.source = start ∧ branches ∈ t.label.starts := by
  obtain ⟨states, ts⟩ := a
  rw [openings, List.mem_append, Transition.mem_nestedOpenings, List.mem_filterMap]
  simp only [List.mem_filter, beq_iff_eq, Label.starts, List.mem_append, Option.mem_toList]
  constructor
  · intro h
    rcases h with ⟨t, ⟨ht, hsource⟩, hbranches⟩ | ⟨t, ht, hsource, hbranches⟩
    · exact ⟨t, ht, hsource, Or.inl hbranches⟩
    · exact ⟨t, ht, hsource, Or.inr hbranches⟩
  · intro h
    rcases h with ⟨t, ht, hsource, hbranches | hbranches⟩
    · exact Or.inl ⟨t, ⟨ht, hsource⟩, hbranches⟩
    · exact Or.inr ⟨t, ht, hsource, hbranches⟩

/-- What an automaton relates is the same term, or there is a first transition to be found. -/
theorem Automaton.opens_of_relation {a : Automaton}
    (hstarts : ∀ t ∈ a.transitions, ∀ x y, t.label.relation G x y → Opens G t.label.starts x)
    (h : a.relation G x y) : (a.isFinal start = true ∧ x = y) ∨ Opens G a.openings x := by
  rw [relation_eq] at h
  obtain ⟨q, hfinal, hrun⟩ := h
  rcases hrun.cases_head with heq | ⟨d, hmove, _⟩
  · cases heq
    exact Or.inl ⟨hfinal, rfl⟩
  · obtain ⟨t, ht, hsource, _, hlabel⟩ := Transition.moves_iff.mp hmove
    obtain ⟨branches, hbranches, hopens⟩ := hstarts t ht _ _ hlabel
    exact Or.inr ⟨branches, mem_openings.mpr ⟨t, ht, hsource, hbranches⟩, hopens⟩

theorem Label.starts_of_branches {l : Label} {branches : List (List Instruction)}
    (h : l.branches? = some branches) : l.starts = [branches] := by
  cases l with
  | closure kind a => cases h
  | _ =>
      cases h
      rfl

theorem Label.opens_of_relation (l : Label) (hfree : l.EpsilonFree) :
    ∀ x y, l.relation G x y → Opens G l.starts x := by
  induction l using Label.nested_induction with
  | branches l bs hbs =>
      intro x y h
      rw [relation_of_branches hbs] at h
      obtain ⟨is, his, hchain⟩ := h
      rw [starts_of_branches hbs]
      exact ⟨bs, List.mem_cons_self, is, his, y, hchain⟩
  | closure kind a ih =>
      intro x y h
      obtain ⟨hnotFinal, ha⟩ := hfree
      have hinner := fun t ht => ih t ht (Automaton.epsilonFree_iff.mp ha t ht)
      rcases Automaton.opens_of_relation hinner h with ⟨hfinal, _⟩ | hopens
      · rw [hnotFinal] at hfinal
        cases hfinal
      · exact hopens

/-- No chain with which a walk may begin is empty. -/
theorem Label.nil_notMem_starts (l : Label) (hfree : l.EpsilonFree) :
    ∀ branches ∈ l.starts, [] ∉ branches := by
  induction l using Label.nested_induction with
  | branches l bs hbs =>
      rw [starts_of_branches hbs]
      intro branches hbranches
      rw [List.mem_singleton.mp hbranches]
      exact ((epsilonFree_of_branches hbs).mp hfree).2
  | closure kind a ih =>
      intro branches hbranches
      obtain ⟨t, ht, _, hstarts⟩ := Automaton.mem_openings.mp hbranches
      exact ih t ht (Automaton.epsilonFree_iff.mp hfree.2 t ht) branches hstarts

namespace Automaton
variable {a : Automaton}

theorem nil_notMem_openings (hfree : a.EpsilonFree) : ∀ branches ∈ a.openings, [] ∉ branches := by
  intro branches hbranches
  obtain ⟨t, ht, _, hstarts⟩ := mem_openings.mp hbranches
  exact Label.nil_notMem_starts t.label (epsilonFree_iff.mp hfree t ht) branches hstarts

/-- Without empty chains, what an automaton relates is the same term or can be found by its first
chains. -/
theorem EpsilonFree.opens_of_relation (hfree : a.EpsilonFree) (h : a.relation G x y) :
    (a.isFinal start = true ∧ x = y) ∨ Opens G a.openings x :=
  Automaton.opens_of_relation
    (fun t ht => Label.opens_of_relation t.label (epsilonFree_iff.mp hfree t ht)) h

end Automaton

theorem mem_nodesOf_of_opens {openings : List (List (List Instruction))}
    (hne : ∀ branches ∈ openings, [] ∉ branches) (h : Opens G openings x) : x ∈ nodesOf G := by
  obtain ⟨branches, hbranches, is, his, y, hchain⟩ := h
  have hnil : is ≠ [] := fun heq => hne branches hbranches (heq ▸ his)
  exact mem_nodesOf_of_chainRelation hnil hchain

end PropertyPath
