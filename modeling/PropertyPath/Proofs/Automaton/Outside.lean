import PropertyPath.Proofs.Automaton.Compiled
import PropertyPath.Proofs.Automaton.Openings

/-!
# Terms outside the graph

No step can be taken from a term outside the graph, so a path relates it to nothing but itself, and
that only if it matches the empty walk. An automaton without empty chains stays in its initial state
there. As no term is in the empty graph, an automaton that relates what a path relates is nullable
when the path is.
-/
namespace PropertyPath

section outside
variable {G : Set Triple} {x y : Term}

/-- No step can be taken from a term outside the graph. -/
theorem joins_iff_of_notMem_nodesOf (hx : x ∉ nodesOf G) {w : List Step} :
    Joins G w x y ↔ w = [] ∧ x = y := by
  cases w with
  | nil => simp
  | cons s w =>
      simp only [reduceCtorEq, false_and, iff_false, joins_cons]
      intro h
      obtain ⟨hs, rfl, _⟩ := h
      refine hx ⟨s.triple, hs, ?_⟩
      cases hinverse : s.inverse with
      | false => exact Or.inl (by simp [Step.source, hinverse])
      | true => exact Or.inr (by simp [Step.source, hinverse])

theorem PathTree.relation_iff_of_notMem_nodesOf (t : PathTree) (hx : x ∉ nodesOf G) :
    t.relation G x y ↔ t.nullable = true ∧ x = y := by
  rw [relation_eq_ends, ← t.nil_mem_walks]
  simp only [Ends, joins_iff_of_notMem_nodesOf hx]
  constructor
  · intro h
    obtain ⟨_, hw, rfl, heq⟩ := h
    exact ⟨hw, heq⟩
  · intro h
    exact ⟨[], h.1, rfl, h.2⟩

theorem Automaton.isFinal_of_relation_of_notMem_nodesOf {a : Automaton} (hfree : a.EpsilonFree)
    (hx : x ∉ nodesOf G) (h : a.relation G x y) : a.isFinal start = true := by
  rcases hfree.opens_of_relation h with ⟨hfinal, _⟩ | hopens
  · exact hfinal
  · exact absurd (mem_nodesOf_of_opens (nil_notMem_openings hfree) hopens) hx

end outside

/-- An automaton that relates the same terms to themselves as a path is nullable when the path
is. -/
theorem Automaton.Implements.isNullable_eq {a : Automaton} {r : Set Triple → Term → Term → Prop}
    {depth : Nat} (h : a.Implements r depth) {t : PathTree} (hr : ∀ x, r ∅ x x ↔ t.relation ∅ x x) :
    a.isNullable = t.nullable := by
  have hnone (x : Term) : x ∉ nodesOf ∅ := fun hx => hx.elim fun _ ht => ht.1
  let x : Term := .iri ⟨""⟩
  have hx := t.relation_iff_of_notMem_nodesOf (hnone x) (y := x)
  rw [isNullable_iff h.validate, Bool.eq_iff_iff]
  constructor
  · intro hfinal
    have hrelated : a.relation ∅ x x := by
      rw [relation_eq]
      exact leads_of_final hfinal
    rw [h.relation, hr, hx] at hrelated
    exact hrelated.1
  · intro hnullable
    have hrelated : t.relation ∅ x x := hx.mpr ⟨hnullable, rfl⟩
    rw [← hr, ← h.relation] at hrelated
    exact isFinal_of_relation_of_notMem_nodesOf h.epsilonFree (hnone x) hrelated

/-- A compiled path is nullable when the path is. -/
theorem CompiledPath.isNullable_eq {t : PathTree} {optimize : Bool} {path : CompiledPath}
    (h : ofTree t optimize = .ok path) : path.isNullable = t.nullable :=
  (ofTree_implements h).1.isNullable_eq fun _ => Iff.rfl

end PropertyPath
