import PropertyPath.Path.Builder
import PropertyPath.Proofs.Outcome

/-!
# Finished trees

A finished tree is formed: each of its nodes has at least one operand, or at least one property.
Below a negation only alternatives, inverses and leaves without a sign are allowed; a tree that
keeps to this is well negated.
-/
namespace PropertyPath

namespace PathTree

/-- The predicate holds of the tree and of all its subtrees. -/
def Throughout (P : PathTree → Prop) (t : PathTree) : Prop := ∀ u ∈ t.subtrees, P u

/-- The node has what it is made of: a property, or an operand. -/
def Filled : PathTree → Prop
  | .property set => set.properties.toList ≠ []
  | .inverse _ => True
  | .negation items => items ≠ []
  | .closure _ _ => True
  | .sequence items => items ≠ []
  | .alternative items => items ≠ []

/-- The node may stand below a negation. -/
def Negatable : PathTree → Prop
  | .property set => set.negation = false
  | .inverse _ => True
  | .alternative _ => True
  | .negation _ => False
  | .closure _ _ => False
  | .sequence _ => False

/-- If the node is a negation, all nodes below it may stand there. -/
def NegatesProperly : PathTree → Prop
  | .negation items => ∀ u ∈ subtreesAll items, u.Negatable
  | _ => True

def Formed (t : PathTree) : Prop := t.Throughout Filled

def WellNegated (t : PathTree) : Prop := t.Throughout NegatesProperly

section throughout
variable {P : PathTree → Prop} {item : PathTree} {items ts : List PathTree}

theorem forall_mem_subtreesAll :
    (∀ u ∈ subtreesAll ts, P u) ↔ ∀ t ∈ ts, t.Throughout P := by
  induction ts with
  | nil => simp [subtreesAll]
  | cons t ts ih => rw [subtreesAll, List.forall_mem_append, ih, List.forall_mem_cons, Throughout]

@[simp] theorem throughout_property {set : PropertySet} :
    Throughout P (.property set) ↔ P (.property set) := by
  simp [Throughout, subtrees]

@[simp] theorem throughout_inverse :
    Throughout P (.inverse item) ↔ item.Throughout P ∧ P (.inverse item) := by
  rw [Throughout, subtrees, List.forall_mem_append, List.forall_mem_singleton]
  rfl

@[simp] theorem throughout_negation :
    Throughout P (.negation items) ↔ (∀ t ∈ items, t.Throughout P) ∧ P (.negation items) := by
  rw [Throughout, subtrees, List.forall_mem_append,
    List.forall_mem_singleton, forall_mem_subtreesAll]

@[simp] theorem throughout_closure {kind : Closure} :
    Throughout P (.closure kind item) ↔ item.Throughout P ∧ P (.closure kind item) := by
  rw [Throughout, subtrees, List.forall_mem_append, List.forall_mem_singleton]
  rfl

@[simp] theorem throughout_sequence :
    Throughout P (.sequence items) ↔ (∀ t ∈ items, t.Throughout P) ∧ P (.sequence items) := by
  rw [Throughout, subtrees, List.forall_mem_append,
    List.forall_mem_singleton, forall_mem_subtreesAll]

@[simp] theorem throughout_alternative :
    Throughout P (.alternative items) ↔ (∀ t ∈ items, t.Throughout P) ∧ P (.alternative items) := by
  rw [Throughout, subtrees, List.forall_mem_append,
    List.forall_mem_singleton, forall_mem_subtreesAll]

mutual

/-- What holds throughout a tree holds throughout its subtrees. -/
theorem throughout_of_mem {t u : PathTree} (h : t.Throughout P) (hu : u ∈ t.subtrees) :
    u.Throughout P := by
  cases t with
  | property set => exact List.mem_singleton.mp hu ▸ h
  | inverse item =>
      rcases List.mem_append.mp hu with hu | hu
      · exact throughout_of_mem (throughout_inverse.mp h).1 hu
      · exact List.mem_singleton.mp hu ▸ h
  | negation items =>
      rcases List.mem_append.mp hu with hu | hu
      · exact throughout_of_memAll (throughout_negation.mp h).1 hu
      · exact List.mem_singleton.mp hu ▸ h
  | closure kind item =>
      rcases List.mem_append.mp hu with hu | hu
      · exact throughout_of_mem (throughout_closure.mp h).1 hu
      · exact List.mem_singleton.mp hu ▸ h
  | sequence items =>
      rcases List.mem_append.mp hu with hu | hu
      · exact throughout_of_memAll (throughout_sequence.mp h).1 hu
      · exact List.mem_singleton.mp hu ▸ h
  | alternative items =>
      rcases List.mem_append.mp hu with hu | hu
      · exact throughout_of_memAll (throughout_alternative.mp h).1 hu
      · exact List.mem_singleton.mp hu ▸ h

theorem throughout_of_memAll {ts : List PathTree} {u : PathTree} (h : ∀ t ∈ ts, t.Throughout P)
    (hu : u ∈ subtreesAll ts) : u.Throughout P := by
  cases ts with
  | nil => cases hu
  | cons t ts =>
      obtain ⟨hfirst, hrest⟩ := List.forall_mem_cons.mp h
      rcases List.mem_append.mp hu with hu | hu
      · exact throughout_of_mem hfirst hu
      · exact throughout_of_memAll hrest hu

end

/-- A tree that may stand below a negation as a whole holds no negation itself. -/
theorem wellNegated_of_negatable {t : PathTree} (h : t.Throughout Negatable) : t.WellNegated := by
  intro u hu
  have hnode := h u hu
  cases u with
  | negation items => exact hnode.elim
  | _ => trivial

/-- What has items still has some when the items of the same operator are spliced. -/
theorem throughout_splice {op : List PathTree → PathTree} {itemsOf : PathTree → List PathTree}
    (hop : ∀ items, (op items).Throughout P ↔ (∀ t ∈ items, t.Throughout P) ∧ items ≠ [])
    (hitems : ∀ t, t.Throughout P → (∀ u ∈ itemsOf t, u.Throughout P) ∧ itemsOf t ≠ [])
    (hne : ts ≠ []) (h : ∀ t ∈ ts, t.Throughout P) : (op (ts.flatMap itemsOf)).Throughout P := by
  rw [hop]
  constructor
  · intro u hu
    obtain ⟨t, ht, hmem⟩ := List.mem_flatMap.mp hu
    exact (hitems t (h t ht)).1 u hmem
  · obtain ⟨t, ht⟩ := List.exists_mem_of_ne_nil ts hne
    obtain ⟨u, hu⟩ := List.exists_mem_of_ne_nil _ (hitems t (h t ht)).2
    exact List.ne_nil_of_mem (List.mem_flatMap.mpr ⟨t, ht, hu⟩)

theorem throughout_joinSequence (hP : ∀ items, P (.sequence items) ↔ items ≠ []) (hne : ts ≠ [])
    (h : ∀ t ∈ ts, t.Throughout P) : (joinSequence ts).Throughout P := by
  have hop (items : List PathTree) : Throughout P (.sequence items) ↔
      (∀ t ∈ items, t.Throughout P) ∧ items ≠ [] := by
    rw [throughout_sequence, hP]
  have hitems (t : PathTree) (ht : t.Throughout P) :
      (∀ u ∈ t.sequenceItems, u.Throughout P) ∧ t.sequenceItems ≠ [] := by
    cases t with
    | sequence items => exact (hop items).mp ht
    | _ => exact ⟨fun u hu => List.mem_singleton.mp hu ▸ ht, List.cons_ne_nil _ _⟩
  match ts with
  | [] => exact throughout_splice hop hitems hne h
  | [t] => exact h t List.mem_cons_self
  | t :: u :: ts => exact throughout_splice hop hitems hne h

theorem throughout_joinAlternative
    (hP : ∀ items, P (.alternative items) ↔ items ≠ []) (hne : ts ≠ [])
    (h : ∀ t ∈ ts, t.Throughout P) : (joinAlternative ts).Throughout P := by
  have hop (items : List PathTree) : Throughout P (.alternative items) ↔
      (∀ t ∈ items, t.Throughout P) ∧ items ≠ [] := by
    rw [throughout_alternative, hP]
  have hitems (t : PathTree) (ht : t.Throughout P) :
      (∀ u ∈ t.alternativeItems, u.Throughout P) ∧ t.alternativeItems ≠ [] := by
    cases t with
    | alternative items => exact (hop items).mp ht
    | _ => exact ⟨fun u hu => List.mem_singleton.mp hu ▸ ht, List.cons_ne_nil _ _⟩
  match ts with
  | [] => exact throughout_splice hop hitems hne h
  | [t] => exact h t List.mem_cons_self
  | t :: u :: ts => exact throughout_splice hop hitems hne h

/-- What holds throughout a spliced sequence of two trees holds throughout both, if it holds of
every sequence. -/
theorem throughout_of_joinSequence (hP : ∀ items, P (.sequence items)) {t u : PathTree}
    (h : (joinSequence [t, u]).Throughout P) : t.Throughout P ∧ u.Throughout P := by
  have hitems (t : PathTree) (ht : ∀ v ∈ t.sequenceItems, v.Throughout P) : t.Throughout P := by
    cases t with
    | sequence items => exact throughout_sequence.mpr ⟨ht, hP items⟩
    | _ => exact ht _ (List.mem_singleton_self _)
  have hall := (throughout_sequence.mp h).1
  exact ⟨hitems t fun v hv => hall v (List.mem_flatMap.mpr ⟨t, by simp, hv⟩),
    hitems u fun v hv => hall v (List.mem_flatMap.mpr ⟨u, by simp, hv⟩)⟩

theorem throughout_of_joinAlternative (hP : ∀ items, P (.alternative items)) {t u : PathTree}
    (h : (joinAlternative [t, u]).Throughout P) : t.Throughout P ∧ u.Throughout P := by
  have hitems (t : PathTree) (ht : ∀ v ∈ t.alternativeItems, v.Throughout P) : t.Throughout P := by
    cases t with
    | alternative items => exact throughout_alternative.mpr ⟨ht, hP items⟩
    | _ => exact ht _ (List.mem_singleton_self _)
  have hall := (throughout_alternative.mp h).1
  exact ⟨hitems t fun v hv => hall v (List.mem_flatMap.mpr ⟨t, by simp, hv⟩),
    hitems u fun v hv => hall v (List.mem_flatMap.mpr ⟨u, by simp, hv⟩)⟩

end throughout

section finish
variable {b : TreeBuilder}

/-- What unfolds from a node is formed. -/
theorem formed_of_unfold {id : NodeId} {t : PathTree} (h : b.unfold id = .ok t) : t.Formed := by
  induction hn : id.index using Nat.strongRecOn generalizing id t with
  | ind n ih =>
      have hchild {item : NodeId} {u : PathTree}
          (hu : (if item.index < id.index then b.unfold item
            else .error (.malformedNode item .lateChild)) = .ok u) : u.Formed := by
        split at hu
        · next hlt => exact ih item.index (hn ▸ hlt) hu rfl
        · cases hu
      have hchildren {items : List NodeId} {us : List PathTree} (hne : items ≠ [])
          (hus : (items.mapM fun item => if item.index < id.index then b.unfold item
            else .error (.malformedNode item .lateChild)) = .ok us) :
          (∀ u ∈ us, u.Formed) ∧ us ≠ [] := by
        refine ⟨?_, mapM_ne_nil hne hus⟩
        intro u hu
        obtain ⟨item, _, hitem⟩ := (mem_mapM hus).mp hu
        exact hchild hitem
      rw [TreeBuilder.unfold] at h
      split at h
      · cases h
      · split at h
        · cases h
        · next hne =>
            cases h
            simpa [Formed, Filled, IriSet.isEmpty] using hne
      · simp only [bind_eq_ok_iff, pure_eq_ok_iff] at h
        obtain ⟨u, hu, rfl⟩ := h
        exact throughout_inverse.mpr ⟨hchild hu, trivial⟩
      · cases h
      · simp only [bind_eq_ok_iff, pure_eq_ok_iff] at h
        obtain ⟨u, hu, rfl⟩ := h
        exact throughout_closure.mpr ⟨hchild hu, trivial⟩
      · cases h
      · cases h
      · next hne _ =>
          simp only [bind_eq_ok_iff, pure_eq_ok_iff] at h
          obtain ⟨us, hus, rfl⟩ := h
          exact throughout_negation.mpr (hchildren hne hus)
      · next hne _ =>
          simp only [bind_eq_ok_iff, pure_eq_ok_iff] at h
          obtain ⟨us, hus, rfl⟩ := h
          exact throughout_sequence.mpr (hchildren hne hus)
      · next hne _ =>
          simp only [bind_eq_ok_iff, pure_eq_ok_iff] at h
          obtain ⟨us, hus, rfl⟩ := h
          exact throughout_alternative.mpr (hchildren hne hus)

theorem formed_of_finish {root : NodeId} {t : PathTree} (h : b.finish root = .ok t) : t.Formed := by
  obtain ⟨_, _, hunfold⟩ := bind_eq_ok_iff.mp h
  exact formed_of_unfold hunfold

end finish

end PathTree

end PropertyPath
