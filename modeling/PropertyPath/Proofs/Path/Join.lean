import PropertyPath.Proofs.Path.Relation

/-!
# Splicing nested items

A sequence without a sequence directly inside it, or an alternative without an alternative, has the
walks that the items have in turn, and so it relates what they relate. What holds of an operator
exactly when it holds of all its items holds of the spliced tree as well.
-/
namespace PropertyPath.PathTree
open Relation (Comp)

variable {G : Set Triple}

theorem joinSequence_induction {P : PathTree → Prop}
    (hP : ∀ items, P (.sequence items) ↔ ∀ t ∈ items, P t) {ts : List PathTree}
    (h : ∀ t ∈ ts, P t) : P (joinSequence ts) := by
  have hsplice : P (.sequence (ts.flatMap sequenceItems)) := by
    rw [hP]
    intro u hu
    obtain ⟨t, ht, hmem⟩ := List.mem_flatMap.mp hu
    have hall := h t ht
    cases t with
    | sequence items => exact (hP items).mp hall u hmem
    | _ => exact List.mem_singleton.mp hmem ▸ hall
  match ts with
  | [] => exact hsplice
  | [t] => exact h t List.mem_cons_self
  | t :: u :: ts => exact hsplice

theorem joinAlternative_induction {P : PathTree → Prop}
    (hP : ∀ items, P (.alternative items) ↔ ∀ t ∈ items, P t) {ts : List PathTree}
    (h : ∀ t ∈ ts, P t) : P (joinAlternative ts) := by
  have hsplice : P (.alternative (ts.flatMap alternativeItems)) := by
    rw [hP]
    intro u hu
    obtain ⟨t, ht, hmem⟩ := List.mem_flatMap.mp hu
    have hall := h t ht
    cases t with
    | alternative items => exact (hP items).mp hall u hmem
    | _ => exact List.mem_singleton.mp hmem ▸ hall
  match ts with
  | [] => exact hsplice
  | [t] => exact h t List.mem_cons_self
  | t :: u :: ts => exact hsplice

section splice

theorem walksOfSequence_append (ts us : List PathTree) :
    walksOfSequence (ts ++ us) = walksOfSequence ts * walksOfSequence us := by
  induction ts with
  | nil => rw [List.nil_append, walksOfSequence, one_mul]
  | cons t ts ih => rw [List.cons_append, walksOfSequence, walksOfSequence, ih, mul_assoc]

theorem walksOfSequence_single (t : PathTree) : walksOfSequence [t] = t.walks := by
  rw [walksOfSequence, walksOfSequence, mul_one]

theorem walksOfSequence_sequenceItems (t : PathTree) :
    walksOfSequence t.sequenceItems = t.walks := by
  cases t with
  | sequence items => rw [sequenceItems, walks]
  | _ => exact walksOfSequence_single _

/-- No walk is lost when nested sequences are spliced. -/
theorem walks_joinSequence (ts : List PathTree) : (joinSequence ts).walks = walksOfSequence ts := by
  have hsplice (ts : List PathTree) :
      walksOfSequence (ts.flatMap sequenceItems) = walksOfSequence ts := by
    induction ts with
    | nil => rfl
    | cons t ts ih =>
        rw [List.flatMap_cons, walksOfSequence_append, walksOfSequence_sequenceItems, ih,
          walksOfSequence]
  match ts with
  | [] => rfl
  | [t] => exact (walksOfSequence_single t).symm
  | t :: u :: ts => exact hsplice (t :: u :: ts)

theorem walksOfAny_append (ts us : List PathTree) :
    walksOfAny (ts ++ us) = walksOfAny ts + walksOfAny us := by
  induction ts with
  | nil => rw [List.nil_append, walksOfAny, zero_add]
  | cons t ts ih => rw [List.cons_append, walksOfAny, walksOfAny, ih, add_assoc]

theorem walksOfAny_single (t : PathTree) : walksOfAny [t] = t.walks := by
  rw [walksOfAny, walksOfAny, add_zero]

theorem walksOfAny_alternativeItems (t : PathTree) : walksOfAny t.alternativeItems = t.walks := by
  cases t with
  | alternative items => rw [alternativeItems, walks]
  | _ => exact walksOfAny_single _

/-- No walk is lost when nested alternatives are spliced. -/
theorem walks_joinAlternative (ts : List PathTree) :
    (joinAlternative ts).walks = walksOfAny ts := by
  have hsplice (ts : List PathTree) : walksOfAny (ts.flatMap alternativeItems) = walksOfAny ts := by
    induction ts with
    | nil => rfl
    | cons t ts ih =>
        rw [List.flatMap_cons, walksOfAny_append, walksOfAny_alternativeItems, ih, walksOfAny]
  match ts with
  | [] => rfl
  | [t] => exact (walksOfAny_single t).symm
  | t :: u :: ts => exact hsplice (t :: u :: ts)

end splice

theorem relationOfSequence_append (ts us : List PathTree) :
    relationOfSequence G (ts ++ us) = Comp (relationOfSequence G ts) (relationOfSequence G us) := by
  simp only [relationOfSequence_eq_ends, walksOfSequence_append, ends_mul]

theorem relationOfSequence_single (t : PathTree) : relationOfSequence G [t] = t.relation G := by
  rw [relationOfSequence_eq_ends, walksOfSequence_single, relation_eq_ends]

theorem relation_joinSequence (ts : List PathTree) :
    (joinSequence ts).relation G = relationOfSequence G ts := by
  rw [relation_eq_ends, walks_joinSequence, relationOfSequence_eq_ends]

theorem relationOfAny_append (ts us : List PathTree) : relationOfAny G (ts ++ us) =
    fun x y => relationOfAny G ts x y ∨ relationOfAny G us x y := by
  simp only [relationOfAny_eq_ends, walksOfAny_append, ends_add]

theorem relation_joinAlternative (ts : List PathTree) :
    (joinAlternative ts).relation G = relationOfAny G ts := by
  rw [relation_eq_ends, walks_joinAlternative, relationOfAny_eq_ends]

end PropertyPath.PathTree
