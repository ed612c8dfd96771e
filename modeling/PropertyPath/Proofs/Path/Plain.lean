import PropertyPath.Path.Marked
import PropertyPath.Proofs.Path.Formed
import PropertyPath.Proofs.Path.Join
import PropertyPath.Proofs.Path.Normal

/-!
# Plain trees

A plain tree has no inverse and no negation, and each of its leaves names a property. Finished trees
without these two operators are plain, and so is every normal form.
-/
namespace PropertyPath

namespace PathTree

mutual

def Plain : PathTree → Prop
  | .property set => set.properties.toList ≠ []
  | .inverse _ => False
  | .negation _ => False
  | .closure _ item => Plain item
  | .sequence items => AllPlain items
  | .alternative items => AllPlain items

def AllPlain : List PathTree → Prop
  | [] => True
  | t :: ts => Plain t ∧ AllPlain ts

end

theorem allPlain_iff {ts : List PathTree} : AllPlain ts ↔ ∀ t ∈ ts, t.Plain := by
  induction ts with
  | nil => simp [AllPlain]
  | cons t ts ih => rw [AllPlain, ih, List.forall_mem_cons]

theorem plain_body {t : PathTree} : t.body.Plain ↔ t.Plain := by
  cases t <;> exact Iff.rfl

section normal

theorem plain_joinSequence {ts : List PathTree} (h : ∀ t ∈ ts, t.Plain) : (joinSequence ts).Plain :=
  joinSequence_induction (fun _ => allPlain_iff) h

theorem plain_joinAlternative {ts : List PathTree} (h : ∀ t ∈ ts, t.Plain) :
    (joinAlternative ts).Plain :=
  joinAlternative_induction (fun _ => allPlain_iff) h

theorem plain_negatedLeaf {inverted inverse : Bool} {steps : List (Bool × Iri)} {t : PathTree}
    (h : t ∈ negatedLeaf inverted inverse steps) : t.Plain := by
  rw [negatedLeaf] at h
  split at h
  · cases h
  · next hne =>
      rw [List.mem_singleton.mp h, Plain]
      simpa [IriSet.isEmpty] using hne

theorem plain_normalCases : NormalCases fun _ u _ => u.Plain where
  property _ _ h := h
  inverse _ _ _ h := h
  negation _ _ _ _ _ := by
    apply plain_joinAlternative
    intro t ht
    rcases List.mem_append.mp ht with ht | ht
    · exact plain_negatedLeaf ht
    · exact plain_negatedLeaf ht
  closure _ _ _ _ h := h
  sequence _ _ _ h := by
    apply plain_joinSequence
    intro u hu
    obtain ⟨_, _, hplain⟩ := exists_related_of_mem h (mem_items_iff.mp hu)
    exact hplain
  alternative _ _ _ h := by
    apply plain_joinAlternative
    intro u hu
    obtain ⟨_, _, hplain⟩ := exists_related_of_mem h hu
    exact hplain

theorem plain_normalizeFrom {k : Nat} {inverted : Bool} {t u : PathTree}
    (h : normalizeFrom k inverted t = .ok u) : u.Plain := plain_normalCases.normalizeFrom h

end normal

section finish
variable {b : TreeBuilder}

/-- None of the nodes is an inverse or a negation. -/
def Straight (entries : List TreeEntry) : Prop :=
  ∀ e ∈ entries, e.operator? ≠ some .inverse ∧ e.operator? ≠ some .negation

theorem Straight.mono {entries entries' : List TreeEntry} (h : Straight entries)
    (hsub : entries' ⊆ entries) : Straight entries' := fun e he => h e (hsub he)

theorem straight_of_contains {t : PathTree} (hinverse : t.containsOperator .inverse = false)
    (hnegation : t.containsOperator .negation = false) : Straight (t.listing 0) := by
  simp only [containsOperator, List.any_eq_false, beq_iff_eq] at hinverse hnegation
  exact fun e he => ⟨hinverse e he, hnegation e he⟩

mutual

/-- A formed tree is plain if it has no inverse and no negation. -/
theorem plain_of_formed {t : PathTree} (h : t.Formed) {k : Nat}
    (hstraight : Straight (t.listing k)) :
    t.Plain := by
  cases t with
  | property set =>
      have hfilled : Filled (.property set) := throughout_property.mp h
      exact hfilled
  | inverse item =>
      exact absurd rfl (hstraight (.path .inverse [rootId k item]) (by simp [listing])).1
  | negation items =>
      exact absurd rfl (hstraight (.path .negation (rootIds k items)) (by simp [listing])).2
  | closure kind item =>
      have hitem : item.Formed := (throughout_closure.mp h).1
      have hplain : item.Plain :=
        plain_of_formed hitem (hstraight.mono (List.subset_append_left _ _))
      exact hplain
  | sequence items =>
      have hitems : ∀ t ∈ items, t.Formed := (throughout_sequence.mp h).1
      exact allPlain_of_formed hitems (hstraight.mono (List.subset_append_left _ _))
  | alternative items =>
      have hitems : ∀ t ∈ items, t.Formed := (throughout_alternative.mp h).1
      exact allPlain_of_formed hitems (hstraight.mono (List.subset_append_left _ _))

theorem allPlain_of_formed {ts : List PathTree} (h : ∀ t ∈ ts, t.Formed) {k : Nat}
    (hstraight : Straight (listingAll k ts)) : AllPlain ts := by
  cases ts with
  | nil => trivial
  | cons t ts =>
      obtain ⟨ht, hts⟩ := List.forall_mem_cons.mp h
      exact ⟨plain_of_formed ht (hstraight.mono (List.subset_append_left _ _)),
        allPlain_of_formed hts (hstraight.mono (List.subset_append_right _ _))⟩

end

/-- A finished tree without inverses and negations is plain. -/
theorem plain_of_finish {root : NodeId} {t : PathTree} (h : b.finish root = .ok t)
    (hinverse : t.containsOperator .inverse = false)
    (hnegation : t.containsOperator .negation = false) : t.Plain :=
  plain_of_formed (formed_of_finish h) (straight_of_contains hinverse hnegation)

end finish

end PathTree

end PropertyPath
