import PropertyPath.Path.Normal
import PropertyPath.Proofs.Outcome

/-!
# Induction over normal forms

What is to be shown of every tree and its normal form is shown for each operator, from the same for
the items. The relation tells whether the tree is inverted on the way.
-/
namespace PropertyPath.PathTree

structure NormalCases (R : Bool → PathTree → PathTree → Prop) : Prop where
  property : ∀ inverted set, set.properties.toList ≠ [] →
    R inverted (.property (set.withInverse (set.inverse ^^ inverted))) (.property set)
  inverse : ∀ inverted u item, R (!inverted) u item → R inverted u (.inverse item)
  negation : ∀ inverted k items steps, negatedStepsAll k false items = .ok steps →
    R inverted
      (joinAlternative (negatedLeaf inverted false steps ++ negatedLeaf inverted true steps))
      (.negation items)
  closure :
      ∀ inverted kind u item, R inverted u item → R inverted (.closure kind u) (.closure kind item)
  sequence : ∀ inverted us items, List.Forall₂ (R inverted) us items →
    R inverted (joinSequence (if inverted then us.reverse else us)) (.sequence items)
  alternative : ∀ inverted us items, List.Forall₂ (R inverted) us items →
    R inverted (joinAlternative us) (.alternative items)

/-- The items of a sequence, in whichever order. -/
theorem mem_items_iff {inverted : Bool} {us : List PathTree} {u : PathTree} :
    u ∈ (if inverted then us.reverse else us) ↔ u ∈ us := by
  cases inverted with
  | false => exact Iff.rfl
  | true => exact List.mem_reverse

variable {R : Bool → PathTree → PathTree → Prop}

mutual

theorem NormalCases.normalizeFrom (hR : NormalCases R) {k : Nat} {inverted : Bool} {t u : PathTree}
    (h : t.normalizeFrom k inverted = .ok u) : R inverted u t := by
  cases t with
  | property set =>
      rw [PathTree.normalizeFrom] at h
      split at h
      · cases h
      · next hne =>
          cases h
          refine hR.property inverted set ?_
          simpa [IriSet.isEmpty] using hne
  | inverse item => exact hR.inverse inverted u item (hR.normalizeFrom h)
  | negation items =>
      simp only [PathTree.normalizeFrom, bind_eq_ok_iff] at h
      obtain ⟨steps, hsteps, h⟩ := h
      have hleaves := hR.negation inverted k items steps hsteps
      split at h
      · cases h
      · cases h
        exact hleaves
  | closure kind item =>
      simp only [PathTree.normalizeFrom, bind_eq_ok_iff, pure_eq_ok_iff] at h
      obtain ⟨u, hu, rfl⟩ := h
      exact hR.closure inverted kind u item (hR.normalizeFrom hu)
  | sequence items =>
      simp only [PathTree.normalizeFrom, bind_eq_ok_iff, pure_eq_ok_iff] at h
      obtain ⟨us, hus, rfl⟩ := h
      exact hR.sequence inverted us items (hR.normalizeAllFrom hus)
  | alternative items =>
      simp only [PathTree.normalizeFrom, bind_eq_ok_iff, pure_eq_ok_iff] at h
      obtain ⟨us, hus, rfl⟩ := h
      exact hR.alternative inverted us items (hR.normalizeAllFrom hus)

theorem NormalCases.normalizeAllFrom (hR : NormalCases R) {k : Nat} {inverted : Bool}
    {ts us : List PathTree} (h : PathTree.normalizeAllFrom k inverted ts = .ok us) :
    List.Forall₂ (R inverted) us ts := by
  cases ts with
  | nil =>
      cases h
      exact List.Forall₂.nil
  | cons t ts =>
      simp only [PathTree.normalizeAllFrom, bind_eq_ok_iff, pure_eq_ok_iff] at h
      obtain ⟨u, hu, us, hus, rfl⟩ := h
      exact List.Forall₂.cons (hR.normalizeFrom hu) (hR.normalizeAllFrom hus)

end

end PropertyPath.PathTree
