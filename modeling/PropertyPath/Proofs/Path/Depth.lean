import PropertyPath.Proofs.Path.Join
import PropertyPath.Proofs.Path.Normal

/-!
# Closures on the way to a leaf

No closure is added when a tree is brought into normal form.
-/
namespace PropertyPath.PathTree

mutual

/-- The greatest number of closures on the way from the root to a leaf. -/
def closureDepth : PathTree → Nat
  | .property _ => 0
  | .inverse item => closureDepth item
  | .negation items => closureDepthAll items
  | .closure _ item => closureDepth item + 1
  | .sequence items => closureDepthAll items
  | .alternative items => closureDepthAll items

def closureDepthAll : List PathTree → Nat
  | [] => 0
  | t :: ts => max (closureDepth t) (closureDepthAll ts)

end

theorem closureDepthAll_le_iff {ts : List PathTree} {n : Nat} :
    closureDepthAll ts ≤ n ↔ ∀ t ∈ ts, t.closureDepth ≤ n := by
  induction ts with
  | nil => simp [closureDepthAll]
  | cons t ts ih => rw [closureDepthAll, Nat.max_le, ih, List.forall_mem_cons]

theorem closureDepth_le_of_items {us ts : List PathTree}
    (h : List.Forall₂ (fun u t => u.closureDepth ≤ t.closureDepth) us ts)
    {u : PathTree} (hu : u ∈ us) :
    u.closureDepth ≤ closureDepthAll ts := by
  obtain ⟨t, ht, hle⟩ := exists_related_of_mem h hu
  have hall := closureDepthAll_le_iff.mp (Nat.le_refl (closureDepthAll ts)) t ht
  omega

theorem closureDepth_joinSequence_le {ts : List PathTree} {n : Nat}
    (h : ∀ t ∈ ts, t.closureDepth ≤ n) : (joinSequence ts).closureDepth ≤ n :=
  joinSequence_induction (P := (closureDepth · ≤ n)) (fun _ => closureDepthAll_le_iff) h

theorem closureDepth_joinAlternative_le {ts : List PathTree} {n : Nat}
    (h : ∀ t ∈ ts, t.closureDepth ≤ n) : (joinAlternative ts).closureDepth ≤ n :=
  joinAlternative_induction (P := (closureDepth · ≤ n)) (fun _ => closureDepthAll_le_iff) h

theorem closureDepth_negatedLeaf {inverted inverse : Bool}
    {steps : List (Bool × Iri)} {t : PathTree}
    (h : t ∈ negatedLeaf inverted inverse steps) : t.closureDepth = 0 := by
  rw [negatedLeaf] at h
  split at h
  · cases h
  · rw [List.mem_singleton.mp h, closureDepth]

theorem closureDepth_normalCases : NormalCases fun _ u t => u.closureDepth ≤ t.closureDepth where
  property _ _ _ := Nat.le_refl 0
  inverse _ _ _ h := h
  negation inverted k items steps _ := by
    apply closureDepth_joinAlternative_le
    intro t ht
    have hzero : t.closureDepth = 0 := by
      rcases List.mem_append.mp ht with ht | ht
      · exact closureDepth_negatedLeaf ht
      · exact closureDepth_negatedLeaf ht
    omega
  closure _ _ _ _ h := Nat.succ_le_succ h
  sequence inverted us items h := by
    apply closureDepth_joinSequence_le
    intro u hu
    exact closureDepth_le_of_items h (mem_items_iff.mp hu)
  alternative _ us items h := by
    apply closureDepth_joinAlternative_le
    intro u hu
    exact closureDepth_le_of_items h hu

theorem closureDepth_normalizeFrom_le {k : Nat} {inverted : Bool} {t u : PathTree}
    (h : normalizeFrom k inverted t = .ok u) : u.closureDepth ≤ t.closureDepth :=
  closureDepth_normalCases.normalizeFrom h

end PropertyPath.PathTree
