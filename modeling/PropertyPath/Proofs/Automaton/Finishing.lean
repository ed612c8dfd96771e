import PropertyPath.Proofs.Automaton.Position
import PropertyPath.Proofs.Path.Accepted
import PropertyPath.Proofs.Path.Normal
import PropertyPath.Proofs.Path.Renumbering

/-!
# Trees that are made on the way

A tree is finished wherever its nodes are copied to if it is formed and has no more nodes than there
may be. Its normal forms and what its closures nest are made of its parts, so they are formed as
well, and no node is added. So what has been finished once need not be checked again.
-/
namespace PropertyPath.PathTree
open TreeBuilder (maxNodes)

/-- The nodes of the tree may be copied to any builder, where they are finished as this tree. -/
def IsFinished (t : PathTree) : Prop := ∀ c : TreeBuilder, (c.copy t).1.finish (c.copy t).2 = .ok t

theorem isFinished_iff {t : PathTree} : t.IsFinished ↔ t.Formed ∧ t.size ≤ maxNodes := by
  constructor
  · intro h
    exact ⟨formed_of_finish (h .empty), (TreeBuilder.finish_eq_ok_iff.mp (h .empty)).2⟩
  · rintro ⟨hformed, hsize⟩ c
    exact TreeBuilder.finish_eq_ok_iff.mpr ⟨TreeBuilder.unfold_copy hformed c, hsize⟩

section normal

theorem sizeAll_append (ts us : List PathTree) : sizeAll (ts ++ us) = sizeAll ts + sizeAll us := by
  induction ts with
  | nil => exact (Nat.zero_add _).symm
  | cons t ts ih =>
      rw [List.cons_append, sizeAll, sizeAll, ih]
      omega

theorem sizeAll_reverse (ts : List PathTree) : sizeAll ts.reverse = sizeAll ts := by
  induction ts with
  | nil => rfl
  | cons t ts ih =>
      rw [List.reverse_cons, sizeAll_append, ih, sizeAll, sizeAll, sizeAll]
      omega

/-- The items of an operator have one node less than it, and other trees have one item. -/
theorem sizeAll_sequenceItems_le (t : PathTree) : sizeAll t.sequenceItems ≤ t.size := by
  cases t with
  | sequence items => exact Nat.le_succ _
  | _ => exact Nat.le_refl _

theorem sizeAll_alternativeItems_le (t : PathTree) : sizeAll t.alternativeItems ≤ t.size := by
  cases t with
  | alternative items => exact Nat.le_succ _
  | _ => exact Nat.le_refl _

theorem sizeAll_flatMap_le {items : PathTree → List PathTree} (h : ∀ t, sizeAll (items t) ≤ t.size)
    (ts : List PathTree) : sizeAll (ts.flatMap items) ≤ sizeAll ts := by
  induction ts with
  | nil => exact Nat.le_refl _
  | cons t ts ih =>
      rw [List.flatMap_cons, sizeAll_append]
      exact Nat.add_le_add (h t) ih

theorem size_joinSequence_le (ts : List PathTree) : (joinSequence ts).size ≤ sizeAll ts + 1 := by
  have hsplice := Nat.succ_le_succ (sizeAll_flatMap_le sizeAll_sequenceItems_le ts)
  match ts with
  | [] => exact hsplice
  | [t] => exact Nat.le_succ _
  | t :: u :: ts => exact hsplice

theorem size_joinAlternative_le (ts : List PathTree) :
    (joinAlternative ts).size ≤ sizeAll ts + 1 := by
  have hsplice := Nat.succ_le_succ (sizeAll_flatMap_le sizeAll_alternativeItems_le ts)
  match ts with
  | [] => exact hsplice
  | [t] => exact Nat.le_succ _
  | t :: u :: ts => exact hsplice

theorem sizeAll_le_of_items {us ts : List PathTree}
    (h : List.Forall₂ (fun u t => u.size ≤ t.size) us ts) :
    sizeAll us ≤ sizeAll ts := by
  induction h with
  | nil => exact Nat.le_refl _
  | cons ht _ ih => exact Nat.add_le_add ht ih

theorem negatedLeaf_eq_nil {inverted inverse : Bool} {steps : List (Bool × Iri)}
    (h : ∀ step ∈ steps, step.1 ≠ inverse) : negatedLeaf inverted inverse steps = [] := by
  have hnone : steps.filter (·.1 == inverse) = [] :=
    List.filter_eq_nil_iff.mpr fun step hstep => by simpa using h step hstep
  rw [negatedLeaf, directed, hnone]
  rfl

theorem sizeAll_negatedLeaf_le_one {inverted inverse : Bool} {steps : List (Bool × Iri)} :
    sizeAll (negatedLeaf inverted inverse steps) ≤ 1 := by
  rw [negatedLeaf]
  split
  · exact Nat.zero_le _
  · exact Nat.le_refl _

/-- A single node has a single direction. -/
theorem exists_direction {k : Nat} {items : List PathTree} {steps : List (Bool × Iri)}
    (h : negatedStepsAll k false items = .ok steps) (hone : sizeAll items ≤ 1) :
    ∃ d, ∀ step ∈ steps, step.1 = d := by
  match items with
  | [] =>
      cases h
      exact ⟨false, List.forall_mem_nil _⟩
  | t :: u :: ts =>
      rw [sizeAll, sizeAll] at hone
      omega
  | [t] =>
      simp only [negatedStepsAll, bind_eq_ok_iff, pure_eq_ok_iff, Except.ok.injEq] at h
      obtain ⟨stepsOfItem, hitem, rest, rfl, rfl⟩ := h
      rw [List.append_nil]
      cases t with
      | property set =>
          rw [negatedSteps] at hitem
          split at hitem
          · cases hitem
          · cases hitem
            exact ⟨_, List.forall_mem_map.mpr fun _ _ => rfl⟩
      | inverse item =>
          simp only [sizeAll, before] at hone
          omega
      | alternative below =>
          cases below with
          | nil =>
              cases hitem
              exact ⟨false, List.forall_mem_nil _⟩
          | cons u us =>
              simp only [sizeAll, before] at hone
              omega
      | negation below => cases hitem
      | closure kind item => cases hitem
      | sequence below => cases hitem

/-- There is a leaf for each direction, and there are as many nodes below the negation. -/
theorem sizeAll_negatedLeaf_le {k : Nat} {inverted : Bool} {items : List PathTree}
    {steps : List (Bool × Iri)} (h : negatedStepsAll k false items = .ok steps) :
    sizeAll (negatedLeaf inverted false steps ++ negatedLeaf inverted true steps) ≤
      sizeAll items := by
  have hleaf (d : Bool) : sizeAll (negatedLeaf inverted d steps) ≤ 1 := sizeAll_negatedLeaf_le_one
  rw [sizeAll_append]
  cases items with
  | nil =>
      cases h
      exact Nat.le_refl 0
  | cons t ts =>
      rcases Nat.lt_or_ge 1 (sizeAll (t :: ts)) with htwo | hone
      · exact (Nat.add_le_add (hleaf false) (hleaf true)).trans htwo
      · obtain ⟨d, hd⟩ := exists_direction h hone
        have hnone (other : Bool) (hne : d ≠ other) : negatedLeaf inverted other steps = [] :=
          negatedLeaf_eq_nil fun step hstep => (hd step hstep).trans_ne hne
        have hpos : 1 ≤ sizeAll (t :: ts) := Nat.le_add_right_of_le (Nat.le_add_left 1 _)
        cases d with
        | false =>
            rw [hnone true Bool.false_ne_true]
            exact (hleaf false).trans hpos
        | true =>
            rw [hnone false Bool.false_ne_true.symm, sizeAll, Nat.zero_add]
            exact (hleaf true).trans hpos

theorem size_normalCases : NormalCases fun _ u t => u.size ≤ t.size where
  property _ _ _ := Nat.le_refl 1
  inverse _ _ _ h := Nat.le_succ_of_le h
  negation inverted k items steps h :=
    (size_joinAlternative_le _).trans (Nat.succ_le_succ (sizeAll_negatedLeaf_le h))
  closure _ _ _ _ h := Nat.succ_le_succ h
  sequence inverted us items h := by
    have horder : sizeAll (if inverted then us.reverse else us) = sizeAll us := by
      cases inverted with
      | false => rfl
      | true => exact sizeAll_reverse us
    have hjoin := size_joinSequence_le (if inverted then us.reverse else us)
    rw [horder] at hjoin
    exact hjoin.trans (Nat.succ_le_succ (sizeAll_le_of_items h))
  alternative _ us items h :=
    (size_joinAlternative_le us).trans (Nat.succ_le_succ (sizeAll_le_of_items h))

/-- The normal form of what is finished is finished. -/
theorem IsFinished.normalize {t u : PathTree} {forward : Bool} (h : t.IsFinished)
    (hu : t.normalize forward = .ok u) : u.IsFinished := by
  obtain ⟨hformed, hsize⟩ := isFinished_iff.mp h
  have hle : u.size ≤ t.size := size_normalCases.normalizeFrom hu
  exact isFinished_iff.mpr ⟨formed_normalizeFrom hu hformed, hle.trans hsize⟩

end normal

section nested

theorem formed_nests {kind : Closure} {item : PathTree} (h : item.Formed) :
    (kind.nests item).Formed := by
  cases kind with
  | zeroOrOne => exact h
  | _ => exact throughout_closure.mpr ⟨h, trivial⟩

theorem size_nests_le (kind : Closure) (item : PathTree) :
    (kind.nests item).size ≤ (closure kind item).size := by
  cases kind with
  | zeroOrOne => exact Nat.le_succ _
  | _ => exact Nat.le_refl _

theorem size_le_of_mem_subtrees (t : PathTree) : ∀ u ∈ t.subtrees, u.size ≤ t.size := by
  induction t using operands_induction with
  | h t ih =>
      refine throughout_iff.mpr ⟨Nat.le_refl _, fun v hv u hu => ?_⟩
      exact (ih v hv u hu).trans (Nat.le_of_lt (size_lt_of_mem_operands hv))

/-- What the closures of a finished tree nest is finished. -/
theorem IsFinished.nests {t : PathTree} (h : t.IsFinished) {kind : Closure} {item : PathTree}
    (hmem : closure kind item ∈ t.subtrees) : (kind.nests item).IsFinished := by
  obtain ⟨hformed, hsize⟩ := isFinished_iff.mp h
  have hitem := (throughout_closure.mp (throughout_of_mem hformed hmem)).1
  have hle := (size_nests_le kind item).trans (size_le_of_mem_subtrees t _ hmem)
  exact isFinished_iff.mpr ⟨formed_nests hitem, hle.trans hsize⟩

end nested

end PropertyPath.PathTree
