import PropertyPath.Proofs.Path.Converse
import PropertyPath.Proofs.Path.Expr
import PropertyPath.Proofs.Path.Formed

/-!
# Which paths have a normal form

A finished tree has a normal form exactly when it is well negated, and any other is refused as
malformed. The judgement `SucceedsIff` says both at once, and follows a computation step by step. An
expression has a tree exactly when no negated set in it is empty, and that tree is finished and well
negated.
-/
namespace PropertyPath

/-- The computation gives a result if `p` holds; otherwise it is refused because of a malformed
node. -/
structure SucceedsIff {α : Type} (p : Prop) (r : Except PathFault α) : Prop where
  ok : p → ∃ a, r = .ok a
  malformed : ¬ p → ∃ node malformation, r = .error (.malformedNode node malformation)

namespace SucceedsIff
variable {α β : Type} {p q : Prop} {r : Except PathFault α}

theorem of_ok (hp : p) (a : α) : SucceedsIff p (.ok a) := ⟨fun _ => ⟨a, rfl⟩, fun h => absurd hp h⟩

theorem of_malformed (hp : ¬ p) (node : NodeId) (malformation : Malformation) :
    SucceedsIff p (.error (.malformedNode node malformation) : Except PathFault α) :=
  ⟨fun h => absurd h hp, fun _ => ⟨node, malformation, rfl⟩⟩

theorem congr (h : SucceedsIff p r) (hpq : p ↔ q) : SucceedsIff q r := propext hpq ▸ h

/-- A computation in two parts succeeds if both do. -/
theorem bind {f : α → Except PathFault β} (h : SucceedsIff p r)
    (hf : ∀ a, r = .ok a → SucceedsIff q (f a)) : SucceedsIff (p ∧ q) (r >>= f) := by
  constructor
  · rintro ⟨hp, hq⟩
    obtain ⟨a, ha⟩ := h.ok hp
    obtain ⟨b, hb⟩ := (hf a ha).ok hq
    exact ⟨b, bind_eq_ok_iff.mpr ⟨a, ha, hb⟩⟩
  · intro hnot
    by_cases hp : p
    · obtain ⟨a, ha⟩ := h.ok hp
      obtain ⟨node, malformation, hb⟩ := (hf a ha).malformed fun hq => hnot ⟨hp, hq⟩
      exact ⟨node, malformation, ha ▸ hb⟩
    · obtain ⟨node, malformation, ha⟩ := h.malformed hp
      exact ⟨node, malformation, ha ▸ rfl⟩

theorem map (h : SucceedsIff p r) (f : α → β) : SucceedsIff p (r >>= fun a => pure (f a)) :=
  (h.bind fun a _ => of_ok trivial (f a)).congr (and_iff_left trivial)

end SucceedsIff

namespace PathTree

section negation

mutual

/-- What stands below a negation is collected if all of it may stand there. -/
theorem succeedsIff_negatedSteps (k : Nat) (inverse : Bool) (t : PathTree) :
    SucceedsIff (t.Throughout Negatable) (negatedSteps k inverse t) := by
  cases t with
  | property set =>
      rw [throughout_property, negatedSteps, Negatable]
      cases set.negation with
      | false => exact .of_ok rfl _
      | true => exact .of_malformed (by simp) _ _
  | inverse item =>
      rw [throughout_inverse, negatedSteps]
      exact (succeedsIff_negatedSteps k (!inverse) item).congr (and_iff_left trivial).symm
  | alternative items =>
      rw [throughout_alternative, negatedSteps]
      exact (succeedsIff_negatedStepsAll k inverse items).congr (and_iff_left trivial).symm
  | negation items => exact .of_malformed (fun h => (throughout_negation.mp h).2) _ _
  | closure kind item => exact .of_malformed (fun h => (throughout_closure.mp h).2) _ _
  | sequence items => exact .of_malformed (fun h => (throughout_sequence.mp h).2) _ _

theorem succeedsIff_negatedStepsAll (k : Nat) (inverse : Bool) (ts : List PathTree) :
    SucceedsIff (∀ t ∈ ts, t.Throughout Negatable) (negatedStepsAll k inverse ts) := by
  cases ts with
  | nil => exact .of_ok nofun []
  | cons t ts =>
      rw [List.forall_mem_cons, negatedStepsAll]
      refine (succeedsIff_negatedSteps k inverse t).bind fun steps _ => ?_
      exact (succeedsIff_negatedStepsAll (k + t.size) inverse ts).map _

end

mutual

/-- A formed tree names a property wherever properties are collected. -/
theorem negatedSteps_ne_nil {k : Nat} {inverse : Bool} {t : PathTree} {steps : List (Bool × Iri)}
    (hformed : t.Formed) (h : negatedSteps k inverse t = .ok steps) : steps ≠ [] := by
  cases t with
  | property set =>
      have hfilled : set.properties.toList ≠ [] := throughout_property.mp hformed
      rw [negatedSteps] at h
      split at h
      · cases h
      · cases h
        simpa using hfilled
  | inverse item =>
      have hitem : item.Formed := (throughout_inverse.mp hformed).1
      exact negatedSteps_ne_nil hitem h
  | alternative items =>
      have hitems := throughout_alternative.mp hformed
      exact negatedStepsAll_ne_nil hitems.1 hitems.2 h
  | negation items => cases h
  | closure kind item => cases h
  | sequence items => cases h

theorem negatedStepsAll_ne_nil {k : Nat} {inverse : Bool} {ts : List PathTree}
    {steps : List (Bool × Iri)} (hformed : ∀ t ∈ ts, t.Formed) (hne : ts ≠ [])
    (h : negatedStepsAll k inverse ts = .ok steps) : steps ≠ [] := by
  cases ts with
  | nil => exact absurd rfl hne
  | cons t ts =>
      simp only [negatedStepsAll, bind_eq_ok_iff, pure_eq_ok_iff] at h
      obtain ⟨first, hfirst, rest, _, rfl⟩ := h
      have hsteps := negatedSteps_ne_nil (hformed t List.mem_cons_self) hfirst
      exact fun hnil => hsteps (List.append_eq_nil_iff.mp hnil).1

end

/-- Where a property is collected, a leaf is left for its direction. -/
theorem negatedLeaves_ne_nil (inverted : Bool) {steps : List (Bool × Iri)} (hne : steps ≠ []) :
    negatedLeaf inverted false steps ++ negatedLeaf inverted true steps ≠ [] := by
  have hleaf : ∀ d p, (d, p) ∈ steps → negatedLeaf inverted d steps ≠ [] := by
    intro d p hp
    have hset : ¬ (directed d steps).isEmpty = true := fun h => directed_isEmpty_iff.mp h p hp
    rw [negatedLeaf, if_neg hset]
    exact List.cons_ne_nil _ _
  obtain ⟨⟨d, p⟩, hp⟩ := List.exists_mem_of_ne_nil steps hne
  intro hnil
  obtain ⟨hforward, hbackward⟩ := List.append_eq_nil_iff.mp hnil
  cases d with
  | false => exact hleaf false p hp hforward
  | true => exact hleaf true p hp hbackward

end negation

mutual

/-- A formed tree is normalized if its negations are in order. -/
theorem succeedsIff_normalizeFrom (k : Nat) (inverted : Bool) {t : PathTree} (h : t.Formed) :
    SucceedsIff t.WellNegated (normalizeFrom k inverted t) := by
  cases t with
  | property set =>
      have hfilled : set.properties.toList ≠ [] := throughout_property.mp h
      rw [normalizeFrom, if_neg (by simpa [IriSet.isEmpty] using hfilled)]
      exact .of_ok (throughout_property.mpr trivial) _
  | inverse item =>
      have hitem : item.Formed := (throughout_inverse.mp h).1
      rw [normalizeFrom, WellNegated, throughout_inverse]
      exact (succeedsIff_normalizeFrom k (!inverted) hitem).congr (and_iff_left trivial).symm
  | negation items =>
      obtain ⟨hitems, hne⟩ := throughout_negation.mp h
      have hsteps := succeedsIff_negatedStepsAll k false items
      rw [normalizeFrom, WellNegated, throughout_negation]
      refine (hsteps.bind (q := True) fun steps h => ?_).congr ?_
      · have hleaves := negatedLeaves_ne_nil inverted (negatedStepsAll_ne_nil hitems hne h)
        split
        · next hnil => exact absurd hnil hleaves
        · exact .of_ok trivial _
      · rw [and_true, NegatesProperly, forall_mem_subtreesAll]
        exact (and_iff_right_of_imp fun h t ht => wellNegated_of_negatable (h t ht)).symm
  | closure kind item =>
      have hitem : item.Formed := (throughout_closure.mp h).1
      rw [normalizeFrom, WellNegated, throughout_closure]
      exact ((succeedsIff_normalizeFrom k inverted hitem).map _).congr (and_iff_left trivial).symm
  | sequence items =>
      have hitems : ∀ t ∈ items, t.Formed := (throughout_sequence.mp h).1
      rw [normalizeFrom, WellNegated, throughout_sequence]
      exact ((succeedsIff_normalizeAllFrom k inverted hitems).map _).congr
        (and_iff_left trivial).symm
  | alternative items =>
      have hitems : ∀ t ∈ items, t.Formed := (throughout_alternative.mp h).1
      rw [normalizeFrom, WellNegated, throughout_alternative]
      exact ((succeedsIff_normalizeAllFrom k inverted hitems).map _).congr
        (and_iff_left trivial).symm

theorem succeedsIff_normalizeAllFrom (k : Nat) (inverted : Bool) {ts : List PathTree}
    (h : ∀ t ∈ ts, t.Formed) :
    SucceedsIff (∀ t ∈ ts, t.WellNegated) (normalizeAllFrom k inverted ts) := by
  cases ts with
  | nil => exact .of_ok nofun []
  | cons t ts =>
      obtain ⟨ht, hts⟩ := List.forall_mem_cons.mp h
      rw [List.forall_mem_cons, normalizeAllFrom]
      refine (succeedsIff_normalizeFrom k inverted ht).bind fun u _ => ?_
      exact (succeedsIff_normalizeAllFrom (k + t.size) inverted hts).map _

end

theorem formed_negatedLeaf {inverted inverse : Bool} {steps : List (Bool × Iri)} {t : PathTree}
    (h : t ∈ negatedLeaf inverted inverse steps) : t.Formed := by
  rw [negatedLeaf] at h
  split at h
  · cases h
  · next hne =>
      rw [List.mem_singleton.mp h, Formed, throughout_property]
      simpa [Filled, IriSet.isEmpty] using hne

theorem formed_normalCases : NormalCases fun _ u t => t.Formed → u.Formed where
  property _ _ hne _ := throughout_property.mpr hne
  inverse _ _ _ hitem h := hitem (throughout_inverse.mp h).1
  negation inverted _ items steps hsteps h := by
    obtain ⟨hitems, hne⟩ := throughout_negation.mp h
    refine throughout_joinAlternative (fun _ => Iff.rfl)
      (negatedLeaves_ne_nil inverted (negatedStepsAll_ne_nil hitems hne hsteps)) fun t ht => ?_
    rcases List.mem_append.mp ht with ht | ht
    · exact formed_negatedLeaf ht
    · exact formed_negatedLeaf ht
  closure _ _ _ _ hitem h := throughout_closure.mpr ⟨hitem (throughout_closure.mp h).1, trivial⟩
  sequence inverted us items hus h := by
    obtain ⟨hitems, hne⟩ := throughout_sequence.mp h
    have hnormal : us ≠ [] := by
      rintro rfl
      cases hus
      exact hne rfl
    refine throughout_joinSequence (fun _ => Iff.rfl) ?_ fun u hu => ?_
    · cases inverted <;> simpa using hnormal
    · obtain ⟨t, ht, hformed⟩ := exists_related_of_mem hus (mem_items_iff.mp hu)
      exact hformed (hitems t ht)
  alternative _ us items hus h := by
    obtain ⟨hitems, hne⟩ := throughout_alternative.mp h
    have hnormal : us ≠ [] := by
      rintro rfl
      cases hus
      exact hne rfl
    refine throughout_joinAlternative (fun _ => Iff.rfl) hnormal fun u hu => ?_
    obtain ⟨t, ht, hformed⟩ := exists_related_of_mem hus hu
    exact hformed (hitems t ht)

/-- The normal form of a formed tree is formed. -/
theorem formed_normalizeFrom {k : Nat} {inverted : Bool} {t u : PathTree}
    (h : normalizeFrom k inverted t = .ok u)
    (hformed : t.Formed) : u.Formed := formed_normalCases.normalizeFrom h hformed

end PathTree

namespace PathExpr

/-- The tree of an expression is formed, and its negations are in order. -/
theorem sound_treeCases :
    TreeCases fun t _ => t.Throughout fun u => u.Filled ∧ u.NegatesProperly where
  iri p := PathTree.throughout_property.mpr
    ⟨IriSet.toList_ofList_ne_nil (List.cons_ne_nil p []), trivial⟩
  reverse _ _ h := PathTree.throughout_inverse.mpr ⟨h, trivial, trivial⟩
  sequence u v _ _ hu hv := by
    refine PathTree.throughout_joinSequence (fun _ => and_iff_left trivial)
      (List.cons_ne_nil u [v]) ?_
    simpa using ⟨hu, hv⟩
  alternative u v _ _ hu hv := by
    refine PathTree.throughout_joinAlternative (fun _ => and_iff_left trivial)
      (List.cons_ne_nil u [v]) ?_
    simpa using ⟨hu, hv⟩
  zeroOrMore _ _ h := PathTree.throughout_closure.mpr ⟨h, trivial, trivial⟩
  oneOrMore _ _ h := PathTree.throughout_closure.mpr ⟨h, trivial, trivial⟩
  zeroOrOne _ _ h := PathTree.throughout_closure.mpr ⟨h, trivial, trivial⟩
  negatedSet ps hne := by
    have hleaf := IriSet.toList_ofList_ne_nil hne
    simp [PathTree.Filled, PathTree.NegatesProperly, PathTree.subtreesAll, PathTree.subtrees,
      PathTree.Negatable, hleaf]

theorem sound_tree {e : PathExpr} (h : .negatedSet [] ∉ e.subexpressions) :
    e.tree.Throughout fun u => u.Filled ∧ u.NegatesProperly := sound_treeCases.tree h

/-- The leaf of an empty negated set is found in the tree. -/
theorem not_mem_subexpressions_of_throughout {e : PathExpr}
    (h : e.tree.Throughout (· ≠ .property ⟨.ofList [], false, false⟩)) :
    .negatedSet [] ∉ e.subexpressions := by
  induction e with
  | iri p => simp [subexpressions]
  | reverse path ih => simpa [subexpressions] using ih (PathTree.throughout_inverse.mp h).1
  | sequence left right ihl ihr =>
      obtain ⟨hl, hr⟩ := PathTree.throughout_of_joinSequence (by simp) h
      simpa [subexpressions] using And.intro (ihl hl) (ihr hr)
  | alternative left right ihl ihr =>
      obtain ⟨hl, hr⟩ := PathTree.throughout_of_joinAlternative (by simp) h
      simpa [subexpressions] using And.intro (ihl hl) (ihr hr)
  | zeroOrMore path ih => simpa [subexpressions] using ih (PathTree.throughout_closure.mp h).1
  | oneOrMore path ih => simpa [subexpressions] using ih (PathTree.throughout_closure.mp h).1
  | zeroOrOne path ih => simpa [subexpressions] using ih (PathTree.throughout_closure.mp h).1
  | negatedSet ps =>
      have hleaf := (PathTree.throughout_negation.mp h).1 _ (List.mem_singleton_self _)
      have hne := PathTree.throughout_property.mp hleaf
      simpa [subexpressions, eq_comm] using fun heq : ps = [] => hne (by rw [heq])

/-- The tree of an expression is formed if no negated set in the expression is empty. -/
theorem formed_tree_iff {e : PathExpr} : e.tree.Formed ↔ .negatedSet [] ∉ e.subexpressions := by
  constructor
  · intro h
    refine not_mem_subexpressions_of_throughout fun u hu heq => ?_
    have hfilled : u.Filled := h u hu
    rw [heq] at hfilled
    exact hfilled rfl
  · exact fun h u hu => (sound_tree h u hu).1

end PathExpr

end PropertyPath
