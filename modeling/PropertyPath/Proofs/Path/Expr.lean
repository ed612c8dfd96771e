import PropertyPath.Path.Expr
import PropertyPath.Proofs.Path.Depth

/-!
# The relation of a property path expression

The pairs that an expression of the query algebra stands for in a graph, and the walks that it
accepts. The closures that allow the empty path relate every term to itself, whether it occurs in
the graph or not. The tree of an expression has the same walks, hence the same relation, and no more
closures within each other, unless a negated set in it is empty.
-/
namespace PropertyPath
open scoped Computability
open Relation (Comp ReflGen ReflTransGen TransGen)

namespace PathExpr

/-- The pairs of terms that an expression relates in a graph. -/
def relation (G : Set Triple) : PathExpr → Term → Term → Prop
  | .iri p => fun x y => ∃ t ∈ G, t.subject.toTerm = x ∧ t.predicate = p ∧ t.object = y
  | .reverse path => flip (relation G path)
  | .sequence left right => Comp (relation G left) (relation G right)
  | .alternative left right => fun x y => relation G left x y ∨ relation G right x y
  | .zeroOrMore path => ReflTransGen (relation G path)
  | .oneOrMore path => TransGen (relation G path)
  | .zeroOrOne path => ReflGen (relation G path)
  | .negatedSet ps => fun x y => ∃ t ∈ G, t.subject.toTerm = x ∧ t.predicate ∉ ps ∧ t.object = y

/-- The walks that an expression accepts. -/
def walks : PathExpr → Language Step
  | .iri p => single fun s => s.inverse = false ∧ s.triple.predicate = p
  | .reverse path => {w | (w.map Step.reversed).reverse ∈ walks path}
  | .sequence left right => walks left * walks right
  | .alternative left right => walks left + walks right
  | .zeroOrMore path => (walks path)∗
  | .oneOrMore path => walks path * (walks path)∗
  | .zeroOrOne path => 1 + walks path
  | .negatedSet ps => single fun s => s.inverse = false ∧ s.triple.predicate ∉ ps

/-- The tree that an expression stands for, with nested sequences in one and nested alternatives in
one. -/
def tree : PathExpr → PathTree
  | .iri p => .property (.forward p)
  | .reverse path => .inverse path.tree
  | .sequence left right => .joinSequence [left.tree, right.tree]
  | .alternative left right => .joinAlternative [left.tree, right.tree]
  | .zeroOrMore path => .closure .zeroOrMore path.tree
  | .oneOrMore path => .closure .oneOrMore path.tree
  | .zeroOrOne path => .closure .zeroOrOne path.tree
  | .negatedSet ps => .negation [.property ⟨.ofList ps, false, false⟩]

/-- The expression itself and all that it is made of. -/
def subexpressions : PathExpr → List PathExpr
  | .iri p => [.iri p]
  | .reverse path => path.subexpressions ++ [.reverse path]
  | .sequence left right => left.subexpressions ++ right.subexpressions ++ [.sequence left right]
  | .alternative left right =>
      left.subexpressions ++ right.subexpressions ++ [.alternative left right]
  | .zeroOrMore path => path.subexpressions ++ [.zeroOrMore path]
  | .oneOrMore path => path.subexpressions ++ [.oneOrMore path]
  | .zeroOrOne path => path.subexpressions ++ [.zeroOrOne path]
  | .negatedSet properties => [.negatedSet properties]

/-- The greatest number of closures on the way from the root to a leaf. -/
def closureDepth : PathExpr → Nat
  | .iri _ => 0
  | .reverse path => path.closureDepth
  | .sequence left right => max left.closureDepth right.closureDepth
  | .alternative left right => max left.closureDepth right.closureDepth
  | .zeroOrMore path => path.closureDepth + 1
  | .oneOrMore path => path.closureDepth + 1
  | .zeroOrOne path => path.closureDepth + 1
  | .negatedSet _ => 0

end PathExpr

/-- The steps from subject to object whose predicates satisfy a rule. -/
theorem crosses_forward {G : Set Triple} (allowed : Iri → Prop) (x y : Term) :
    Crosses G (fun s => s.inverse = false ∧ allowed s.triple.predicate) x y ↔
      ∃ t ∈ G, t.subject.toTerm = x ∧ allowed t.predicate ∧ t.object = y := by
  constructor
  · intro h
    rcases h with ⟨⟨t, inverse⟩, ht, ⟨rfl, hallowed⟩, rfl, rfl⟩
    exact ⟨t, ht, rfl, hallowed, rfl⟩
  · intro h
    rcases h with ⟨t, ht, rfl, hallowed, rfl⟩
    exact ⟨⟨t, false⟩, ht, ⟨rfl, hallowed⟩, rfl, rfl⟩

namespace PathExpr
variable {e : PathExpr}

theorem takes_forward {p : Iri} (s : Step) :
    (PropertySet.forward p).Takes s ↔ s.inverse = false ∧ s.triple.predicate = p := by
  have hmem : s.triple.predicate ∈ IriSet.ofList [p] ↔ s.triple.predicate = p := by
    rw [IriSet.mem_ofList, List.mem_singleton]
  simp [PropertySet.Takes, PropertySet.forward, PropertySet.admits, hmem]

theorem spares_negatedSet {ps : List Iri} (hne : ps ≠ []) (s : Step) :
    PathTree.Spares [.property ⟨.ofList ps, false, false⟩] s ↔
      s.inverse = false ∧ s.triple.predicate ∉ ps := by
  have hlists (p : Iri) :
      PathTree.AnyLists s.inverse p [.property ⟨.ofList ps, false, false⟩] ↔
        s.inverse = false ∧ p ∈ ps := by
    have hunfold : PathTree.AnyLists s.inverse p [.property ⟨.ofList ps, false, false⟩] ↔
        (false = s.inverse ∧ p ∈ IriSet.ofList ps) ∨ False := Iff.rfl
    rw [hunfold, or_false, IriSet.mem_ofList, eq_comm]
  obtain ⟨p, hp⟩ := List.exists_mem_of_ne_nil ps hne
  rw [PathTree.Spares]
  simp only [hlists]
  constructor
  · intro h
    rcases h with ⟨⟨_, hforward, _⟩, hnot⟩
    exact ⟨hforward, fun hmem => hnot ⟨hforward, hmem⟩⟩
  · intro h
    rcases h with ⟨hforward, hnot⟩
    exact ⟨⟨p, hforward, hp⟩, fun hlisted => hnot hlisted.2⟩

/-- The relation of an expression holds of the ends of the walks that it accepts. -/
theorem relation_eq_ends (e : PathExpr) (G : Set Triple) : e.relation G = Ends G e.walks := by
  induction e with
  | iri p =>
      rw [walks, ends_single]
      funext x y
      exact (propext (crosses_forward (· = p) x y)).symm
  | reverse path ih => rw [relation, walks, ends_reversed, ih]
  | sequence left right ihl ihr => rw [relation, walks, ends_mul, ihl, ihr]
  | alternative left right ihl ihr => rw [relation, walks, ends_add, ihl, ihr]
  | zeroOrMore path ih =>
      rw [relation, ih]
      exact (ends_closure .zeroOrMore path.walks).symm
  | oneOrMore path ih =>
      rw [relation, ih]
      exact (ends_closure .oneOrMore path.walks).symm
  | zeroOrOne path ih =>
      rw [relation, ih]
      exact (ends_closure .zeroOrOne path.walks).symm
  | negatedSet ps =>
      rw [walks, ends_single]
      funext x y
      exact (propext (crosses_forward (· ∉ ps) x y)).symm

/-- What is to be shown of every expression and its tree is shown for each operator, from the same
for the operands. -/
structure TreeCases (R : PathTree → PathExpr → Prop) : Prop where
  iri : ∀ p, R (.property (.forward p)) (.iri p)
  reverse : ∀ u e, R u e → R (.inverse u) (.reverse e)
  sequence : ∀ u v l r, R u l → R v r → R (.joinSequence [u, v]) (.sequence l r)
  alternative : ∀ u v l r, R u l → R v r → R (.joinAlternative [u, v]) (.alternative l r)
  zeroOrMore : ∀ u e, R u e → R (.closure .zeroOrMore u) (.zeroOrMore e)
  oneOrMore : ∀ u e, R u e → R (.closure .oneOrMore u) (.oneOrMore e)
  zeroOrOne : ∀ u e, R u e → R (.closure .zeroOrOne u) (.zeroOrOne e)
  negatedSet : ∀ ps, ps ≠ [] → R (.negation [.property ⟨.ofList ps, false, false⟩]) (.negatedSet ps)

theorem TreeCases.tree {R : PathTree → PathExpr → Prop} (hR : TreeCases R)
    (h : .negatedSet [] ∉ e.subexpressions) : R e.tree e := by
  induction e with
  | iri p => exact hR.iri p
  | reverse path ih => exact hR.reverse _ path (ih (by simpa [subexpressions] using h))
  | sequence left right ihl ihr =>
      have hparts :
          .negatedSet [] ∉ left.subexpressions ∧ .negatedSet [] ∉ right.subexpressions := by
        simpa [subexpressions] using h
      exact hR.sequence _ _ left right (ihl hparts.1) (ihr hparts.2)
  | alternative left right ihl ihr =>
      have hparts :
          .negatedSet [] ∉ left.subexpressions ∧ .negatedSet [] ∉ right.subexpressions := by
        simpa [subexpressions] using h
      exact hR.alternative _ _ left right (ihl hparts.1) (ihr hparts.2)
  | zeroOrMore path ih => exact hR.zeroOrMore _ path (ih (by simpa [subexpressions] using h))
  | oneOrMore path ih => exact hR.oneOrMore _ path (ih (by simpa [subexpressions] using h))
  | zeroOrOne path ih => exact hR.zeroOrOne _ path (ih (by simpa [subexpressions] using h))
  | negatedSet ps => exact hR.negatedSet ps fun heq => h (by simp [subexpressions, heq])

theorem walks_treeCases : TreeCases fun t e => t.walks = e.walks where
  iri p := congrArg single (funext fun s => propext (takes_forward s))
  reverse u e h := by rw [PathTree.walks, walks, h]
  sequence u v l r hu hv := by
    rw [PathTree.walks_joinSequence, PathTree.walksOfSequence,
      PathTree.walksOfSequence_single, walks,
      hu, hv]
  alternative u v l r hu hv := by
    rw [PathTree.walks_joinAlternative, PathTree.walksOfAny,
      PathTree.walksOfAny_single, walks, hu, hv]
  zeroOrMore u e h := by rw [PathTree.walks, walks, h, Closure.language]
  oneOrMore u e h := by rw [PathTree.walks, walks, h, Closure.language]
  zeroOrOne u e h := by rw [PathTree.walks, walks, h, Closure.language]
  negatedSet ps hne := congrArg single (funext fun s => propext (spares_negatedSet hne s))

/-- The tree of an expression has the walks that the expression accepts. -/
theorem walks_tree (h : .negatedSet [] ∉ e.subexpressions) : e.tree.walks = e.walks :=
  walks_treeCases.tree h

/-- The tree of an expression relates what the expression relates. -/
theorem relation_tree (h : .negatedSet [] ∉ e.subexpressions) (G : Set Triple) :
    e.tree.relation G = e.relation G := by
  rw [PathTree.relation_eq_ends, relation_eq_ends, walks_tree h]

theorem closureDepth_treeCases : TreeCases fun t e => t.closureDepth ≤ e.closureDepth where
  iri _ := Nat.le_refl 0
  reverse _ _ h := h
  sequence u v l r hu hv := by
    apply PathTree.closureDepth_joinSequence_le
    simp only [closureDepth, List.forall_mem_cons, List.not_mem_nil, false_imp_iff, implies_true,
      and_true]
    omega
  alternative u v l r hu hv := by
    apply PathTree.closureDepth_joinAlternative_le
    simp only [closureDepth, List.forall_mem_cons, List.not_mem_nil, false_imp_iff, implies_true,
      and_true]
    omega
  zeroOrMore _ _ h := Nat.succ_le_succ h
  oneOrMore _ _ h := Nat.succ_le_succ h
  zeroOrOne _ _ h := Nat.succ_le_succ h
  negatedSet _ _ := Nat.le_refl 0

theorem closureDepth_tree_le (h : .negatedSet [] ∉ e.subexpressions) :
    e.tree.closureDepth ≤ e.closureDepth :=
  closureDepth_treeCases.tree h

end PathExpr

end PropertyPath
