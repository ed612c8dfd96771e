import PropertyPath.Proofs.Automaton.Compiled
import PropertyPath.Proofs.Path.Accepted
import PropertyPath.Proofs.Path.Mirror

/-!
# Normal forms of normal forms

The normal form of a finished tree has no inverse, no negation, and nothing in it that could be
spliced. Such a tree is its own normal form, and the normal form of its inverse is its mirror image,
so directions compose like signs: a tree that is brought to normal form twice is the same as if it
were brought there once, from its start if both directions are the same and from its end otherwise.
-/
namespace PropertyPath

namespace PathTree

/-- The operator at the root; a leaf has none. -/
def operator? : PathTree → Option Operator
  | .property _ => none
  | .inverse _ => some .inverse
  | .negation _ => some .negation
  | .closure kind _ => some (.closure kind)
  | .sequence _ => some .sequence
  | .alternative _ => some .alternative

/-- The items are several, and none of them could be spliced into a node of the operator. -/
structure Apart (operator : Operator) (items : List PathTree) : Prop where
  several : 2 ≤ items.length
  differs : ∀ t ∈ items, t.operator? ≠ some operator

/-- The node may stand in a normal form. -/
def Reduced : PathTree → Prop
  | .property set => set.properties.toList ≠ []
  | .inverse _ => False
  | .negation _ => False
  | .closure _ _ => True
  | .sequence items => Apart .sequence items
  | .alternative items => Apart .alternative items

def IsNormal (t : PathTree) : Prop := t.Throughout Reduced

section joins
variable {t : PathTree} {ts : List PathTree}

/-- A tree is spliced, or it stands for itself. -/
theorem sequenceItems_cases (t : PathTree) : t = .sequence t.sequenceItems ∨
    t.operator? ≠ some .sequence ∧ t.sequenceItems = [t] := by
  cases t with
  | sequence items => exact Or.inl rfl
  | _ => exact Or.inr ⟨nofun, rfl⟩

theorem alternativeItems_cases (t : PathTree) : t = .alternative t.alternativeItems ∨
    t.operator? ≠ some .alternative ∧ t.alternativeItems = [t] := by
  cases t with
  | alternative items => exact Or.inl rfl
  | _ => exact Or.inr ⟨nofun, rfl⟩

section splice
variable {operator : Operator} {op : List PathTree → PathTree} {itemsOf : PathTree → List PathTree}
  (hcases : ∀ t, t = op (itemsOf t) ∨ t.operator? ≠ some operator ∧ itemsOf t = [t])
include hcases

/-- Nothing is spliced where no item has the operator. -/
theorem flatMap_items_eq_self (hoperator : ∀ items, (op items).operator? = some operator)
    (h : ∀ t ∈ ts, t.operator? ≠ some operator) : ts.flatMap itemsOf = ts := by
  induction ts with
  | nil => rfl
  | cons t ts ih =>
      obtain ⟨ht, hts⟩ := List.forall_mem_cons.mp h
      have hself : itemsOf t = [t] := by
        rcases hcases t with heq | hother
        · exact absurd (heq ▸ hoperator (itemsOf t)) ht
        · exact hother.2
      rw [List.flatMap_cons, hself, ih hts, List.singleton_append]

/-- Splicing normal trees gives a normal tree. -/
theorem isNormal_splice
    (hop : ∀ items, (op items).IsNormal ↔ (∀ t ∈ items, t.IsNormal) ∧ Apart operator items)
    (hseveral : 2 ≤ ts.length) (h : ∀ t ∈ ts, t.IsNormal) : (op (ts.flatMap itemsOf)).IsNormal := by
  have hitems (t : PathTree) (ht : t.IsNormal) : 0 < (itemsOf t).length ∧
      ∀ u ∈ itemsOf t, u.IsNormal ∧ u.operator? ≠ some operator := by
    rcases hcases t with heq | ⟨hother, hself⟩
    · rw [heq, hop] at ht
      have htwo := ht.2.several
      exact ⟨by omega, fun u hu => ⟨ht.1 u hu, ht.2.differs u hu⟩⟩
    · rw [hself]
      exact ⟨Nat.one_pos, List.forall_mem_singleton.mpr ⟨ht, hother⟩⟩
  have hlength (us : List PathTree) (hus : ∀ u ∈ us, u.IsNormal) :
      us.length ≤ (us.flatMap itemsOf).length := by
    induction us with
    | nil => exact Nat.le_refl 0
    | cons u us ih =>
        obtain ⟨hu, hrest⟩ := List.forall_mem_cons.mp hus
        have hpos := (hitems u hu).1
        have hle := ih hrest
        rw [List.flatMap_cons, List.length_append, List.length_cons]
        omega
  have hmem {u : PathTree} (hu : u ∈ ts.flatMap itemsOf) :
      u.IsNormal ∧ u.operator? ≠ some operator := by
    obtain ⟨t, ht, hut⟩ := List.mem_flatMap.mp hu
    exact (hitems t (h t ht)).2 u hut
  rw [hop]
  exact ⟨fun u hu => (hmem hu).1, Nat.le_trans hseveral (hlength ts h), fun u hu => (hmem hu).2⟩

end splice

theorem joinSequence_of_apart (h : Apart .sequence ts) : joinSequence ts = .sequence ts := by
  have hitems := flatMap_items_eq_self sequenceItems_cases (fun _ => rfl) h.differs
  match ts, h.several with
  | t :: u :: ts, _ => exact congrArg PathTree.sequence hitems

theorem joinAlternative_of_apart (h : Apart .alternative ts) :
    joinAlternative ts = .alternative ts := by
  have hitems := flatMap_items_eq_self alternativeItems_cases (fun _ => rfl) h.differs
  match ts, h.several with
  | t :: u :: ts, _ => exact congrArg PathTree.alternative hitems

theorem isNormal_joinSequence (hne : ts ≠ []) (h : ∀ t ∈ ts, t.IsNormal) :
    (joinSequence ts).IsNormal := by
  match ts with
  | [] => exact absurd rfl hne
  | [t] => exact h t List.mem_cons_self
  | t :: u :: ts =>
      exact isNormal_splice sequenceItems_cases (fun _ => throughout_sequence) (by simp) h

theorem isNormal_joinAlternative (hne : ts ≠ []) (h : ∀ t ∈ ts, t.IsNormal) :
    (joinAlternative ts).IsNormal := by
  match ts with
  | [] => exact absurd rfl hne
  | [t] => exact h t List.mem_cons_self
  | t :: u :: ts =>
      exact isNormal_splice alternativeItems_cases (fun _ => throughout_alternative) (by simp) h

end joins

theorem isNormal_negatedLeaf {inverted inverse : Bool} {steps : List (Bool × Iri)} {t : PathTree}
    (h : t ∈ negatedLeaf inverted inverse steps) : t.IsNormal := by
  rw [negatedLeaf] at h
  split at h
  · cases h
  · next hne =>
      rw [List.mem_singleton.mp h, IsNormal, throughout_property]
      simpa [Reduced, IriSet.isEmpty] using hne

theorem isNormal_normalCases : NormalCases fun _ u t => t.Formed → u.IsNormal where
  property _ _ hne _ := throughout_property.mpr hne
  inverse _ _ _ hitem h := hitem (throughout_inverse.mp h).1
  negation inverted _ items steps hsteps h := by
    obtain ⟨hitems, hne⟩ := throughout_negation.mp h
    refine isNormal_joinAlternative
      (negatedLeaves_ne_nil inverted (negatedStepsAll_ne_nil hitems hne hsteps)) fun t ht => ?_
    rcases List.mem_append.mp ht with ht | ht
    · exact isNormal_negatedLeaf ht
    · exact isNormal_negatedLeaf ht
  closure _ _ _ _ hitem h := throughout_closure.mpr ⟨hitem (throughout_closure.mp h).1, trivial⟩
  sequence inverted us items hus h := by
    obtain ⟨hitems, hne⟩ := throughout_sequence.mp h
    have hnormal : us ≠ [] := by
      rintro rfl
      cases hus
      exact hne rfl
    refine isNormal_joinSequence ?_ fun u hu => ?_
    · cases inverted <;> simpa using hnormal
    · obtain ⟨t, ht, hformed⟩ := exists_related_of_mem hus (mem_items_iff.mp hu)
      exact hformed (hitems t ht)
  alternative _ us items hus h := by
    obtain ⟨hitems, hne⟩ := throughout_alternative.mp h
    have hnormal : us ≠ [] := by
      rintro rfl
      cases hus
      exact hne rfl
    refine isNormal_joinAlternative hnormal fun u hu => ?_
    obtain ⟨t, ht, hformed⟩ := exists_related_of_mem hus hu
    exact hformed (hitems t ht)

theorem isNormal_normalize {t u : PathTree} {forward : Bool} (hformed : t.Formed)
    (h : t.normalize forward = .ok u) : u.IsNormal := isNormal_normalCases.normalizeFrom h hformed

mutual

/-- A normal tree is its own normal form. -/
theorem normalizeFrom_of_isNormal {t : PathTree} (h : t.IsNormal) (k : Nat) :
    normalizeFrom k false t = .ok t := by
  cases t with
  | property set =>
      have hfilled : set.properties.toList ≠ [] := throughout_property.mp h
      rw [normalizeFrom, if_neg (by simpa [IriSet.isEmpty] using hfilled), Bool.xor_false]
      rfl
  | inverse item => exact (throughout_inverse.mp h).2.elim
  | negation items => exact (throughout_negation.mp h).2.elim
  | closure kind item =>
      rw [normalizeFrom, normalizeFrom_of_isNormal (throughout_closure.mp h).1 k]
      rfl
  | sequence items =>
      obtain ⟨hitems, hapart⟩ := throughout_sequence.mp h
      rw [normalizeFrom, normalizeAllFrom_of_isNormal hitems k]
      exact congrArg Except.ok (joinSequence_of_apart hapart)
  | alternative items =>
      obtain ⟨hitems, hapart⟩ := throughout_alternative.mp h
      rw [normalizeFrom, normalizeAllFrom_of_isNormal hitems k]
      exact congrArg Except.ok (joinAlternative_of_apart hapart)

theorem normalizeAllFrom_of_isNormal {ts : List PathTree} (h : ∀ t ∈ ts, t.IsNormal) (k : Nat) :
    normalizeAllFrom k false ts = .ok ts := by
  cases ts with
  | nil => rfl
  | cons t ts =>
      obtain ⟨ht, hts⟩ := List.forall_mem_cons.mp h
      rw [normalizeAllFrom, normalizeFrom_of_isNormal ht k,
        normalizeAllFrom_of_isNormal hts (k + t.size)]
      rfl

end

theorem normalize_of_isNormal {t : PathTree} (h : t.IsNormal) (forward : Bool) :
    t.normalize forward = .ok (if forward then t else t.mirror) := by
  have hforward : t.normalize true = .ok t := normalizeFrom_of_isNormal h 0
  cases forward with
  | true => exact hforward
  | false =>
      rw [← Bool.not_true, normalize_not, hforward]
      rfl

/-- Directions compose like signs. -/
theorem normalize_of_normalize {t u : PathTree} {forward : Bool} (hformed : t.Formed)
    (h : t.normalize forward = .ok u) (again : Bool) :
    u.normalize again = t.normalize (again == forward) := by
  rw [normalize_of_isNormal (isNormal_normalize hformed h)]
  cases again with
  | true =>
      rw [Bool.true_beq, h]
      rfl
  | false =>
      rw [Bool.false_beq, normalize_not, h]
      rfl

theorem exists_normalize_not {t u : PathTree} {forward : Bool} (h : t.normalize forward = .ok u) :
    ∃ v, t.normalize (!forward) = .ok v :=
  ⟨u.mirror, by rw [normalize_not, h]; rfl⟩

end PathTree

namespace CompiledPath

/-- The compiled inverse of a path: what leads from its start leads from the end of the path. -/
def reversed (c : CompiledPath) : CompiledPath := ⟨.inverse c.tree, c.backward, c.forward⟩

/-- The inverse of a tree is compiled to its two automata, one in place of the other, or is refused
for the same reason. -/
theorem ofTree_inverse (t : PathTree) (optimize : Bool) :
    ofTree (.inverse t) optimize = (ofTree t optimize).map reversed := by
  have hcompile (forward : Bool) :
      (PathTree.inverse t).compile optimize forward = t.compile optimize (!forward) := rfl
  rw [ofTree, ofTree, hcompile, hcompile, Bool.not_true, Bool.not_false]
  cases hnormal : t.normalize true with
  | error fault =>
      have hnormal' : t.normalize false = .error fault := by
        rw [← Bool.not_true, PathTree.normalize_not, hnormal]
        rfl
      rw [PathTree.compile, PathTree.compile, hnormal, hnormal']
      rfl
  | ok u =>
      obtain ⟨v, hnormal'⟩ := PathTree.exists_normalize_not hnormal
      obtain ⟨a, ha, _⟩ := PathTree.exists_compile hnormal optimize
      obtain ⟨b, hb, _⟩ := PathTree.exists_compile hnormal' optimize
      rw [Bool.not_true] at hb
      rw [ha, hb]
      rfl

/-- An expression may have just as many nodes as there may be; then its inverse has too many. -/
theorem ofExpr_reverse {e : PathExpr} (h : e.tree.size ≠ TreeBuilder.maxNodes) (optimize : Bool) :
    ofExpr (.reverse e) optimize = (ofExpr e optimize).map reversed := by
  rw [ofExpr, ofExpr, PathExpr.toTree_reverse h]
  cases e.toTree with
  | error fault => rfl
  | ok t => exact ofTree_inverse t optimize

end CompiledPath

namespace PathTree

/-- The tree is what a builder has finished, or what an expression stands for. -/
def Valid (t : PathTree) : Prop :=
  (∃ (b : TreeBuilder) (root : NodeId), b.finish root = .ok t) ∨ ∃ e : PathExpr, e.toTree = .ok t

theorem Valid.formed {t : PathTree} (h : t.Valid) : t.Formed := by
  rcases h with ⟨b, root, hfinish⟩ | ⟨e, htree⟩
  · exact formed_of_finish hfinish
  · obtain ⟨rfl, hfull, _⟩ := PathExpr.toTree_eq_ok_iff.mp htree
    exact PathExpr.formed_tree_iff.mpr hfull

/-- A valid tree has a normal form from its start if it has one from its end. Whatever has been
brought to normal form is normal, and is brought there again as its directions compose. The inverse
of a path has the normal forms of the path, and so its automata, one in place of the other; but the
inverse of an expression has one node more, and there may be no room for it. -/
theorem normalize_normalize {t : PathTree} (hvalid : t.Valid) :
    ((∃ u, t.normalize true = .ok u) ↔ ∃ u, t.normalize false = .ok u) ∧
    (∀ forward u, t.normalize forward = .ok u → u.IsNormal ∧
      ∀ again, ∃ v, u.normalize again = .ok v ∧ t.normalize (again == forward) = .ok v) ∧
    (∀ forward, (PathTree.inverse t).normalize forward = t.normalize (!forward)) ∧
    (∀ optimize, CompiledPath.ofTree (.inverse t) optimize =
      (CompiledPath.ofTree t optimize).map CompiledPath.reversed) ∧
    ∀ (e : PathExpr), e.tree.size ≠ TreeBuilder.maxNodes → ∀ optimize,
      CompiledPath.ofExpr (.reverse e) optimize =
        (CompiledPath.ofExpr e optimize).map CompiledPath.reversed := by
  have hformed := hvalid.formed
  refine ⟨⟨?_, ?_⟩, ?_, fun _ => rfl, CompiledPath.ofTree_inverse t,
    fun _ hsize optimize => CompiledPath.ofExpr_reverse hsize optimize⟩
  · intro h
    obtain ⟨u, hu⟩ := h
    exact exists_normalize_not hu
  · intro h
    obtain ⟨u, hu⟩ := h
    exact exists_normalize_not hu
  · intro forward u hu
    have hnormal := isNormal_normalize hformed hu
    refine ⟨hnormal, ?_⟩
    intro again
    have hagain := normalize_of_isNormal hnormal again
    exact ⟨_, hagain, (normalize_of_normalize hformed hu again).symm.trans hagain⟩

/-- In `^((p/q)/!(r|^s))` a nested sequence is spliced and turned round, and the negation falls into
two leaves. -/
theorem normalize_normalize_mixed_negation :
    let leaf (p : String) (inverse negation : Bool) : PathTree :=
      .property ⟨.ofList [⟨p⟩], inverse, negation⟩
    let b : TreeBuilder := ⟨[.property (.forward ⟨"p"⟩), .property (.forward ⟨"q"⟩),
      .path .sequence [⟨0⟩, ⟨1⟩], .property (.forward ⟨"r"⟩), .property (.backward ⟨"s"⟩),
      .path .negation [⟨3⟩, ⟨4⟩], .path .sequence [⟨2⟩, ⟨5⟩], .path .inverse [⟨6⟩]]⟩
    let t : PathTree := .inverse (.sequence [.sequence [leaf "p" false false, leaf "q" false false],
      .negation [leaf "r" false false, leaf "s" true false]])
    let u : PathTree := .sequence [leaf "p" false false, leaf "q" false false,
      .alternative [leaf "r" false true, leaf "s" true true]]
    let v : PathTree := .sequence [.alternative [leaf "r" true true, leaf "s" false true],
      leaf "q" true false, leaf "p" true false]
    b.finish ⟨7⟩ = .ok t ∧ t.normalize false = .ok u ∧ t.normalize true = .ok v ∧ u.IsNormal ∧
      u.normalize false = .ok v ∧ u.normalize true = .ok u := by
  intro leaf b t u v
  have hfinish : b.finish ⟨7⟩ = .ok t := TreeBuilder.finish_eq_ok_iff.mpr ⟨by cbv, by decide⟩
  have hbackward : t.normalize false = .ok u := rfl
  have hforward : t.normalize true = .ok v := rfl
  obtain ⟨_, hnormal, _⟩ := normalize_normalize (Or.inl ⟨b, ⟨7⟩, hfinish⟩)
  obtain ⟨hu, hagain⟩ := hnormal false u hbackward
  obtain ⟨w, hw, heq⟩ := hagain false
  obtain ⟨w', hw', heq'⟩ := hagain true
  exact ⟨hfinish, hbackward, hforward, hu, hw.trans (heq.symm.trans hforward),
    hw'.trans (heq'.symm.trans hbackward)⟩

end PathTree

end PropertyPath
