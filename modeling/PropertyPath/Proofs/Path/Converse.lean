import PropertyPath.Proofs.Path.Join
import PropertyPath.Proofs.Path.Normal

/-!
# Normal forms keep the relation of a path

The normal form of a path has the relation of the path, and the normal form of the inverted path has
its converse. The invariant of the recursion is `Turned`: inverted, every part of the tree stands
for its converse.
-/
namespace PropertyPath
open Relation (Comp ReflGen ReflTransGen TransGen)

/-- A relation, or its converse if it is to be inverted. -/
def Turned (inverted : Bool) (r : Term → Term → Prop) : Term → Term → Prop :=
  if inverted then flip r else r

@[simp] theorem turned_false (r : Term → Term → Prop) : Turned false r = r := rfl

@[simp] theorem turned_true (r : Term → Term → Prop) : Turned true r = flip r := rfl

theorem turned_not (inverted : Bool) (r : Term → Term → Prop) :
    Turned (!inverted) r = Turned inverted (flip r) := by
  cases inverted <;> rfl

theorem comp_flip (r q : Term → Term → Prop) : Comp (flip q) (flip r) = flip (Comp r q) := by
  funext x z
  apply propext
  constructor
  · intro h
    rcases h with ⟨y, hq, hr⟩
    exact ⟨y, hr, hq⟩
  · intro h
    rcases h with ⟨y, hr, hq⟩
    exact ⟨y, hq, hr⟩

theorem closure_turned (kind : Closure) (inverted : Bool) (r : Term → Term → Prop) :
    kind.relation (Turned inverted r) = Turned inverted (kind.relation r) := by
  cases inverted with
  | false => rfl
  | true =>
      funext x y
      apply propext
      cases kind with
      | zeroOrMore => exact Relation.reflTransGen_swap
      | oneOrMore => exact Relation.transGen_swap
      | zeroOrOne =>
          change ReflGen (flip r) x y ↔ ReflGen r y x
          rw [Relation.reflGen_iff, Relation.reflGen_iff, eq_comm]
          rfl

/-- A rule on steps, read the other way round if it is to be inverted. -/
theorem crosses_turned {G : Set Triple} (inverted : Bool) {rule rule' : Step → Prop}
    (h : ∀ s, rule' s ↔ if inverted then rule s.reversed else rule s) :
    Crosses G rule' = Turned inverted (Crosses G rule) := by
  have hrule : rule' = fun s => if inverted then rule s.reversed else rule s :=
    funext fun s => propext (h s)
  cases inverted with
  | false => simp [hrule]
  | true => simp [hrule, crosses_reversed]

namespace PathTree
variable {G : Set Triple}

theorem takes_withInverse {set : PropertySet} {inverted : Bool} (s : Step) :
    (set.withInverse (set.inverse ^^ inverted)).Takes s ↔
      if inverted then set.Takes s.reversed else set.Takes s := by
  cases inverted <;> cases h : s.inverse <;> cases h' : set.inverse <;>
    simp [PropertySet.Takes, PropertySet.withInverse, PropertySet.admits, Step.reversed, h, h']

section negation

mutual

/-- What is collected below a negation is what is listed there. -/
theorem mem_negatedSteps {k : Nat} {inverse : Bool} {t : PathTree} {steps : List (Bool × Iri)}
    (h : negatedSteps k inverse t = .ok steps) {d : Bool} {p : Iri} :
    (d, p) ∈ steps ↔ Lists (d ^^ inverse) p t := by
  cases t with
  | property set =>
      rw [negatedSteps] at h
      split at h
      · cases h
      · cases h
        rw [Lists]
        cases d <;> cases inverse <;> cases hset : set.inverse <;> simp <;> rfl
  | inverse item =>
      rw [negatedSteps] at h
      rw [Lists, mem_negatedSteps h, Bool.xor_not]
  | alternative items =>
      rw [negatedSteps] at h
      rw [Lists, mem_negatedStepsAll h]
  | negation items => cases h
  | closure kind item => cases h
  | sequence items => cases h

theorem mem_negatedStepsAll {k : Nat} {inverse : Bool} {ts : List PathTree}
    {steps : List (Bool × Iri)} (h : negatedStepsAll k inverse ts = .ok steps) {d : Bool}
    {p : Iri} :
    (d, p) ∈ steps ↔ AnyLists (d ^^ inverse) p ts := by
  cases ts with
  | nil =>
      cases h
      simp [AnyLists]
  | cons t ts =>
      simp only [negatedStepsAll, bind_eq_ok_iff, pure_eq_ok_iff] at h
      obtain ⟨first, hfirst, rest, hrest, rfl⟩ := h
      rw [List.mem_append, AnyLists, mem_negatedSteps hfirst, mem_negatedStepsAll hrest]

end

theorem mem_directed {d : Bool} {p : Iri} {steps : List (Bool × Iri)} :
    p ∈ directed d steps ↔ (d, p) ∈ steps := by
  rw [directed, IriSet.mem_ofList, List.mem_map]
  constructor
  · intro h
    rcases h with ⟨⟨d', p'⟩, hmem, rfl⟩
    rw [List.mem_filter] at hmem
    obtain rfl : d' = d := by simpa using hmem.2
    exact hmem.1
  · intro hmem
    exact ⟨(d, p), List.mem_filter.mpr ⟨hmem, by simp⟩, rfl⟩

theorem directed_isEmpty_iff {d : Bool} {steps : List (Bool × Iri)} :
    (directed d steps).isEmpty = true ↔ ∀ p, (d, p) ∉ steps := by
  rw [IriSet.isEmpty, List.isEmpty_iff]
  constructor
  · intro h p hp
    have hmem : p ∈ (directed d steps).toList := mem_directed.mpr hp
    rw [h] at hmem
    exact List.not_mem_nil hmem
  · intro h
    apply List.eq_nil_iff_forall_not_mem.mpr
    intro p hp
    exact h p (mem_directed.mp hp)

/-- The leaf for one direction takes the steps of that direction, if it takes any. -/
theorem relationOfAny_negatedLeaf (inverted d : Bool) (steps : List (Bool × Iri)) :
    relationOfAny G (negatedLeaf inverted d steps) = Crosses G fun s =>
      (s.inverse ^^ inverted) = d ∧ (∃ p, (d, p) ∈ steps) ∧ (d, s.triple.predicate) ∉ steps := by
  rw [negatedLeaf]
  by_cases hempty : (directed d steps).isEmpty = true
  · rw [if_pos hempty]
    rw [directed_isEmpty_iff] at hempty
    funext x y
    simp [relationOfAny, Crosses, hempty]
  · rw [if_neg hempty]
    simp only [directed_isEmpty_iff, not_forall, not_not] at hempty
    have hleaf : relationOfAny G [.property ⟨directed d steps, d ^^ inverted, true⟩] =
        Crosses G (PropertySet.Takes ⟨directed d steps, d ^^ inverted, true⟩) := by
      funext x y
      simp [relationOfAny, relation]
    rw [hleaf]
    congr 1
    funext s
    apply propext
    simp only [PropertySet.Takes, PropertySet.admits, if_true, decide_eq_true_eq, mem_directed,
      hempty, true_and]
    cases s.inverse <;> cases inverted <;> cases d <;> simp

theorem relation_negatedLeaves {inverted : Bool} {k : Nat} {items : List PathTree}
    {steps : List (Bool × Iri)} (h : negatedStepsAll k false items = .ok steps) :
    relationOfAny G (negatedLeaf inverted false steps ++ negatedLeaf inverted true steps) =
      Turned inverted (Crosses G (Spares items)) := by
  have hmem (d : Bool) (p : Iri) : (d, p) ∈ steps ↔ AnyLists d p items := by
    simpa using mem_negatedStepsAll h (d := d) (p := p)
  have hturned : Crosses G (fun s => (∃ p, AnyLists (s.inverse ^^ inverted) p items) ∧
      ¬ AnyLists (s.inverse ^^ inverted) s.triple.predicate items) =
      Turned inverted (Crosses G (Spares items)) := by
    apply crosses_turned
    intro s
    cases inverted <;> simp [Spares, Step.reversed]
  rw [relationOfAny_append, relationOfAny_negatedLeaf, relationOfAny_negatedLeaf, ← hturned]
  funext x y
  simp only [Crosses, hmem, ← exists_or]
  apply propext
  apply exists_congr
  intro s
  cases s.inverse <;> cases inverted <;> simp

end negation

/-- Sequences of converses are composed in reverse order. -/
theorem relationOfSequence_turned {inverted : Bool} {us ts : List PathTree}
    (h : List.Forall₂ (fun u t => u.relation G = Turned inverted (t.relation G)) us ts) :
    relationOfSequence G (if inverted then us.reverse else us) =
      Turned inverted (relationOfSequence G ts) := by
  induction h with
  | nil =>
      cases inverted with
      | false => rfl
      | true =>
          funext x y
          exact propext eq_comm
  | @cons u t us ts hu _ ih =>
      cases inverted with
      | false =>
          change relationOfSequence G (u :: us) = relationOfSequence G (t :: ts)
          change relationOfSequence G us = relationOfSequence G ts at ih
          rw [relationOfSequence, relationOfSequence, ih, hu, turned_false]
      | true =>
          change relationOfSequence G us.reverse = flip (relationOfSequence G ts) at ih
          change relationOfSequence G (u :: us).reverse = flip (relationOfSequence G (t :: ts))
          rw [List.reverse_cons, relationOfSequence_append, relationOfSequence_single, ih, hu,
            turned_true, comp_flip, relationOfSequence]

theorem relationOfAny_turned {inverted : Bool} {us ts : List PathTree}
    (h : List.Forall₂ (fun u t => u.relation G = Turned inverted (t.relation G)) us ts) :
    relationOfAny G us = Turned inverted (relationOfAny G ts) := by
  induction h with
  | nil => cases inverted <;> rfl
  | cons hu _ ih =>
      funext x y
      rw [relationOfAny, ih, hu]
      cases inverted <;> rfl

/-- Every operator of a normal form stands for the operator it comes from, or for its converse. -/
theorem relation_normalCases (G : Set Triple) :
    NormalCases fun inverted u t => u.relation G = Turned inverted (t.relation G) where
  property inverted _ _ := crosses_turned inverted takes_withInverse
  inverse inverted u item h := by
    rw [h, turned_not, relation]
  negation inverted k items steps h := by
    rw [relation_joinAlternative, relation_negatedLeaves h, relation]
  closure inverted kind u item h := by
    rw [relation, relation, h, closure_turned]
  sequence inverted us items h := by
    rw [relation_joinSequence, relation, relationOfSequence_turned h]
  alternative inverted us items h := by
    rw [relation_joinAlternative, relation, relationOfAny_turned h]

theorem relation_normalizeFrom {k : Nat} {inverted : Bool} {t u : PathTree}
    (h : normalizeFrom k inverted t = .ok u) : u.relation G = Turned inverted (t.relation G) :=
  (relation_normalCases G).normalizeFrom h

/-- Followed from its start, the normal form of a path relates what the path relates; followed from
its end, it relates the same terms the other way round. -/
theorem relation_normalize {t u : PathTree} {forward : Bool} (h : t.normalize forward = .ok u)
    (G : Set Triple) : u.relation G = if forward then t.relation G else flip (t.relation G) := by
  rw [relation_normalizeFrom h]
  cases forward <;> rfl

/-- Followed from its end, `^(p/!(q|^r))` starts with `p` and ends with one leaf for each direction
of its negation. -/
theorem relation_normalize_mixed_negation :
    let t : PathTree := .inverse (.sequence [.property (.forward ⟨"p"⟩),
      .negation [.alternative [.property (.forward ⟨"q"⟩), .inverse (.property (.forward ⟨"r"⟩))]]])
    let u : PathTree := .sequence [.property (.forward ⟨"p"⟩),
      .alternative [.property ⟨.ofList [⟨"q"⟩], false, true⟩,
        .property ⟨.ofList [⟨"r"⟩], true, true⟩]]
    let G : Set Triple := {⟨.iri ⟨"a"⟩, ⟨"p"⟩, .iri ⟨"b"⟩⟩, ⟨.iri ⟨"c"⟩, ⟨"q"⟩, .iri ⟨"b"⟩⟩}
    t.normalize false = .ok u ∧ u.relation G = flip (t.relation G) := by
  intro t u G
  have h : t.normalize false = .ok u := rfl
  exact ⟨h, relation_normalize h G⟩

end PathTree

end PropertyPath
