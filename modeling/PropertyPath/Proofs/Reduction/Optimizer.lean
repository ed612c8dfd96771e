import PropertyPath.Proofs.Reduction.Passes

/-!
# The optimizer keeps the relation

A pass first replaces every nested automaton by a reduct of it, which makes a reduct of the
automaton around it, and then reduces what it has got.
-/
namespace PropertyPath

/-- A label is replaced by one that takes the same walks. -/
theorem Label.Lifts.isReductOf {l' l : Label} (h : l'.Lifts Automaton.IsReductOf l) :
    l'.IsReductOf l := by
  cases h with
  | same _ => exact ⟨fun _ => rfl, Nat.le_refl _, id⟩
  | closure _ h =>
      exact ⟨h.relation, Nat.succ_le_succ h.nesting,
        fun ha => ⟨h.initial.trans ha.1, h.epsilonFree ha.2⟩⟩

namespace Automaton
variable {states : List State} {us ts : List Transition}

theorem moves_of_lifts (h : List.Forall₂ (Transition.Lifts IsReductOf) us ts) (G : Set Triple) :
    Transition.moves G us = Transition.moves G ts := by
  induction h with
  | nil => rfl
  | @cons u t us ts hut _ ih =>
      obtain ⟨source, target, label⟩ := u
      obtain ⟨source', target', label'⟩ := t
      obtain ⟨rfl, rfl, hlabel⟩ := hut
      have hrelation : label.relation G = label'.relation G := hlabel.isReductOf.relation G
      rw [Transition.moves, Transition.moves, ih, hrelation]

/-- Replacing nested automata by reducts of them makes a reduct. -/
theorem reduct_of_lifts (h : List.Forall₂ (Transition.Lifts IsReductOf) us ts) :
    IsReductOf ⟨states, us⟩ ⟨states, ts⟩ where
  relation G := relation_congr rfl (moves_of_lifts h G)
  initial := rfl
  nesting := by
    apply nesting_le_iff.mpr
    intro u hu
    obtain ⟨t, ht, hlifts⟩ := exists_related_of_mem h hu
    have hlabel : u.label.nesting ≤ t.label.nesting := hlifts.label.isReductOf.nesting
    have hall : t.label.nesting ≤ nesting ⟨states, ts⟩ := nesting_le_iff.mp (Nat.le_refl _) t ht
    exact hlabel.trans hall
  epsilonFree hts := by
    apply epsilonFree_iff.mpr
    intro u hu
    obtain ⟨t, ht, hlifts⟩ := exists_related_of_mem h hu
    exact hlifts.label.isReductOf.epsilonFree (epsilonFree_iff.mp hts t ht)

end Automaton

namespace Pass

theorem steps_reduct (p : Pass) : p.Steps Automaton.IsReductOf :=
  fun _ _ _ _ hvalid h => (p.reduceTop_reduct hvalid).2.2.trans (Automaton.reduct_of_lifts h)

theorem reduce_reduct (p : Pass) {a : Automaton} (h : a.validate = .ok ()) :
    ∃ b, p.reduce a = .ok b ∧ b.validate = .ok () ∧ b.IsReductOf a :=
  p.steps_reduct.reduce h

end Pass

namespace Automaton

theorem optimize_reduct (passes : List Pass) {a : Automaton} (h : a.validate = .ok ()) :
    ∃ b, a.optimize passes = .ok b ∧ b.validate = .ok () ∧ b.IsReductOf a :=
  optimize_of_steps IsReductOf.refl IsReductOf.trans Pass.steps_reduct passes h

/-- Every pass on its own, and any passes one after the other, leave an automaton that can be made
with an automaton of the same relation in every graph. -/
theorem relation_optimize {states : List State} {ts : List Transition} {a : Automaton}
    (h : make states ts = .ok a) :
    (∀ p : Pass, ∃ b, p.reduce a = .ok b ∧ ∀ G, b.relation G = a.relation G) ∧
      ∀ passes, ∃ b, a.optimize passes = .ok b ∧ ∀ G, b.relation G = a.relation G := by
  have hvalid := validate_of_make h
  constructor
  · intro p
    obtain ⟨b, hb, _, hreduct⟩ := p.reduce_reduct hvalid
    exact ⟨b, hb, hreduct.relation⟩
  · intro passes
    obtain ⟨b, hb, _, hreduct⟩ := optimize_reduct passes hvalid
    exact ⟨b, hb, hreduct.relation⟩

/-- A chain with a loop in it, an edge listed twice, an empty chain that leads round in a circle, a
state that is not reached, and a closure over all of this. -/
theorem relation_optimize_closure_over_cycle :
    let p : Instruction := .forward ⟨"p"⟩
    let q : Instruction := .backward ⟨"q"⟩
    let nested : Automaton := ⟨[⟨0, true, false⟩, ⟨1, false, false⟩, ⟨2, false, true⟩],
      [⟨0, 1, .property p⟩, ⟨1, 2, .sequence []⟩, ⟨2, 1, .sequence [q, p]⟩, ⟨1, 1, .property q⟩,
        ⟨0, 1, .property p⟩]⟩
    let states : List State :=
      [⟨0, true, true⟩, ⟨1, false, false⟩, ⟨2, false, false⟩, ⟨5, false, true⟩]
    let ts : List Transition := [⟨0, 1, .closure .oneOrMore nested⟩, ⟨1, 2, .property p⟩,
      ⟨2, 1, .sequence []⟩, ⟨5, 1, .alternative [[q], [p, p], [q]]⟩]
    let a : Automaton := ⟨states, ts⟩
    make states ts = .ok a ∧
      (∀ p : Pass, ∃ b, p.reduce a = .ok b ∧ ∀ G, b.relation G = a.relation G) ∧
      ∃ b, a.optimize Pass.all = .ok b ∧ ∀ G, b.relation G = a.relation G := by
  intro p q nested states ts a
  have h : make states ts = .ok a := rfl
  obtain ⟨hpasses, hoptimize⟩ := relation_optimize h
  exact ⟨h, hpasses, hoptimize Pass.all⟩

end Automaton

end PropertyPath
