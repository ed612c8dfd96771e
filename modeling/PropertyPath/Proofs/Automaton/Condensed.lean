import PropertyPath.Proofs.Automaton.Shapes

/-!
# Runs with hops left out

When several hops are taken at once, a run has fewer steps than before. It is condensed: hops are
left out of it, and of the runs within it, but no closure is. A condensed run stays within every
limit that the run stays within. So an automaton that has a condensed run for every run of another
one relates no less, and no less within any limit.
-/
namespace PropertyPath

namespace Shape

/-- The first run is the second one without some of its hops, and so are the runs within it. -/
inductive Condenses : List Shape → List Shape → Prop
  | nil : Condenses [] []
  | drop {short long : List Shape} : Condenses short long → Condenses short (.hop :: long)
  | hop {short long : List Shape} : Condenses short long → Condenses (.hop :: short) (.hop :: long)
  | closure {inside within short long : List Shape} :
      Condenses inside within → Condenses short long →
      Condenses (.closure inside :: short) (.closure within :: long)

mutual

theorem Condenses.cons (s : Shape) {short long : List Shape} (h : Condenses short long) :
    Condenses (s :: short) (s :: long) := by
  cases s with
  | hop => exact .hop h
  | closure steps => exact .closure (Condenses.refl steps) h

theorem Condenses.refl (steps : List Shape) : Condenses steps steps := by
  cases steps with
  | nil => exact .nil
  | cons s steps => exact Condenses.cons s (Condenses.refl steps)

end

theorem Condenses.trans {shortest short long : List Shape} (h : Condenses shortest short)
    (h' : Condenses short long) : Condenses shortest long := by
  induction h' generalizing shortest with
  | nil => exact h
  | drop _ ih => exact .drop (ih h)
  | hop _ ih =>
      cases h with
      | drop h => exact .drop (ih h)
      | hop h => exact .hop (ih h)
  | closure _ _ ihinside ih =>
      cases h with
      | closure hinside h => exact .closure (ihinside hinside) (ih h)

theorem Condenses.length_le {short long : List Shape} (h : Condenses short long) :
    short.length ≤ long.length := by
  induction h with
  | nil => exact Nat.le_refl 0
  | drop _ ih => exact Nat.le_succ_of_le ih
  | hop _ ih => exact Nat.succ_le_succ ih
  | closure _ _ _ ih => exact Nat.succ_le_succ ih

theorem Condenses.allFit {limit : Option Nat} {short long : List Shape} (h : Condenses short long)
    (hlong : AllFit limit long) : AllFit limit short := by
  induction h with
  | nil => exact trivial
  | drop _ ih => exact ih hlong.2
  | hop _ ih => exact ⟨trivial, ih hlong.2⟩
  | closure hinside _ ihinside ih =>
      obtain ⟨⟨hlength, hwithin⟩, hrest⟩ := hlong
      exact ⟨⟨fun d hd => hinside.length_le.trans (hlength d hd), ihinside hwithin⟩, ih hrest⟩

/-- What a limit allows of a run it allows of a condensed one. -/
theorem Condenses.within {limit : Option Nat} {short long : List Shape} (h : Condenses short long)
    (hlong : Within limit long) : Within limit short :=
  ⟨fun d hd => h.length_le.trans (hlong.1 d hd), h.allFit hlong.2⟩

end Shape

namespace Automaton
variable {a b : Automaton} {G : Set Triple} {x y : Term}

/-- A run of these steps leads from a state and a term to a final state, at the given term. -/
def LeadsBy (G : Set Triple) (a : Automaton) (steps : List Shape)
    (c : StateName × Term) (y : Term) : Prop :=
  ∃ q, a.isFinal q = true ∧ Runs (Transition.takes (joined G) a.transitions) steps c (q, y)

theorem leadsBy_cons {s : Shape} {steps : List Shape} {c d : StateName × Term}
    (hstep : Transition.takes (joined G) a.transitions s c d) (h : a.LeadsBy G steps d y) :
    a.LeadsBy G (s :: steps) c y := by
  obtain ⟨q, hq, hrun⟩ := h
  exact ⟨q, hq, d, hstep, hrun⟩

/-- To every accepting run of the second automaton there is a condensed one of the first between the
same terms. -/
def Condenses (b a : Automaton) : Prop :=
  ∀ (G : Set Triple) (steps : List Shape) (x y : Term), a.accepts (joined G) steps x y →
    ∃ short, Shape.Condenses short steps ∧ b.accepts (joined G) short x y

theorem Condenses.refl (a : Automaton) : a.Condenses a :=
  fun _ steps _ _ h => ⟨steps, Shape.Condenses.refl steps, h⟩

theorem Condenses.trans {c : Automaton} (h : c.Condenses b) (h' : b.Condenses a) :
    c.Condenses a := by
  intro G steps x y haccepts
  obtain ⟨short, hshort, haccepts⟩ := h' G steps x y haccepts
  obtain ⟨shortest, hshortest, haccepts⟩ := h G short x y haccepts
  exact ⟨shortest, hshortest.trans hshort, haccepts⟩

/-- Within a limit, no pair is lost. -/
theorem Condenses.within (h : b.Condenses a) {limit : Option Nat}
    (hwithin : a.within (joined G) limit x y) :
    b.within (joined G) limit x y := by
  obtain ⟨steps, hsteps, haccepts⟩ := hwithin
  obtain ⟨short, hshort, haccepts⟩ := h G steps x y haccepts
  exact ⟨short, hshort.within hsteps, haccepts⟩

theorem Condenses.relation (h : b.Condenses a) (hrelated : a.relation G x y) :
    b.relation G x y := by
  obtain ⟨steps, haccepts⟩ := relation_iff_accepts.mp hrelated
  obtain ⟨short, _, haccepts⟩ := h G steps x y haccepts
  exact relation_iff_accepts.mpr ⟨short, haccepts⟩

/-- A run may go on elsewhere, in the same steps. -/
theorem condenses_of_takes (f : StateName → StateName) (hstart : f start = start)
    (hfinal : ∀ q, a.isFinal q = true → b.isFinal (f q) = true)
    (h : ∀ G s c d, Transition.takes (joined G) a.transitions s c d →
      Transition.takes (joined G) b.transitions s (Prod.map f id c) (Prod.map f id d)) :
      b.Condenses a := by
  intro G steps x y haccepts
  obtain ⟨q, hq, hrun⟩ := accepts_iff.mp haccepts
  refine ⟨steps, Shape.Condenses.refl steps, accepts_iff.mpr ⟨f q, hfinal q hq, ?_⟩⟩
  have hlifted := Runs.lift (h G) hrun
  rwa [Prod.map_apply, Prod.map_apply, hstart] at hlifted

end Automaton

end PropertyPath
