import PropertyPath.Proofs.Reduction.Passes

/-!
# Passes condense runs

Where nested automata have been replaced by others that condense their runs, a run can be taken in
the same hops and over condensed runs within its closures. Each pass condenses runs on one level:
compression leaves hops out, and all other passes take the same steps between the states that are
left.
-/
namespace PropertyPath

namespace Automaton
variable {states : List State} {us ts : List Transition} {G : Set Triple}

/-- A run that is taken step by step over replaced transitions is condensed within its closures. -/
theorem runs_of_lifts (h : List.Forall₂ (Transition.Lifts Condenses) us ts) {steps : List Shape}
    {c d : StateName × Term} (hrun : Runs (Transition.takes (joined G) ts) steps c d) :
    ∃ short, Shape.Condenses short steps ∧ Runs (Transition.takes (joined G) us) short c d := by
  induction steps generalizing c with
  | nil => exact ⟨[], .nil, hrun⟩
  | cons s steps ih =>
      obtain ⟨e, hstep, hrest⟩ := hrun
      obtain ⟨short, hshort, hruns⟩ := ih hrest
      obtain ⟨t, ht, hsource, htarget, htakes⟩ := Transition.takes_iff.mp hstep
      obtain ⟨⟨source, target, label⟩, hu, hlifts⟩ := exists_related_of_mem h.flip ht
      obtain ⟨source', target', label'⟩ := t
      obtain ⟨rfl, rfl, hlabel⟩ := hlifts
      have hstep' {s' : Shape} (htakes' : label.takes (joined G) s' c.2 e.2) :
          Transition.takes (joined G) us s' c e :=
        Transition.takes_iff.mpr ⟨_, hu, hsource, htarget, htakes'⟩
      cases hlabel with
      | same _ => exact ⟨s :: short, .cons s hshort, e, hstep' htakes, hruns⟩
      | closure _ hnested =>
          obtain ⟨within, rfl, haccepts⟩ := htakes
          obtain ⟨inside, hinside, haccepts'⟩ := hnested G within _ _ haccepts
          exact ⟨_, .closure hinside hshort, e, hstep' ⟨inside, rfl, haccepts'⟩, hruns⟩

theorem condenses_of_lifts (h : List.Forall₂ (Transition.Lifts Condenses) us ts) :
    Condenses ⟨states, us⟩ ⟨states, ts⟩ := by
  intro G steps x y haccepts
  obtain ⟨q, hq, hrun⟩ := accepts_iff.mp haccepts
  obtain ⟨short, hshort, hruns⟩ := runs_of_lifts h hrun
  exact ⟨short, hshort, accepts_iff.mpr ⟨q, hq, hruns⟩⟩

end Automaton

namespace Pass

theorem result_condenses (p : Pass) {a : Automaton} (h : a.validate = .ok ()) :
    (p.result a).Condenses a := by
  cases p with
  | pathsCompression => exact Automaton.keptAutomaton_condenses h
  | statesMerging => exact Automaton.quotient_condenses h
  | pathsMerging => exact a.joinedPaths_condenses
  | distinctPaths => exact a.withoutRepeats_condenses

theorem steps_condenses (p : Pass) : p.Steps Automaton.Condenses :=
  fun _ _ _ _ hvalid h => (p.result_condenses hvalid).trans (Automaton.condenses_of_lifts h)

end Pass

/-- For every run of an automaton that is given, the optimized one has a condensed run. -/
theorem Automaton.optimize_condenses (passes : List Pass) {a b : Automaton}
    (h : a.validate = .ok ())
    (hb : a.optimize passes = .ok b) : b.Condenses a := by
  obtain ⟨c, hc, _, hcondenses⟩ :=
    optimize_of_steps Condenses.refl Condenses.trans Pass.steps_condenses passes h
  obtain rfl := Except.ok.inj (hc.symm.trans hb)
  exact hcondenses

end PropertyPath
