import PropertyPath.Proofs.Reduction.Pursuit

/-!
# Reduced automata stay trim

In a trim automaton every state is reached from the initial state and leads to a final state, and no
transition leads back to the initial state. Each pass keeps this. A run that leaves a kept state
over transitions which compression puts together can only go on with them, so it comes to the kept
state in which they end.
-/
namespace PropertyPath
namespace Automaton
open Relation (ReflTransGen)
variable {a : Automaton}

/-- A final state is reached from the state. -/
def LeadsToFinal (a : Automaton) (s : StateName) : Prop :=
  ∃ q, a.isFinal q = true ∧ ReflTransGen (Transition.Joins a.transitions) s q

/-- Every state is reached and leads to a final state, and the initial state is not entered. -/
structure IsTrim (a : Automaton) : Prop where
  reached : a.IsReached
  leads : ∀ s ∈ a.states, a.LeadsToFinal s.name
  unentered : ∀ t ∈ a.transitions, t.target ≠ start

/-- Other transitions between the same states make a trim automaton, if what was joined is still
joined and nothing else is entered. -/
theorem IsTrim.of_joins {states : List State} {us ts : List Transition}
    (hjoins : ∀ p q, Transition.Joins ts p q → Transition.Joins us p q)
    (hentered : ∀ u ∈ us, ∃ t ∈ ts, t.target = u.target) (h : IsTrim ⟨states, ts⟩) :
    IsTrim ⟨states, us⟩ where
  reached s hs := ReflTransGen.mono hjoins _ _ (h.reached s hs)
  leads s hs := by
    obtain ⟨q, hq, hrun⟩ := h.leads s hs
    exact ⟨q, hq, ReflTransGen.mono hjoins _ _ hrun⟩
  unentered u hu := by
    obtain ⟨t, ht, htarget⟩ := hentered u hu
    exact htarget ▸ h.unentered t ht

theorem shallow_isTrim : Shallow IsTrim := by
  intro states us ts h htrim
  refine htrim.of_joins (fun _ _ => Transition.joins_of_lifts h) fun u hu => ?_
  obtain ⟨t, ht, hlifts⟩ := exists_related_of_mem h hu
  exact ⟨t, ht, hlifts.target.symm⟩

section kept
variable (h : a.validate = .ok ())
include h

/-- Where a run goes on from a transition that is followed from a kept state, the chain ends in a
state that leads on as the run does. -/
theorem leadsToFinal_of_goesOver {q : StateName} (hq : a.isFinal q = true) {s : StateName}
    (hrun : ReflTransGen (Transition.Joins a.transitions) s q) {u t : Transition}
    (hu : u ∈ a.transitions)
    (hsource : u.source ∈ a.kept.1) (hover : a.GoesOver u t) (htarget : t.target = s) :
    a.keptAutomaton.LeadsToFinal (a.lastOf u).target := by
  induction hrun using Relation.ReflTransGen.head_induction_on generalizing u t with
  | refl =>
      have hlast : a.lastOf u = t := by
        refine hover.goes_on.resolve_right fun hgoes => ?_
        rw [htarget, isInner, hq] at hgoes
        simp at hgoes
      have hkept := target_lastOf_mem_kept h hu hsource
      rw [hlast, htarget] at hkept ⊢
      exact ⟨q, (isFinal_keptAutomaton h).mpr ⟨hq, hkept⟩, ReflTransGen.refl⟩
  | @head s p hjoins _ ih =>
      obtain ⟨v, hv, hvsource, hvtarget⟩ := hjoins
      rcases hover.goes_on with hlast | ⟨_, w, hout, hover'⟩
      · have hkept := target_lastOf_mem_kept h hu hsource
        rw [hlast, htarget] at hkept ⊢
        rw [← hvsource] at hkept ⊢
        obtain ⟨r, hr, hrun⟩ := ih hv hkept (goesOver_self hv) hvtarget
        refine ⟨r, hr,
          ReflTransGen.head ⟨_, compressed_mem_kept h hv hkept, compressed_source v, ?_⟩ hrun⟩
        exact (lastOf_target v).symm
      · have hmem : v ∈ a.outgoing t.target := mem_outgoing.mpr ⟨hv, hvsource.trans htarget.symm⟩
        rw [hout, List.mem_singleton] at hmem
        exact ih hu hsource hover' (hmem ▸ hvtarget)

theorem isTrim_keptAutomaton (htrim : a.IsTrim) : a.keptAutomaton.IsTrim where
  reached := isReached_keptAutomaton h
  leads s hs := by
    obtain ⟨hmem, hkept⟩ := mem_keptAutomaton.mp hs
    obtain ⟨q, hq, hrun⟩ := htrim.leads s hmem
    rcases Relation.ReflTransGen.cases_head hrun with heq | ⟨p, ⟨t, ht, hsource, htarget⟩, hrest⟩
    · exact ⟨s.name, (isFinal_keptAutomaton h).mpr ⟨heq ▸ hq, hkept⟩, ReflTransGen.refl⟩
    · rw [← hsource] at hkept ⊢
      obtain ⟨r, hr, hrun⟩ :=
        leadsToFinal_of_goesOver h hq hrest ht hkept (goesOver_self ht) htarget
      refine ⟨r, hr,
        ReflTransGen.head ⟨_, compressed_mem_kept h ht hkept, compressed_source t, ?_⟩ hrun⟩
      exact (lastOf_target t).symm
  unentered u hu := by
    obtain ⟨s, _, hfrom⟩ := (kept_spec h).1.only u hu
    obtain ⟨t, ht, _, rfl⟩ := mem_compressedFrom.mp hfrom
    obtain ⟨v, hv, htarget⟩ := compressed_target ht
    exact htarget ▸ htrim.unentered v hv

end kept

section quotient
variable (h : a.validate = .ok ())
include h

/-- Only the initial state is merged into the initial state. -/
theorem eq_start_of_first {s : StateName} (hs : ∃ q ∈ a.states, q.name = s)
    (hfirst : a.blocks.first s = start) :
    s = start := by
  obtain ⟨q, hq, rfl⟩ := hs
  have hstates := (validate_eq_ok_iff.mp h).1
  obtain ⟨r, hr, hname, hflags⟩ := first_spec h hq
  rw [← hstates.isInitial_iff hq, (State.sameFlags_iff.mp hflags).1]
  exact (hstates.isInitial_iff (mem_quotient_states.mp hr).1).mpr (hname.trans hfirst)

theorem isTrim_quotient (htrim : a.IsTrim) : a.quotient.IsTrim where
  reached := isReached_quotient h htrim.reached
  leads s hs := by
    obtain ⟨hmem, hfirst⟩ := mem_quotient_states.mp hs
    obtain ⟨q, hq, hrun⟩ := htrim.leads s hmem
    obtain ⟨f, hf, rfl, _⟩ := (isFinal_iff (validate_eq_ok_iff.mp h).1).mp hq
    refine ⟨a.blocks.first f.name, (isFinal_first h hf).trans hq, ?_⟩
    have hlifted : ReflTransGen (Transition.Joins a.quotient.transitions) (a.blocks.first s.name)
        (a.blocks.first f.name) := ReflTransGen.lift a.blocks.first joins_quotient _ _ hrun
    rwa [hfirst] at hlifted
  unentered u hu := by
    obtain ⟨t, ht, rfl⟩ := mem_quotient_transitions.mp hu
    exact fun hstart =>
      htrim.unentered t ht (eq_start_of_first h ((validate_eq_ok_iff.mp h).2 t ht).target hstart)

end quotient

theorem isTrim_joinedPaths (htrim : a.IsTrim) : a.joinedPaths.IsTrim := by
  obtain ⟨states, ts⟩ := a
  refine htrim.of_joins joins_joinedPaths fun u hu => ?_
  obtain ⟨⟨t, ht, _, htarget⟩, _⟩ := Transition.mem_joinParallel hu
  exact ⟨t, ht, htarget⟩

theorem isTrim_withoutRepeats (htrim : a.IsTrim) : a.withoutRepeats.IsTrim := by
  obtain ⟨states, ts⟩ := a
  refine htrim.of_joins joins_withoutRepeats fun u hu => ?_
  obtain ⟨t, ht, rfl⟩ := mem_withoutRepeats.mp hu
  exact ⟨t, ht, t.distinctBranches_ends.2.symm⟩

end Automaton

theorem Pass.isTrim_result (p : Pass) {a : Automaton} (h : a.validate = .ok ()) (htrim : a.IsTrim) :
    (p.result a).IsTrim := by
  cases p with
  | pathsCompression => exact Automaton.isTrim_keptAutomaton h htrim
  | statesMerging => exact Automaton.isTrim_quotient h htrim
  | pathsMerging => exact Automaton.isTrim_joinedPaths htrim
  | distinctPaths => exact Automaton.isTrim_withoutRepeats htrim

/-- Passes one after the other leave automata that are trim at every level. -/
theorem Automaton.optimize_isTrim (passes : List Pass) {a : Automaton} (h : a.validate = .ok ())
    (htrim : ∀ c, a.Includes c → c.IsTrim) :
    ∃ b, a.optimize passes = .ok b ∧ ∀ c, b.Includes c → c.IsTrim := by
  induction passes generalizing a with
  | nil => exact ⟨a, rfl, htrim⟩
  | cons p passes ih =>
      obtain ⟨b, hb, hvalid, htrim'⟩ := p.reduce_throughout shallow_isTrim
        (fun hvalid htrim => p.isTrim_result hvalid htrim) h htrim
      obtain ⟨c, hc, htrim''⟩ := ih hvalid htrim'
      exact ⟨c, (optimize_cons hb hvalid passes).trans hc, htrim''⟩

end PropertyPath
