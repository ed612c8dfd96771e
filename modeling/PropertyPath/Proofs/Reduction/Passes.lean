import PropertyPath.Proofs.Reduction.Bisimulation
import PropertyPath.Proofs.Reduction.Compression
import PropertyPath.Proofs.Reduction.Parallel
import PropertyPath.Reduction.Pass

/-!
# Passes level by level

No pass refuses a valid automaton, and what it makes of the automaton alone has a name. A pass turns
to nested automata first, so what relates its outcome to what it was given is shown on one level,
where nested automata have been replaced by others that are so related to them. The optimizer takes
one such step after the other.
-/
namespace PropertyPath

/-- What a pass makes of a valid automaton when it leaves nested automata as they are. -/
def Pass.result : Pass → Automaton → Automaton
  | pathsCompression => Automaton.keptAutomaton
  | statesMerging => Automaton.quotient
  | pathsMerging => Automaton.joinedPaths
  | distinctPaths => Automaton.withoutRepeats

theorem Pass.reduceTop_reduct (p : Pass) {a : Automaton} (h : a.validate = .ok ()) :
    p.reduceTop a = .ok (p.result a) ∧ (p.result a).validate = .ok () ∧
    (p.result a).IsReductOf a := by
  cases p with
  | pathsCompression => exact Automaton.compress_reduct h
  | statesMerging => exact Automaton.mergeStates_reduct h
  | pathsMerging => exact Automaton.mergePaths_reduct h
  | distinctPaths => exact Automaton.distinctPaths_reduct h

theorem Pass.result_comesFrom (p : Pass) {a : Automaton} (h : a.validate = .ok ()) {u : Transition}
    (hu : u ∈ (p.result a).transitions) : u.label.ComesFrom a.transitions := by
  cases p with
  | pathsCompression => exact Automaton.keptAutomaton_comesFrom h hu
  | statesMerging => exact Automaton.quotient_comesFrom hu
  | pathsMerging => exact (Transition.mem_joinParallel hu).2
  | distinctPaths =>
      obtain ⟨t, ht, rfl⟩ := Automaton.mem_withoutRepeats.mp hu
      exact Transition.distinctBranches_comesFrom ht

/-- What the outcome of a pass nests was nested before. -/
theorem Pass.nested_result (p : Pass) {a : Automaton} (h : a.validate = .ok ()) {u : Transition}
    (hu : u ∈ (p.result a).transitions) {kind : Closure} {b : Automaton}
    (hlabel : u.label = .closure kind b) :
    ∃ t ∈ a.transitions, t.label = .closure kind b := by
  have hfrom := p.result_comesFrom h hu
  rw [hlabel] at hfrom
  cases hfrom with
  | kept t ht hl => exact ⟨t, ht, hl⟩
  | chains branches hbranches _ => cases hbranches

/-- The same label, but that a closure nests a valid automaton which is related to the one
before. -/
inductive Label.Lifts (R : Automaton → Automaton → Prop) : Label → Label → Prop
  | same {l : Label} {branches : List (List Instruction)} :
      l.branches? = some branches → Lifts R l l
  | closure {kind : Closure} {b a : Automaton} : b.validate = .ok () → R b a →
      Lifts R (.closure kind b) (.closure kind a)

/-- A transition with the same ends and such a label. -/
structure Transition.Lifts (R : Automaton → Automaton → Prop) (u t : Transition) : Prop where
  source : u.source = t.source
  target : u.target = t.target
  label : u.label.Lifts R t.label

section lifts
variable {R : Automaton → Automaton → Prop}

theorem Label.lifts_refl (hrefl : ∀ a, R a a) {l : Label} (h : l.validate = .ok ()) :
    l.Lifts R l := by
  cases l with
  | closure kind nested => exact .closure h (hrefl nested)
  | _ => exact .same rfl

theorem Label.Lifts.validate {l' l : Label} (h : l'.Lifts R l) : l'.validate = .ok () := by
  cases h with
  | same hbranches => exact Label.validate_of_branches hbranches
  | closure hvalid _ => exact hvalid

/-- Replacing nested automata makes a valid automaton. -/
theorem Automaton.make_of_lifts {states : List State} {us ts : List Transition}
    (hvalid : validate ⟨states, ts⟩ = .ok ()) (h : List.Forall₂ (Transition.Lifts R) us ts) :
    make states us = .ok ⟨states, us⟩ ∧ validate ⟨states, us⟩ = .ok () := by
  obtain ⟨hstates, htransitions⟩ := validate_eq_ok_iff.mp hvalid
  apply make_of_proper hstates
  intro u hu
  obtain ⟨t, ht, hlifts⟩ := exists_related_of_mem h hu
  have hproper := htransitions t ht
  exact ⟨hlifts.source ▸ hproper.source, hlifts.target ▸ hproper.target, hlifts.label.validate⟩

/-- What the outcome of a pass nests is related to what was nested when the nested automata were
replaced. -/
theorem Pass.nested_of_lifts (p : Pass) {states : List State} {us ts : List Transition}
    (hvalid : Automaton.validate ⟨states, us⟩ = .ok ())
    (h : List.Forall₂ (Transition.Lifts R) us ts)
    {v : Transition} (hv : v ∈ (p.result ⟨states, us⟩).transitions) {kind : Closure} {b : Automaton}
    (hlabel : v.label = .closure kind b) : ∃ t ∈ ts, ∃ a, t.label = .closure kind a ∧ R b a := by
  obtain ⟨u, hu, hulabel⟩ := p.nested_result hvalid hv hlabel
  obtain ⟨⟨source, target, label⟩, ht, hlifts⟩ := exists_related_of_mem h hu
  have hl := hlifts.label
  rw [hulabel] at hl
  cases hl with
  | same hbranches => cases hbranches
  | closure _ hR => exact ⟨_, ht, _, rfl, hR⟩

end lifts

namespace Pass

/-- What a pass makes of an automaton is related to it, if what has become of the nested automata
is. -/
def Steps (p : Pass) (R : Automaton → Automaton → Prop) : Prop :=
  ∀ (states : List State) (us ts : List Transition), Automaton.validate ⟨states, ts⟩ = .ok () →
    Automaton.validate ⟨states, us⟩ = .ok () → List.Forall₂ (Transition.Lifts R) us ts →
      R (p.result ⟨states, us⟩) ⟨states, ts⟩

variable {p : Pass} {R : Automaton → Automaton → Prop}

/-- Nested automata may be left as they are. -/
theorem Steps.reduceTop (hp : p.Steps R) (hrefl : ∀ a, R a a) {a : Automaton}
    (h : a.validate = .ok ()) :
    ∃ b, p.reduceTop a = .ok b ∧ b.validate = .ok () ∧ R b a := by
  obtain ⟨states, ts⟩ := a
  obtain ⟨hresult, hvalid, _⟩ := p.reduceTop_reduct h
  refine ⟨_, hresult, hvalid, hp states ts ts h h (List.forall₂_same.mpr ?_)⟩
  exact fun t ht =>
    ⟨rfl, rfl, Label.lifts_refl hrefl ((Automaton.validate_eq_ok_iff.mp h).2 t ht).label⟩

mutual

/-- By recursion over the automata within each other. -/
theorem Steps.reduce (hp : p.Steps R) {a : Automaton} (h : a.validate = .ok ()) :
    ∃ b, p.reduce a = .ok b ∧ b.validate = .ok () ∧ R b a := by
  obtain ⟨states, ts⟩ := a
  have hlabels := fun t ht => ((Automaton.validate_eq_ok_iff.mp h).2 t ht).label
  obtain ⟨us, hus, hlifts⟩ := hp.reduceNested ts hlabels
  obtain ⟨hmake, hvalid⟩ := Automaton.make_of_lifts h hlifts
  obtain ⟨hresult, hvalid', _⟩ := p.reduceTop_reduct hvalid
  refine ⟨_, ?_, hvalid', hp states us ts h hvalid hlifts⟩
  rw [Pass.reduce, bind_eq_ok_iff]
  exact ⟨us, hus, bind_eq_ok_iff.mpr ⟨_, hmake, hresult⟩⟩

theorem Steps.reduceNested (hp : p.Steps R) (ts : List Transition)
    (h : ∀ t ∈ ts, t.label.validate = .ok ()) :
    ∃ us, p.reduceNested ts = .ok us ∧ List.Forall₂ (Transition.Lifts R) us ts := by
  cases ts with
  | nil => exact ⟨[], rfl, List.Forall₂.nil⟩
  | cons t ts =>
      obtain ⟨source, target, label⟩ := t
      rw [List.forall_mem_cons] at h
      obtain ⟨l, hl, hlabel⟩ := hp.reduceLabel label h.1
      obtain ⟨us, hus, hlifts⟩ := hp.reduceNested ts h.2
      refine ⟨⟨source, target, l⟩ :: us, ?_, List.Forall₂.cons ⟨rfl, rfl, hlabel⟩ hlifts⟩
      rw [Pass.reduceNested, bind_eq_ok_iff]
      exact ⟨l, hl, bind_eq_ok_iff.mpr ⟨us, hus, rfl⟩⟩

theorem Steps.reduceLabel (hp : p.Steps R) (l : Label) (h : l.validate = .ok ()) :
    ∃ l', p.reduceLabel l = .ok l' ∧ l'.Lifts R l := by
  cases l with
  | property i => exact ⟨_, rfl, .same rfl⟩
  | sequence is => exact ⟨_, rfl, .same rfl⟩
  | alternative branches => exact ⟨_, rfl, .same rfl⟩
  | closure kind nested =>
      obtain ⟨b, hb, hvalid, hrelated⟩ := hp.reduce (a := nested) h
      refine ⟨.closure kind b, ?_, .closure hvalid hrelated⟩
      rw [Pass.reduceLabel, bind_eq_ok_iff]
      exact ⟨b, hb, rfl⟩

end

end Pass

namespace Automaton

theorem optimize_cons {p : Pass} {a b : Automaton} (hb : p.reduce a = .ok b)
    (hvalid : b.validate = .ok ()) (passes : List Pass) :
    a.optimize (p :: passes) = b.optimize passes := by
  rw [optimize, List.foldlM_cons, hb]
  change (b.validate >>= fun _ => _) >>= _ = _
  rw [hvalid]
  rfl

/-- What every pass steps along, any passes one after the other do. -/
theorem optimize_of_steps {R : Automaton → Automaton → Prop} (hrefl : ∀ a, R a a)
    (htrans : ∀ {c b a}, R c b → R b a → R c a)
    (hsteps : ∀ p : Pass, p.Steps R) (passes : List Pass)
    {a : Automaton} (h : a.validate = .ok ()) :
    ∃ b, a.optimize passes = .ok b ∧ b.validate = .ok () ∧ R b a := by
  induction passes generalizing a with
  | nil => exact ⟨a, rfl, h, hrefl a⟩
  | cons p passes ih =>
      obtain ⟨b, hb, hvalid, hrelated⟩ := (hsteps p).reduce h
      obtain ⟨c, hc, hvalid', hrelated'⟩ := ih hvalid
      exact ⟨c, (optimize_cons hb hvalid passes).trans hc, hvalid', htrans hrelated' hrelated⟩

end Automaton

end PropertyPath
