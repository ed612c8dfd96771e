import PropertyPath.Proofs.Search.Early

/-!
# What is remembered about closures makes no difference

A search that remembers what it has found behind closures is compared with one that searches behind
a closure anew each time. The search behind a closure knows the nested automaton and the node alone,
and a graph that answers in the same way every time lets it end in the same way every time: with the
same nodes, which is what is remembered, or for the same reason, and then the whole search is at its
end. So both searches visit and deliver the same, one step after the other.
-/
namespace PropertyPath

/-- Both ended with related values, or for the same reason. -/
def SameEnd {α β : Type} (R : α → β → Prop) : Except Halt α → Except Halt β → Prop
  | .ok a, .ok b => R a b
  | .error stop, .error stop' => stop = stop'
  | .ok _, .error _ => False
  | .error _, .ok _ => False

theorem SameEnd.eq {α : Type} {r r' : Except Halt α} (h : SameEnd Eq r r') : r = r' := by
  cases r with
  | ok a =>
      cases r' with
      | ok b => exact congrArg Except.ok h
      | error stop => exact h.elim
  | error stop =>
      cases r' with
      | ok b => exact h.elim
      | error stop' => exact congrArg Except.error h

namespace Evaluation
variable {α β γ δ : Type} {m : Evaluation α} {m' : Evaluation β} {f : α → Evaluation γ}
  {f' : β → Evaluation δ} {R : α → β → Prop} {S : γ → δ → Prop}

/-- However many calls have been made before each of them, both evaluations deliver the same
solutions and come to the same end. -/
def Parallels (m : Evaluation α) (m' : Evaluation β) (R : α → β → Prop) : Prop :=
  ∀ k k', (m k).solutions = (m' k').solutions ∧ SameEnd R (m k).result (m' k').result

theorem solutions_bind_of_error {k : Nat} {stop : Halt} (h : (m k).result = .error stop) :
    ((m >>= f) k).solutions = (m k).solutions := by
  cases hrun : m k with
  | mk events result =>
      rw [hrun] at h
      cases h
      rw [bind_run_of_error hrun]
      rfl

theorem Parallels.bind (h : m.Parallels m' R) (hf : ∀ a b, R a b → (f a).Parallels (f' b) S) :
    (m >>= f).Parallels (m' >>= f') S := by
  intro k k'
  obtain ⟨hsolutions, hend⟩ := h k k'
  cases hresult : (m k).result with
  | error stop =>
      cases hresult' : (m' k').result with
      | error stop' =>
          rw [hresult, hresult'] at hend
          rw [solutions_bind_of_error hresult, solutions_bind_of_error hresult',
            result_bind_of_error hresult, result_bind_of_error hresult']
          exact ⟨hsolutions, hend⟩
      | ok b =>
          rw [hresult, hresult'] at hend
          exact hend.elim
  | ok a =>
      cases hresult' : (m' k').result with
      | error stop' =>
          rw [hresult, hresult'] at hend
          exact hend.elim
      | ok b =>
          rw [hresult, hresult'] at hend
          obtain ⟨hfirst, htold⟩ := bind_of_ok (f := f) hresult
          obtain ⟨hfirst', htold'⟩ := bind_of_ok (f := f') hresult'
          obtain ⟨hmore, hlast⟩ := hf a b hend (k + Run.callCount (m k).events)
            (k' + Run.callCount (m' k').events)
          rw [hfirst, hfirst', htold, htold', hsolutions, hmore]
          exact ⟨rfl, hlast⟩

theorem Parallels.bind_same {m' : Evaluation α} {f' : α → Evaluation δ} (h : m.Parallels m' Eq)
    (hf : ∀ a, (f a).Parallels (f' a) S) : (m >>= f).Parallels (m' >>= f') S := by
  refine h.bind ?_
  intro a _ heq
  subst heq
  exact hf a

theorem Parallels.mono {R' : α → β → Prop} (h : m.Parallels m' R) (himp : ∀ a b, R a b → R' a b) :
    m.Parallels m' R' := by
  intro k k'
  obtain ⟨hsolutions, hend⟩ := h k k'
  refine ⟨hsolutions, ?_⟩
  cases hresult : (m k).result <;> cases hresult' : (m' k').result <;>
    rw [hresult, hresult'] at hend
  case ok.ok a b => exact himp a b hend
  all_goals exact hend

theorem parallels_pure {a : α} {b : β} (h : R a b) :
    (Pure.pure a : Evaluation α).Parallels (Pure.pure b) R := fun _ _ => ⟨rfl, h⟩

theorem parallels_fail (fault : EvaluationFault) :
    (fail fault : Evaluation α).Parallels (fail fault : Evaluation β) R := fun _ _ => ⟨rfl, rfl⟩

theorem parallels_log (events : List Event) : (log events).Parallels (log events) Eq :=
  fun _ _ => ⟨rfl, rfl⟩

theorem parallels_ofExcept (r : Except EvaluationFault α) :
    (ofExcept r).Parallels (ofExcept r) Eq := by
  cases r with
  | ok a => exact parallels_pure rfl
  | error fault => exact parallels_fail fault

/-- What delivers nothing runs beside what ends with a related value and delivers nothing. -/
theorem Returns.parallels {P : α → Prop} {Q : β → Prop} (h : m.Returns P) (h' : m'.Returns Q)
    (hR : ∀ a b, P a → Q b → R a b) : m.Parallels m' R := by
  intro k k'
  obtain ⟨a, hresult, hsolutions, ha⟩ := h k
  obtain ⟨b, hresult', hsolutions', hb⟩ := h' k'
  rw [hresult, hresult']
  exact ⟨hsolutions.trans hsolutions'.symm, hR a b ha hb⟩

/-- What both evaluations end with at some time the second one ends with at any time. -/
theorem Parallels.settled {m' : Evaluation α} (h : m.Parallels m' Eq) :
    m.Parallels m' fun a b => a = b ∧ ∀ k, (m' k).result = .ok b := by
  intro k k'
  obtain ⟨hsolutions, hend⟩ := h k k'
  refine ⟨hsolutions, ?_⟩
  have hend' := hend.eq
  have hall (j : Nat) := (h k j).2.eq
  cases hresult : (m k).result with
  | error stop =>
      rw [← hend', hresult]
      rfl
  | ok a =>
      rw [← hend', hresult]
      exact ⟨rfl, fun j => (hall j).symm.trans hresult⟩

theorem parallels_ask {g : GraphService} (hg : g.Steady)
    (context : CallContext) (call : GraphCall) :
    (ask g context call).Parallels (ask g context call) Eq := by
  intro k k'
  refine ⟨rfl, ?_⟩
  rw [ask, ask, hg k k']
  cases g.answer k' call context <;> rfl

/-- What is collected is the same, and it is not delivered. -/
theorem Parallels.collect (h : m.Parallels m' R) : (collect m).Parallels (collect m') Eq := by
  intro k k'
  obtain ⟨hsolutions, hend⟩ := h k k'
  refine ⟨(silent_collect m k).trans (silent_collect m' k').symm, ?_⟩
  rw [Evaluation.collect, Evaluation.collect, ← hsolutions]
  cases hresult : (m k).result <;> cases hresult' : (m' k').result <;>
    rw [hresult, hresult'] at hend
  case error.error => exact hend
  case ok.ok => exact rfl
  all_goals exact hend.elim

end Evaluation

open Evaluation

/-- Over a graph that answers in the same way every time hops end in the same way every time. -/
theorem composes_parallels {g : GraphService} (hg : g.Steady) (context : CallContext) :
    Composes g context fun _ m => m.Parallels m Eq where
  pure _ := parallels_pure rfl
  fail := parallels_fail
  ask := parallels_ask hg context
  bind := Parallels.bind_same

namespace Search

/-- The same search, when what it finds behind closures is searched anew each time. -/
def forgetful (s : Search) : Search := { s with remember := false }

/-- How far the search and the forgetful one have come: as far as each other, and what is remembered
about closures is what the forgetful search finds behind them at any time. -/
structure Beside (s : Search) (close' : ClosureSearch) (p q : Progress) : Prop where
  visits : q.visits = p.visits
  recalls : s.Recalls (Recalled close') p

variable {s : Search} {close close' : ClosureSearch} {p q : Progress} {c : Configuration}

theorem beside_start (s : Search) (close' : ClosureSearch) :
    s.Beside close' s.start s.forgetful.start :=
  ⟨rfl, nofun⟩

theorem Beside.visited (h : s.Beside close' p q) (visits : Visits) :
    s.Beside close' { p with visits } { q with visits } := ⟨rfl, h.recalls⟩

section steps
variable (hg : s.graph.Steady) (hclose : ∀ a x, (close a x).Parallels (close' a x) Eq)
  (hsilent : ∀ a x, (close' a x).Silent)
include hg hclose hsilent

/-- What is remembered behind a closure is found there anew. -/
theorem parallels_follow {t : Transition} {i : Nat} (hi : (t, i) ∈ s.automaton.transitions.zipIdx)
    (h : s.Beside close' p q) (x : Term) :
    (s.follow close i t x p).Parallels (s.forgetful.follow close' i t x q) fun r r' =>
      r.1 = r'.1 ∧ s.Beside close' r.2 r'.2 := by
  cases hbranches : t.label.branches? with
  | some branches =>
      rw [follow_of_branches hbranches, follow_of_branches hbranches]
      refine ((composes_parallels hg _).joinedPairs _ _).bind_same fun pairs => ?_
      exact parallels_pure ⟨rfl, h⟩
  | none =>
      obtain ⟨kind, a, hlabel⟩ := Label.exists_closure_of_branches hbranches
      have hanew : s.forgetful.remembered? i x q = none := rfl
      rw [follow_of_closure hlabel hanew]
      cases hfound : s.remembered? i x p with
      | some nodes =>
          have hnodes := h.recalls t i hi x nodes (lookup_of_remembered hfound) kind a hlabel
          have hreturns : (close' a x).Returns (· = nodes) :=
            fun k => ⟨nodes, hnodes k, hsilent a x k, rfl⟩
          have hlog : ∀ e ∈ [Event.closure i x], e.isSolution = false := by
            simp [Event.isSolution]
          rw [follow_of_remembered hlabel hfound]
          refine Returns.parallels (P := (· = (nodes, p)))
            (Q := fun r => r.1 = nodes ∧ r.2.visits = q.visits) (returns_pure rfl) ?_ ?_
          · refine Returns.bind hreturns ?_
            intro _ heq
            refine Returns.bind (returns_log hlog) ?_
            exact fun _ _ => returns_pure ⟨heq, rfl⟩
          · intro r r' hr hr'
            subst hr
            exact ⟨hr'.1.symm, hr'.2.trans h.visits, h.recalls⟩
      | none =>
          rw [follow_of_closure hlabel hfound]
          refine (hclose a x).settled.bind ?_
          intro nodes nodes' hboth
          obtain ⟨heq, hnodes⟩ := hboth
          subst heq
          have hrecalled : Recalled close' t.label x nodes := by
            intro kind' a' hlabel' k
            obtain ⟨rfl, rfl⟩ := Label.closure.inj (hlabel.symm.trans hlabel')
            exact hnodes k
          refine (parallels_log _).bind_same fun _ => ?_
          exact parallels_pure ⟨rfl, h.visits, h.recalls.cons hi hrecalled⟩

theorem parallels_followAll (c : Configuration) {ts : List (Transition × Nat)}
    (hts : ts ⊆ s.automaton.transitions.zipIdx) (h : s.Beside close' p q) :
    (s.followAll close c ts p).Parallels (s.forgetful.followAll close' c ts q) fun r r' =>
      r.1 = r'.1 ∧ s.Beside close' r.2 r'.2 := by
  induction ts generalizing p q with
  | nil => exact parallels_pure ⟨rfl, h⟩
  | cons t ts ih =>
      obtain ⟨t, i⟩ := t
      obtain ⟨hi, hrest⟩ := List.cons_subset.mp hts
      rw [followAll, followAll]
      refine (parallels_follow hg hclose hsilent hi h c.node).bind ?_
      intro r r' hboth
      obtain ⟨nodes, p₁⟩ := r
      obtain ⟨_, q₁⟩ := r'
      obtain ⟨rfl, hbeside⟩ := hboth
      dsimp only
      rw [hbeside.visits]
      refine (parallels_ofExcept _).bind_same fun marked => ?_
      refine (ih hrest (hbeside.visited marked.1)).bind ?_
      intro r r' hboth
      obtain ⟨later, p₂⟩ := r
      obtain ⟨_, q₂⟩ := r'
      obtain ⟨rfl, hbeside'⟩ := hboth
      exact parallels_pure ⟨rfl, hbeside'⟩

omit hg hclose hsilent in
/-- Both searches mark the pair of a configuration as delivered, or none of them does. -/
theorem Beside.mark (h : s.Beside close' p q) (c : Configuration) :
    s.Beside close' (s.mark c p).1 (s.mark c q).1 ∧ (s.mark c q).2 = (s.mark c p).2 := by
  refine ⟨⟨?_, h.recalls.mark c⟩, ?_⟩
  · rw [Search.mark, Search.mark, h.visits]
  · rw [Search.mark, Search.mark, h.visits]

theorem parallels_expand (c : Configuration) (h : s.Beside close' p q) :
    (s.expand close c p).Parallels (s.forgetful.expand close' c q) fun r r' =>
      r.1 = r'.1 ∧ s.Beside close' r.2 r'.2 := by
  obtain ⟨hmarked, hbatch⟩ := h.mark c
  have hmark : s.forgetful.mark c q = s.mark c q := rfl
  have hstops : s.forgetful.stopsAt c = s.stopsAt c := rfl
  have hdeep : s.forgetful.isTooDeep c = s.isTooDeep c := rfl
  have hleaving : s.forgetful.leaving c.state = s.leaving c.state := rfl
  rw [expand_eq, expand_eq, hstops, hmark, hbatch]
  refine (parallels_log _).bind_same fun _ => ?_
  split
  · exact (parallels_log _).bind_same fun _ => parallels_pure ⟨rfl, hmarked⟩
  · rw [onward, onward, hdeep, hleaving]
    split
    · exact (parallels_log _).bind_same fun _ => parallels_pure ⟨rfl, hmarked⟩
    · refine (parallels_followAll hg hclose hsilent c (leaving_subset c.state) hmarked).bind ?_
      intro r r' hboth
      obtain ⟨fresh, p₁⟩ := r
      obtain ⟨_, q₁⟩ := r'
      obtain ⟨rfl, hbeside⟩ := hboth
      exact (parallels_log _).bind_same fun _ => parallels_pure ⟨rfl, hbeside⟩

theorem parallels_explore (n : Nat) (queue : List Configuration) (h : s.Beside close' p q) :
    (s.explore close n queue p).Parallels (s.forgetful.explore close' n queue q)
      (s.Beside close') := by
  induction n generalizing queue p q with
  | zero =>
      cases queue with
      | nil => exact parallels_pure h
      | cons c queue => exact fun _ _ => ⟨rfl, rfl⟩
  | succ n ih =>
      cases queue with
      | nil => exact parallels_pure h
      | cons c queue =>
          rw [explore, explore]
          refine (parallels_expand hg hclose hsilent c h).bind ?_
          intro r r' hboth
          obtain ⟨next, p₁⟩ := r
          obtain ⟨_, q₁⟩ := r'
          obtain ⟨rfl, hbeside⟩ := hboth
          cases next with
          | none => exact parallels_pure hbeside
          | some fresh => exact ih (queue ++ fresh) hbeside

theorem parallels_searchFrom (origins : List Term) (h : s.Beside close' p q) :
    (s.searchFrom close origins p).Parallels (s.forgetful.searchFrom close' origins q)
      (s.Beside close') := by
  induction origins generalizing p q with
  | nil => exact parallels_pure h
  | cons x origins ih =>
      rw [searchFrom, searchFrom, h.visits]
      refine (parallels_ofExcept _).bind_same fun marked => ?_
      have hexplored := parallels_explore hg hclose hsilent s.rounds marked.2 (h.visited marked.1)
      exact hexplored.bind fun _ _ hbeside => ih hbeside

end steps

/-- The searches behind closures end in the same way, whether searches within them remember or
not. -/
theorem parallels_closureSearch (hg : s.graph.Steady) (allowed : Nat) (a : Automaton) (x : Term) :
    (s.closureSearch allowed a x).Parallels (s.forgetful.closureSearch allowed a x) Eq := by
  induction allowed generalizing a x with
  | zero => exact parallels_fail _
  | succ allowed ih =>
      have hinner := parallels_searchFrom (s := s.nested a) hg ih
        (fun b y => silent_closureSearch (s := s.forgetful) allowed b y) [x] (beside_start _ _)
      rw [closureSearch, closureSearch]
      exact hinner.collect.bind_same fun solutions => parallels_pure rfl

theorem parallels_run (hg : s.graph.Steady) (origins : List Term) :
    (s.run origins).Parallels (s.forgetful.run origins) fun p q => q.visits = p.visits := by
  have hsearch := parallels_searchFrom hg (parallels_closureSearch hg s.options.maxNestingDepth)
    (fun a x => silent_closureSearch _ a x) origins (beside_start s _)
  exact hsearch.mono fun _ _ hbeside => hbeside.visits

theorem probe_forgetful (s : Search) : s.forgetful.probe = s.probe := by
  have hall : ∀ openings, s.forgetful.probeAll openings = s.probeAll openings := by
    intro openings
    induction openings with
    | nil => rfl
    | cons branches openings ih =>
        rw [probeAll, probeAll, ih]
        rfl
  rw [probe, probe, hall]
  rfl

theorem parallels_reflexive (hg : s.graph.Steady) (hvisits : q.visits = p.visits) :
    (s.reflexive p).Parallels (s.forgetful.reflexive q) Eq := by
  rw [reflexive, reflexive, hvisits]
  exact (parallels_ask hg _ _).bind_same fun bs => parallels_log _

/-- The search between two ends: from the end that is given, or from wherever a walk may begin. -/
def between (s : Search) (subject object : Endpoint) : Evaluation Unit :=
  match subject, object with
  | .term x, _ => s.runFrom x
  | .var _, .term y => s.runFrom y
  | .var _, .var _ => s.runAnywhere

theorem parallels_runFrom (hg : s.graph.Steady) (x : Term) :
    (s.runFrom x).Parallels (s.forgetful.runFrom x) Eq :=
  (parallels_run hg [x]).bind fun _ _ _ => parallels_pure rfl

theorem parallels_runAnywhere (hg : s.graph.Steady) :
    s.runAnywhere.Parallels s.forgetful.runAnywhere Eq := by
  rw [runAnywhere, runAnywhere, probe_forgetful]
  refine (composes_parallels hg _).probe.bind_same fun origins => ?_
  refine (parallels_run hg origins).bind ?_
  intro p q hvisits
  have hnullable : s.forgetful.automaton.isNullable = s.automaton.isNullable := rfl
  rw [hnullable]
  split
  · exact parallels_reflexive hg hvisits
  · exact parallels_pure rfl

theorem parallels_between (hg : s.graph.Steady) (subject object : Endpoint) :
    (s.between subject object).Parallels (s.forgetful.between subject object) Eq := by
  cases subject with
  | term x => exact parallels_runFrom hg x
  | var v =>
      cases object with
      | term y => exact parallels_runFrom hg y
      | var w => exact parallels_runAnywhere hg

end Search

theorem Evaluator.evaluation_eq_between (e : Evaluator) (subject : Endpoint) (path : CompiledPath)
    (object : Endpoint) :
    e.evaluation subject path object =
      (e.searchFor subject path object).between subject object := by
  cases subject <;> cases object <;> rfl

end PropertyPath
