import PropertyPath.Proofs.Search.Early
import PropertyPath.Proofs.Search.Evaluator

/-!
# Whether a path leads from one term to another

An evaluation that ends without a fault ends so when it stops as early as it can, with the same
solutions in the same order. Between two terms there is one pair that can be delivered, so whether
there is a first solution tells whether the path leads from one term to the other.
-/
namespace PropertyPath
open Evaluation

namespace Run

theorem complete_cutAfter_one (events : List Event) :
    (cutAfter 1 events).2 = !(events.filterMap Event.solution?).isEmpty := by
  induction events with
  | nil => rfl
  | cons e events ih =>
      cases e with
      | solution t => simp [cutAfter, Event.isSolution, Event.solution?]
      | _ => simpa [cutAfter, Event.isSolution, Event.solution?, List.filterMap_cons] using ih

/-- A run that ends without a fault has a first solution if it has any. -/
theorem result_any {r : Run Unit} (h : r.result = .ok ()) :
    r.any.result = .ok (!r.solutions.isEmpty) := by
  have hcomplete := complete_cutAfter_one r.events
  rw [any]
  cases hcut : cutAfter 1 r.events with
  | mk events complete =>
      rw [hcut] at hcomplete
      rw [solutions, ← hcomplete]
      cases complete with
      | true => rfl
      | false =>
          dsimp only
          rw [h]
          rfl

end Run

namespace Evaluator
variable {e : Evaluator} {subject object : Endpoint} {path : CompiledPath}

/-- The same evaluator, when its searches stop as early as they can. -/
def early (e : Evaluator) : Evaluator :=
  { e with options := { e.options with earlyTermination := true } }

theorem searchFor_early (e : Evaluator) (subject : Endpoint)
    (path : CompiledPath) (object : Endpoint) :
    e.early.searchFor subject path object = (e.searchFor subject path object).early := by
  cases subject <;> cases object <;> rfl

theorem refines_originsFor (hg : e.graph.Steady) :
    (e.originsFor subject path object).Refines (e.early.originsFor subject path object) Eq := by
  cases subject with
  | term s => exact refines_pure rfl
  | var x =>
      cases object with
      | term o => exact refines_pure rfl
      | var y => exact Search.refines_probe hg

theorem refines_closing (hg : e.graph.Steady) {p q : Progress}
    (h : q.visits.delivered = p.visits.delivered) :
    (e.closing subject path object p).Refines (e.early.closing subject path object q) Eq := by
  cases subject with
  | term s => exact refines_pure rfl
  | var x =>
      cases object with
      | term o => exact refines_pure rfl
      | var y =>
          let target : Target := if x = y then .origin else .any
          have hreflexive : ((e.search path.forward target false).reflexive p).Refines
              ((e.early.search path.forward target false).reflexive q) Eq :=
            Search.refines_reflexive hg h
          have hclosing : ∀ (e : Evaluator) (p : Progress), e.closing (.var x) path (.var y) p =
              if path.forward.isNullable then (e.search path.forward target false).reflexive p
              else return := fun _ _ => rfl
          rw [hclosing, hclosing]
          split
          · exact hreflexive
          · exact refines_pure rfl

/-- An evaluation may stop the search of an origin early. -/
theorem refines_evaluation (hg : e.graph.Steady) (hlate : e.options.earlyTermination = false) :
    (e.evaluation subject path object).Refines (e.early.evaluation subject path object) Eq := by
  have hrun : ∀ origins, ((e.searchFor subject path object).run origins).Refines
      ((e.early.searchFor subject path object).run origins)
      fun p q => q.visits.delivered = p.visits.delivered := by
    intro origins
    rw [searchFor_early]
    refine Search.refines_run ?_ ?_ origins
    · rw [graph_searchFor]
      exact hg
    · rw [options_searchFor]
      exact hlate
  rw [evaluation_eq, evaluation_eq]
  refine (refines_originsFor hg).bind_same fun origins => ?_
  exact (hrun origins).bind fun p q hpq => refines_closing hg hpq

/-- Stopping early keeps the solutions of an evaluation that ends without a fault, whether it has
stopped early itself or not. -/
theorem evaluateCompiled_early (hg : e.graph.Steady)
    (hok : (e.evaluateCompiled subject path object).result = .ok ()) :
    (e.early.evaluateCompiled subject path object).result = .ok () ∧
      (e.early.evaluateCompiled subject path object).solutions =
        (e.evaluateCompiled subject path object).solutions := by
  cases hoption : e.options.earlyTermination with
  | true =>
      have heq : e.early = e := by
        rw [early, ← hoption]
      rw [heq]
      exact ⟨hok, rfl⟩
  | false =>
      obtain ⟨_, hresult, hsolutions, _⟩ := refines_evaluation hg hoption 0 () hok 0
      exact ⟨hresult, hsolutions⟩

theorem contains_eq {path : PathExpr} {c : CompiledPath}
    (hc : CompiledPath.ofExpr path e.options.optimize = .ok c) (s o : Term) :
    e.contains s path o = (e.early.evaluateCompiled (.term s) c (.term o)).any := by
  have hcompiled : CompiledPath.ofExpr path
      { e.options with earlyTermination := true }.optimize = .ok c := hc
  rw [contains]
  dsimp only
  rw [hcompiled]
  rfl

/-- Between two terms no other pair than theirs is delivered. -/
theorem eq_of_mem_solutions {nodes : List Term} {s o : Term}
    (hconfined : (e.searchFor (.term s) path (.term o)).Confined nodes)
    (hok : (e.evaluateCompiled (.term s) path (.term o)).result = .ok ()) {t : Solution}
    (ht : t ∈ (e.evaluateCompiled (.term s) path (.term o)).solutions) : t = ⟨s, o⟩ := by
  let search := e.searchFor (.term s) path (.term o)
  obtain ⟨p, hp⟩ : ∃ p, (search.run [s] 0).result = .ok p := exists_of_bind_eq_ok hok
  have hsolutions : (e.evaluateCompiled (.term s) path (.term o)).solutions =
      (search.run [s] 0).solutions := (bind_of_ok hp).2.trans (List.append_nil _)
  have hcollected : (collect (search.run [s]) 0).result = .ok (search.run [s] 0).solutions := by
    rw [collect, hp]
    rfl
  have hends := (hconfined.ends_collect (hconfined.supplies_closureSearch _)
    (fun a x => Search.silent_closureSearch _ a x) [s]).of_ok hcollected
  obtain ⟨c, hlocated, hhits, rfl⟩ := hends t (hsolutions ▸ ht)
  have hobject : o = c.node := (Search.hits_iff.mp hhits).2
  rw [← List.mem_singleton.mp hlocated.subject, hobject]
  rfl

/-- There is a first solution between two terms exactly when their pair is one. -/
theorem result_contains {path : PathExpr} {c : CompiledPath} {G : Set Triple} {nodes : List Term}
    {s o : Term} (hc : CompiledPath.ofExpr path e.options.optimize = .ok c) (hg : e.graph.Steady)
    (hready : (e.searchFor (.term s) c (.term o)).Ready G nodes)
    (hok : (e.evaluateCompiled (.term s) c (.term o)).result = .ok ()) :
    (e.contains s path o).result =
      .ok (decide (⟨s, o⟩ ∈ (e.evaluateCompiled (.term s) c (.term o)).solutions)) := by
  obtain ⟨hresult, hsame⟩ := evaluateCompiled_early hg hok
  have hpair : (!(e.evaluateCompiled (.term s) c (.term o)).solutions.isEmpty) =
      decide (⟨s, o⟩ ∈ (e.evaluateCompiled (.term s) c (.term o)).solutions) := by
    cases hsolutions : (e.evaluateCompiled (.term s) c (.term o)).solutions with
    | nil => rfl
    | cons t solutions =>
        have ht : t = ⟨s, o⟩ := by
          apply eq_of_mem_solutions hready.confined hok
          rw [hsolutions]
          exact List.mem_cons_self
        rw [ht]
        exact (decide_eq_true List.mem_cons_self).symm
  rw [contains_eq hc, Run.result_any hresult, hsame, hpair]

/-- Over a graph in memory an evaluation that ends without a fault when no search is stopped early
delivers the same solutions in the same order when every search is. So it does not matter whether
the searches of an evaluation between two terms are stopped early to tell whether the path leads
from one to the other: it does if the evaluation delivers their pair. -/
theorem evaluateCompiled_earlyTermination (g : TripleStore) (context : CallContext)
    (options : EvaluationOptions) :
    let late : Evaluator := ⟨g.toService, context, { options with earlyTermination := false }⟩
    let early : Evaluator := ⟨g.toService, context, { options with earlyTermination := true }⟩
    (∀ subject path object, (late.evaluateCompiled subject path object).result = .ok () →
      (early.evaluateCompiled subject path object).result = .ok () ∧
        (early.evaluateCompiled subject path object).solutions =
          (late.evaluateCompiled subject path object).solutions) ∧
    ∀ s path o run, evaluate ⟨g.toService, context, options⟩ (.term s) path (.term o) = .ok run →
      run.result = .ok () →
        (contains ⟨g.toService, context, options⟩ s path o).result =
          .ok (decide (⟨s, o⟩ ∈ run.solutions)) := by
  intro late early
  have hg := g.steady_toService
  constructor
  · intro subject path object hok
    exact evaluateCompiled_early (e := late) hg hok
  · intro s path o run hrun hok
    let e : Evaluator := ⟨g.toService, context, options⟩
    obtain ⟨c, hc, heq⟩ := bind_eq_ok_iff.mp hrun
    obtain rfl := pure_eq_ok_iff.mp heq
    obtain ⟨t, _, htree⟩ := bind_eq_ok_iff.mp hc
    have hready := ready_searchFor g context options htree (.term s) (.term o)
    exact result_contains (e := e) hc hg hready hok

/-- A path that allows the empty walk between equal ends, from many origins, and a pair of terms
that it joins over a cycle. -/
theorem evaluateCompiled_earlyTermination_closure_over_cycle :
    let path : PathExpr := .zeroOrMore (.sequence (.iri ⟨"p"⟩) (.zeroOrOne (.reverse (.iri ⟨"q"⟩))))
    let a : Term := .iri ⟨"a"⟩
    let b : Term := .iri ⟨"b"⟩
    let ts : List Triple :=
      [⟨.iri ⟨"a"⟩, ⟨"p"⟩, b⟩, ⟨.iri ⟨"b"⟩, ⟨"p"⟩, a⟩, ⟨.iri ⟨"c"⟩, ⟨"q"⟩, b⟩]
    let g := TripleStore.ofTriples ts
    let late : Evaluator := ⟨g.toService, .default, { earlyTermination := false }⟩
    let early : Evaluator := ⟨g.toService, .default, { earlyTermination := true }⟩
    let x : Endpoint := .var ⟨"x"⟩
    (∃ c, CompiledPath.ofExpr path true = .ok c ∧ (late.evaluateCompiled x c x).result = .ok () ∧
      (early.evaluateCompiled x c x).result = .ok () ∧
        (early.evaluateCompiled x c x).solutions = (late.evaluateCompiled x c x).solutions) ∧
    ∃ run, late.evaluate (.term a) path (.term b) = .ok run ∧ run.result = .ok () ∧
      (late.contains a path b).result = .ok (decide (⟨a, b⟩ ∈ run.solutions)) := by
  intro path a b ts g late early x
  obtain ⟨c, hc⟩ : ∃ c, CompiledPath.ofExpr path true = .ok c :=
    CompiledPath.exists_ofExpr (by decide) (by decide) true
  have hnesting : path.closureDepth ≤ 32 := by decide
  have hyields : ∀ subject object, (late.evaluation subject c object).Yields _ :=
    yields_evaluation (e := late) g.serves rfl rfl hnesting hc
  obtain ⟨hsame, hcontains⟩ :=
    evaluateCompiled_earlyTermination g .default { earlyTermination := false }
  obtain ⟨_, hanywhere, _⟩ := hyields x x 0
  obtain ⟨_, hbetween, _⟩ := hyields (.term a) (.term b) 0
  have hrun : late.evaluate (.term a) path (.term b) =
      .ok (late.evaluateCompiled (.term a) c (.term b)) := by
    have hcompiled : CompiledPath.ofExpr path late.options.optimize = .ok c := hc
    rw [evaluate, hcompiled]
    rfl
  exact ⟨⟨c, hc, hanywhere, hsame x c x hanywhere⟩, _, hrun, hbetween,
    hcontains a path b _ hrun hbetween⟩

end Evaluator

end PropertyPath
