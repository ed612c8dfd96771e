import PropertyPath.Proofs.Search.Relaxed

/-!
# A run that is given up goes on under a greater bound

An evaluation is given up when a graph answers with more nodes than it has announced. Had it
announced more, the run would have been the same, or it would have gone on from where it is given
up. So the solutions that are delivered under greater and greater bounds are longer and longer
beginnings of one sequence, and no pair comes twice in any of them.
-/
namespace PropertyPath
open Evaluation

namespace Evaluator
variable {e : Evaluator} {bound : Nat} {subject object : Endpoint} {path : CompiledPath}

/-- The same evaluator, when the graph announces so many nodes. -/
def announcing (e : Evaluator) (bound : Nat) : Evaluator :=
  { e with graph := e.graph.announcing bound }

theorem outlasts_announcing (hbound : e.graph.nodeBound ≤ bound) :
    Outlasts (· = .givenUp) Eq (e.evaluation subject path object)
      ((e.announcing bound).evaluation subject path object) := by
  let l : Limits := ⟨bound, e.options.maxNestingDepth, e.options.maxVisited⟩
  have hl : e.limits.Loosens (· = .givenUp) l :=
    { nodes := hbound
      nesting := Nat.le_refl _
      visited := NoTighter.refl _
      givenUp := fun _ => rfl
      tooDeep := fun hlt => absurd hlt (Nat.lt_irrefl _)
      exceeded := fun _ hlimit hne => absurd hlimit hne }
  have hrelax : e.announcing bound = e.relax l := rfl
  rw [hrelax]
  exact outlasts_evaluation hl

/-- Whatever the graph answers, now and later, and wherever it fails, and whatever the options are,
no pair is delivered twice, and a run that is given up is the beginning of what it would be if the
graph announced more nodes. -/
theorem nodup_solutions_evaluateCompiled (e : Evaluator) (subject : Endpoint) (path : CompiledPath)
    (object : Endpoint) :
    let run := e.evaluateCompiled subject path object
    run.solutions.Nodup ∧ ∀ more : Nat,
      let longer := (e.announcing (e.graph.nodeBound + more)).evaluateCompiled subject path object
      longer = run ∨ run.result = .error .givenUp ∧ run.solutions <+: longer.solutions := by
  intro run
  refine ⟨e.nodup_evaluation subject path object 0, ?_⟩
  intro more longer
  have houtlasts : Run.Outlasts (· = .givenUp) Eq run longer :=
    outlasts_announcing (Nat.le_add_right _ more) 0
  rcases houtlasts.eq_or_prefix with heq | ⟨stop, rfl, hresult, hbegins⟩
  · exact Or.inl heq
  · exact Or.inr ⟨hresult, hbegins⟩

end Evaluator

end PropertyPath
