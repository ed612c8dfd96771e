import PropertyPath.Search.Evaluator

/-!
# The parts of an evaluation

An evaluation finds its origins, searches from them, and delivers the empty walks last. Which search
that is, and what comes before and after it, depends on the ends of the pattern.
-/
namespace PropertyPath.Evaluator

/-- The search for a pattern. -/
def searchFor (e : Evaluator) (subject : Endpoint) (path : CompiledPath)
    (object : Endpoint) : Search :=
  match subject, object with
  | .term _, .term o => e.search path.forward (.term o) false
  | .term _, .var _ => e.search path.forward .any false
  | .var _, .term _ => e.search path.backward .any true
  | .var x, .var y => e.search path.forward (if x = y then .origin else .any) false

section searchFor
variable (e : Evaluator) (subject : Endpoint) (path : CompiledPath) (object : Endpoint)

theorem graph_searchFor : (e.searchFor subject path object).graph = e.graph := by
  cases subject <;> cases object <;> rfl

theorem context_searchFor : (e.searchFor subject path object).context = e.context := by
  cases subject <;> cases object <;> rfl

theorem options_searchFor : (e.searchFor subject path object).options = e.options := by
  cases subject <;> cases object <;> rfl

/-- A path is followed forward or backward. -/
theorem automaton_searchFor : (e.searchFor subject path object).automaton = path.forward ∨
    (e.searchFor subject path object).automaton = path.backward := by
  cases subject <;> cases object
  case var.term => exact Or.inr rfl
  all_goals exact Or.inl rfl

end searchFor

/-- Where the search begins: at the end that is given, or else wherever the path may begin. -/
def originsFor (e : Evaluator) (subject : Endpoint) (path : CompiledPath) (object : Endpoint) :
    Evaluation (List Term) :=
  match subject, object with
  | .term s, _ => return [s]
  | .var _, .term o => return [o]
  | .var _, .var _ => (e.searchFor subject path object).probe

/-- What is delivered after the search. -/
def closing (e : Evaluator) (subject : Endpoint) (path : CompiledPath) (object : Endpoint)
    (p : Progress) : Evaluation Unit :=
  match subject, object with
  | .var _, .var _ =>
      let s := e.searchFor subject path object
      if s.automaton.isNullable then s.reflexive p else return
  | _, _ => return

theorem evaluation_eq (e : Evaluator) (subject : Endpoint)
    (path : CompiledPath) (object : Endpoint) :
    e.evaluation subject path object = (do
      let origins ← e.originsFor subject path object
      let p ← (e.searchFor subject path object).run origins
      e.closing subject path object p) := by
  cases subject with
  | term s =>
      have horigins : e.originsFor (.term s) path object = Pure.pure [s] := rfl
      rw [horigins, Evaluation.pure_bind]
      cases object with
      | term o => rfl
      | var y => rfl
  | var x =>
      cases object with
      | term o =>
          have horigins : e.originsFor (.var x) path (.term o) = Pure.pure [o] := rfl
          rw [horigins, Evaluation.pure_bind]
          rfl
      | var y => rfl

end PropertyPath.Evaluator
