import PropertyPath.Proofs.Search.Parts
import PropertyPath.Proofs.Search.Yields

/-!
# What evaluations are composed of

Hops call the graph, and nothing else that they do has an effect. So what is true of every call and
of what ends at once, and stays true when one evaluation follows another, is true of all hops, and
of the search for origins.
-/
namespace PropertyPath
open Evaluation

/-- What evaluations with such calls have in common because it is kept when they follow each
other. -/
structure Composes (g : GraphService) (context : CallContext)
    (J : ∀ α : Type, Evaluation α → Prop) :
    Prop where
  pure : ∀ {α : Type} (a : α), J α (Pure.pure a)
  fail : ∀ {α : Type} (fault : EvaluationFault), J α (fail fault)
  ask : ∀ call, J (List Bindings) (ask g context call)
  bind : ∀ {α β : Type} {m : Evaluation α} {f : α → Evaluation β}, J α m → (∀ a, J β (f a)) →
    J β (m >>= f)

namespace Composes
variable {g : GraphService} {context : CallContext} {J : ∀ α : Type, Evaluation α → Prop}

theorem ofExcept (h : Composes g context J) {α : Type} (r : Except EvaluationFault α) :
    J α (ofExcept r) := by
  cases r with
  | ok a => exact h.pure a
  | error fault => exact h.fail fault

theorem execute (h : Composes g context J) (hop : Hop) : J _ (hop.execute g context) := by
  unfold Hop.execute
  split
  · split
    · exact h.pure _
    · exact h.fail _
  · refine h.bind (h.ask _) fun bs => ?_
    exact h.bind (h.ofExcept _) fun pairs => h.pure _

theorem pairsByChain (h : Composes g context J) (start : Endpoint)
    (branches : List (List Instruction)) : J _ (pairsByChain g context start branches) := by
  induction branches with
  | nil => exact h.pure _
  | cons is branches ih =>
      rw [PropertyPath.pairsByChain]
      exact h.bind (h.execute _) fun pairs => h.bind ih fun more => h.pure _

theorem joinedPairs (h : Composes g context J) (start : Endpoint)
    (branches : List (List Instruction)) : J _ (joinedPairs g context start branches) :=
  h.bind (h.pairsByChain start branches) fun _ => h.pure _

theorem probe {s : Search} (h : Composes s.graph s.context J) : J _ s.probe := by
  have hall : ∀ openings, J _ (s.probeAll openings) := by
    intro openings
    induction openings with
    | nil => exact h.pure _
    | cons branches openings ih =>
        rw [Search.probeAll]
        exact h.bind (h.joinedPairs _ _) fun _ => h.bind ih fun _ => h.pure _
  exact h.bind (hall _) fun _ => h.pure _

theorem originsFor {e : Evaluator} (h : Composes e.graph e.context J) (subject : Endpoint)
    (path : CompiledPath) (object : Endpoint) : J _ (e.originsFor subject path object) := by
  cases subject with
  | term x => exact h.pure _
  | var v =>
      cases object with
      | term y => exact h.pure _
      | var w => exact probe (s := e.searchFor (.var v) path (.var w)) h

end Composes

section withholds
variable {τ : Type} {pick : Event → Option τ} (hcall : ∀ call, pick (.call call) = none)
include hcall

/-- Hops tell of their calls and of nothing else. -/
theorem composes_withholds (g : GraphService) (context : CallContext) :
    Composes g context fun _ m => m.Withholds pick where
  pure := withholds_pure
  fail := withholds_fail
  ask := withholds_ask hcall g context
  bind := Withholds.bind

/-- After the search there are calls and solutions. -/
theorem withholds_closing (hsolution : ∀ t, pick (.solution t) = none) (e : Evaluator)
    (subject : Endpoint) (path : CompiledPath) (object : Endpoint) (p : Progress) :
    (e.closing subject path object p).Withholds pick := by
  unfold Evaluator.closing
  split
  · dsimp only
    split
    · exact (withholds_ask hcall _ _ _).bind fun _ => withholds_deliver hsolution _
    · exact withholds_pure _
  · exact withholds_pure _

end withholds

end PropertyPath
