import PropertyPath.Proofs.Search.Composed
import PropertyPath.Proofs.Search.Yields

/-!
# Evaluations that take the place of others

An evaluation may take the place of another one when it ends with a value wherever the other one
does, whatever calls have been made before it, and delivers the same solutions in the same order.
That is known of parts, and so it is known of what is put together of them. A graph that answers a
call in the same way every time makes an evaluation as good as itself at any other time.
-/
namespace PropertyPath

/-- A call is answered in the same way however many calls have been made before it. -/
def GraphService.Steady (g : GraphService) : Prop :=
  ∀ j k call context, g.answer j call context = g.answer k call context

theorem TripleStore.steady_toService (g : TripleStore) : g.toService.Steady := fun _ _ _ _ => rfl

namespace Evaluation
variable {α β γ δ : Type} {m : Evaluation α} {m' : Evaluation β} {f : α → Evaluation γ}
  {f' : β → Evaluation δ} {R : α → β → Prop}

/-- Wherever `m` ends with a value, `m'` delivers the same solutions and ends with a related
value. -/
def Refines (m : Evaluation α) (m' : Evaluation β) (R : α → β → Prop) : Prop :=
  ∀ k a, (m k).result = .ok a → ∀ k', ∃ b, (m' k').result = .ok b ∧
    (m' k').solutions = (m k).solutions ∧ R a b

section bind
variable {k : Nat} {a : α} {c : γ}

theorem bind_of_ok (h : (m k).result = .ok a) :
    ((m >>= f) k).result = (f a (k + Run.callCount (m k).events)).result ∧
      ((m >>= f) k).solutions =
        (m k).solutions ++ (f a (k + Run.callCount (m k).events)).solutions := by
  cases hrun : m k with
  | mk events result =>
      rw [hrun] at h
      cases h
      rw [bind_run_of_ok hrun, Run.solutions, List.filterMap_append]
      exact ⟨rfl, rfl⟩

theorem exists_of_bind_eq_ok (h : ((m >>= f) k).result = .ok c) : ∃ a, (m k).result = .ok a := by
  cases hrun : m k with
  | mk events result =>
      cases result with
      | error stop =>
          rw [bind_run_of_error hrun] at h
          cases h
      | ok a => exact ⟨a, rfl⟩

end bind

theorem Refines.bind {S : γ → δ → Prop} (h : m.Refines m' R)
    (hf : ∀ a b, R a b → (f a).Refines (f' b) S) : (m >>= f).Refines (m' >>= f') S := by
  intro k c hok k'
  obtain ⟨a, ha⟩ := exists_of_bind_eq_ok hok
  obtain ⟨hresult, hsolutions⟩ := bind_of_ok (f := f) ha
  obtain ⟨b, hb, hsame, hab⟩ := h k a ha k'
  obtain ⟨hresult', hsolutions'⟩ := bind_of_ok (f := f') hb
  rw [hresult] at hok
  obtain ⟨d, hd, hrest, hcd⟩ := hf a b hab _ c hok (k' + Run.callCount (m' k').events)
  refine ⟨d, hresult'.trans hd, ?_, hcd⟩
  rw [hsolutions', hsolutions, hsame, hrest]

theorem Refines.bind_same {m' : Evaluation α} {f' : α → Evaluation δ} {S : γ → δ → Prop}
    (h : m.Refines m' Eq) (hf : ∀ a, (f a).Refines (f' a) S) : (m >>= f).Refines (m' >>= f') S := by
  refine h.bind ?_
  intro a _ heq
  subst heq
  exact hf a

/-- What delivers nothing may be replaced by what ends with a related value and delivers nothing. -/
theorem refines_of_finishes {P : α → Prop}
    (h : m.Finishes fun solutions r => ∀ a, r = .ok a → solutions = [] ∧ P a)
    (h' : ∀ a, P a → m'.Returns (R a)) : m.Refines m' R := by
  intro k a ha k'
  obtain ⟨hsolutions, hP⟩ := h k a ha
  obtain ⟨b, hb, hsolutions', hab⟩ := h' a hP k'
  exact ⟨b, hb, hsolutions'.trans hsolutions.symm, hab⟩

/-- What comes first and delivers nothing may be left out. -/
theorem Silent.refines_bind {E : Halt → Prop} {P : α → Prop} {m' : Evaluation δ} {S : γ → δ → Prop}
    (h : m.Silent) (hends : m.Ends E P) (hf : ∀ a, P a → (f a).Refines m' S) :
    (m >>= f).Refines m' S := by
  intro k c hok k'
  obtain ⟨a, ha⟩ := exists_of_bind_eq_ok hok
  obtain ⟨hresult, hsolutions⟩ := bind_of_ok (f := f) ha
  rw [hresult] at hok
  obtain ⟨d, hd, hrest, hcd⟩ := hf a (hends.of_ok ha) _ c hok k'
  refine ⟨d, hd, ?_, hcd⟩
  rw [hsolutions, h k, List.nil_append, hrest]

theorem refines_pure {a : α} {b : β} (h : R a b) :
    (Pure.pure a : Evaluation α).Refines (Pure.pure b) R := by
  intro _ c hc _
  cases hc
  exact ⟨b, rfl, rfl, h⟩

theorem refines_fail (fault : EvaluationFault) : (fail fault : Evaluation α).Refines m' R := by
  intro _ a ha
  cases ha

theorem refines_log (events : List Event) : (log events).Refines (log events) Eq := by
  intro _ _ _ _
  exact ⟨_, rfl, rfl, rfl⟩

theorem refines_ofExcept {r : Except EvaluationFault α} {r' : Except EvaluationFault β}
    (h : ∀ a, r = .ok a → ∃ b, r' = .ok b ∧ R a b) : (ofExcept r).Refines (ofExcept r') R := by
  cases r with
  | error fault => exact refines_fail fault
  | ok a =>
      obtain ⟨b, rfl, hab⟩ := h a rfl
      exact refines_pure hab

theorem refines_ask {g : GraphService} (hg : g.Steady) (context : CallContext) (call : GraphCall) :
    (ask g context call).Refines (ask g context call) Eq := by
  intro k bs hbs k'
  rw [ask, hg k k'] at hbs
  exact ⟨bs, hbs, rfl, rfl⟩

/-- What is collected is the same, and it is not delivered. -/
theorem Refines.collect (h : m.Refines m' R) : (collect m).Refines (collect m') Eq := by
  intro k solutions hok k'
  rw [Evaluation.collect] at hok
  cases hresult : (m k).result with
  | error stop =>
      rw [hresult] at hok
      cases hok
  | ok a =>
      obtain ⟨b, hb, hsolutions, _⟩ := h k a hresult k'
      rw [hresult] at hok
      cases hok
      refine ⟨(m k).solutions, ?_, ?_, rfl⟩
      · rw [Evaluation.collect, hb, hsolutions]
        rfl
      · rw [silent_collect m' k', silent_collect m k]

end Evaluation

section hops
open Evaluation
variable {g : GraphService} {context : CallContext}

theorem composes_refines (hg : g.Steady) (context : CallContext) :
    Composes g context fun _ m => m.Refines m Eq where
  pure _ := refines_pure rfl
  fail fault := refines_fail fault
  ask := refines_ask hg context
  bind := Refines.bind_same

theorem refines_joinedPairs (hg : g.Steady) (start : Endpoint)
    (branches : List (List Instruction)) :
    (joinedPairs g context start branches).Refines (joinedPairs g context start branches) Eq :=
  (composes_refines hg context).joinedPairs start branches

end hops

end PropertyPath
