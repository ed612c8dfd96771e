import PropertyPath.Proofs.Search.Faults

/-!
# Limits cut an answer and never change it

Over a graph in memory nothing but limits stops an evaluation. So it delivers all that it would
deliver under looser limits, or a beginning of that, with the limit that it has met at the end. A
limit is met by no evaluation that has no need of more: closures are not nested deeper than in the
automaton, and in each search there are no more configurations than pairs of nodes and states, for
every origin.
-/
namespace PropertyPath
open Evaluation

/-- Options that differ in the limits on nesting and visits only, and allow no less. -/
structure EvaluationOptions.Loosened (o o' : EvaluationOptions) : Prop where
  rest : o' = { o with maxNestingDepth := o'.maxNestingDepth, maxVisited := o'.maxVisited }
  nesting : o.maxNestingDepth ≤ o'.maxNestingDepth
  visited : NoTighter o.maxVisited o'.maxVisited

/-- A run that ends with a fault is read as its solutions and the fault. -/
theorem Run.stream_of_error {α : Type} {r : Run α} {halt : Halt} (h : r.result = .error halt) :
    r.stream = r.solutions.map .ok ++ [.error halt] := by
  rw [stream, h]

namespace Evaluator
variable {e : Evaluator} {o o' : EvaluationOptions}
  {subject object : Endpoint} {path : CompiledPath}

/-- Any reason will do to stop under the tighter limits. -/
theorem outlasts_options (g : GraphService) (context : CallContext) (ho : o.Loosened o') :
    Outlasts (fun _ => True) Eq (evaluation ⟨g, context, o⟩ subject path object)
      (evaluation ⟨g, context, o'⟩ subject path object) := by
  let e : Evaluator := ⟨g, context, o⟩
  let l : Limits := ⟨g.nodeBound, o'.maxNestingDepth, o'.maxVisited⟩
  have hl : e.limits.Loosens (fun _ => True) l :=
    { nodes := Nat.le_refl _
      nesting := ho.nesting
      visited := ho.visited
      givenUp := fun _ => trivial
      tooDeep := fun _ => trivial
      exceeded := fun _ _ _ => trivial }
  have hrelax : Evaluator.mk g context o' = e.relax l :=
    congrArg (Evaluator.mk g context) ho.rest
  rw [hrelax]
  exact outlasts_evaluation hl

/-- Over a graph in memory, an evaluation that no limit stops delivers the same under looser limits,
and otherwise a beginning of that, and then the limit that it has met. Neither limit is met when it
is as large as the automaton and the graph can need. -/
theorem evaluateCompiled_loosened (g : TripleStore) (context : CallContext) (ho : o.Loosened o')
    {optimize : Bool} (hpath : ∃ t, CompiledPath.ofTree t optimize = .ok path)
    (subject object : Endpoint) :
    let run := evaluateCompiled ⟨g.toService, context, o⟩ subject path object
    let looser := evaluateCompiled ⟨g.toService, context, o'⟩ subject path object
    let a := (searchFor ⟨g.toService, context, o⟩ subject path object).automaton
    (run.result = .ok () → looser.result = .ok () ∧ looser.solutions = run.solutions) ∧
    (run.result ≠ .ok () → run.solutions <+: looser.solutions ∧
      ∃ fault, run.stream = run.solutions.map .ok ++ [.error (.fault fault)] ∧
        (fault = .nestingTooDeep o.maxNestingDepth ∨
          ∃ limit, o.maxVisited = some limit ∧ fault = .visitLimitExceeded limit)) ∧
    (a.nesting ≤ o.maxNestingDepth →
      ∀ limit, run.result ≠ .error (.fault (.nestingTooDeep limit))) ∧
    ((∀ limit, o.maxVisited = some limit →
        (g.nodes.length + 1) * (g.nodes.length + 1) * a.breadth ≤ limit) →
      ∀ limit, run.result ≠ .error (.fault (.visitLimitExceeded limit))) := by
  intro run looser a
  obtain ⟨t, ht⟩ := hpath
  have houtlasts : Run.Outlasts (fun _ => True) Eq run looser :=
    outlasts_options g.toService context ho 0
  have hlimited : ∀ stop, run.result = .error stop →
      (o.maxNestingDepth < a.nesting ∧ stop = .fault (.nestingTooDeep o.maxNestingDepth)) ∨
        ∃ limit, o.maxVisited = some limit ∧
          limit < (g.nodes.length + 1) * (g.nodes.length + 1) * a.breadth ∧
            stop = .fault (.visitLimitExceeded limit) := by
    intro stop hstop
    have hends := (ends_evaluation_toService g context o ht subject object).of_error hstop
    rw [Search.Limited, options_searchFor] at hends
    exact hends
  refine ⟨?_, ?_, ?_, ?_⟩
  · intro hok
    rcases houtlasts.eq_or_prefix with heq | ⟨stop, _, hstop, _⟩
    · exact ⟨heq ▸ hok, congrArg Run.solutions heq⟩
    · rw [hstop] at hok
      cases hok
  · intro herror
    have hbegins : run.solutions <+: looser.solutions := by
      rcases houtlasts.eq_or_prefix with heq | ⟨_, _, _, hbegins⟩
      · rw [heq]
      · exact hbegins
    refine ⟨hbegins, ?_⟩
    cases hresult : run.result with
    | ok _ => exact absurd hresult herror
    | error stop =>
        rcases hlimited stop hresult with ⟨_, rfl⟩ | ⟨limit, hlimit, _, rfl⟩
        · exact ⟨_, Run.stream_of_error hresult, Or.inl rfl⟩
        · exact ⟨_, Run.stream_of_error hresult, Or.inr ⟨limit, hlimit, rfl⟩⟩
  · intro hnesting limit hresult
    rcases hlimited _ hresult with ⟨hlt, _⟩ | ⟨_, _, _, hstop⟩
    · exact absurd hlt (Nat.not_lt_of_ge hnesting)
    · cases hstop
  · intro hroom limit hresult
    rcases hlimited _ hresult with ⟨_, hstop⟩ | ⟨limit', hlimit, hlt, _⟩
    · cases hstop
    · exact absurd hlt (Nat.not_lt_of_ge (hroom limit' hlimit))

/-- A limit on the visits that is lifted while more closures may be nested, over a cycle. -/
theorem evaluateCompiled_loosened_closures_over_cycle :
    let p : PathTree := .property (.forward ⟨"p"⟩)
    let t : PathTree := .closure .zeroOrMore (.sequence [p, .closure .oneOrMore (.inverse p)])
    let ts : List Triple := [⟨.iri ⟨"a"⟩, ⟨"p"⟩, .iri ⟨"b"⟩⟩, ⟨.iri ⟨"b"⟩, ⟨"p"⟩, .iri ⟨"a"⟩⟩]
    let g := TripleStore.ofTriples ts
    let o : EvaluationOptions := { maxNestingDepth := 1, maxVisited := some 3 }
    let o' : EvaluationOptions := { maxNestingDepth := 2 }
    let subject : Endpoint := .var ⟨"x"⟩
    let object : Endpoint := .var ⟨"y"⟩
    o.Loosened o' ∧ ∃ path, CompiledPath.ofTree t true = .ok path ∧
      let run := evaluateCompiled ⟨g.toService, .default, o⟩ subject path object
      let looser := evaluateCompiled ⟨g.toService, .default, o'⟩ subject path object
      let a := (searchFor ⟨g.toService, .default, o⟩ subject path object).automaton
      (run.result = .ok () → looser.result = .ok () ∧ looser.solutions = run.solutions) ∧
      (run.result ≠ .ok () → run.solutions <+: looser.solutions ∧
        ∃ fault, run.stream = run.solutions.map .ok ++ [.error (.fault fault)] ∧
          (fault = .nestingTooDeep o.maxNestingDepth ∨
            ∃ limit, o.maxVisited = some limit ∧ fault = .visitLimitExceeded limit)) ∧
      (a.nesting ≤ o.maxNestingDepth →
        ∀ limit, run.result ≠ .error (.fault (.nestingTooDeep limit))) ∧
      ((∀ limit, o.maxVisited = some limit →
          (g.nodes.length + 1) * (g.nodes.length + 1) * a.breadth ≤ limit) →
        ∀ limit, run.result ≠ .error (.fault (.visitLimitExceeded limit))) := by
  intro p t ts g o o' subject object
  have ho : o.Loosened o' := ⟨rfl, by decide, nofun⟩
  obtain ⟨path, hpath⟩ : ∃ path, CompiledPath.ofTree t true = .ok path :=
    CompiledPath.exists_ofTree rfl rfl true
  exact ⟨ho, path, hpath, evaluateCompiled_loosened g .default ho ⟨t, hpath⟩ subject object⟩

end Evaluator

end PropertyPath
