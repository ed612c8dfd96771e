import PropertyPath.Proofs.Search.Alike
import PropertyPath.Proofs.Search.Announced
import PropertyPath.Proofs.Search.Depth

/-!
# The order of answers makes no difference

The order in which a graph answers decides which run comes to a configuration first, but not at
which depth it is put in the queue, nor what is reached in the end. So evaluations over graphs that
answer alike deliver the same solutions when they end well. And when no origin is stopped early,
then where one of them ends well everything behind the transitions that are to be followed has been
found and there was room for all that can be reached, so the other one ends well too.
-/
namespace PropertyPath
open Evaluation

namespace Search
variable {s : Search} {close : ClosureSearch} {g : GraphService}
  {context : CallContext} {allowed : Nat}
  {hop : List (List Instruction) → Term → Term → Prop} {l : Label} {x : Term} {ys : List Term}
  {stop : Halt} {origins origins' : List Term}

/-- The search for the nodes behind a label. -/
def behind (s : Search) (close : ClosureSearch) (l : Label) (x : Term) : Evaluation (List Term) :=
  match l with
  | .closure _ a => close a x
  | l => landings s.graph s.context x (l.branches?.getD [])

theorem behind_of_branches {branches : List (List Instruction)} (h : l.branches? = some branches) :
    s.behind close l x = landings s.graph s.context x branches := by
  cases l with
  | closure kind a => cases h
  | _ =>
      cases h
      rfl

/-- At some time a search behind the label ends with these nodes. -/
def Found (s : Search) (close : ClosureSearch) (l : Label) (x : Term) (ys : List Term) : Prop :=
  ∃ k, (s.behind close l x k).result = .ok ys

/-- At some time a search behind the label stops for this reason. -/
def Missed (s : Search) (close : ClosureSearch) (l : Label) (x : Term) (stop : Halt) : Prop :=
  ∃ k, (s.behind close l x k).result = .error stop

theorem provides_behind (s : Search) (close : ClosureSearch) :
    s.Provides close (s.Missed close) (s.Found close) where
  branches t _ branches hbranches x k := by
    cases hresult : (joinedPairs s.graph s.context (.term x) branches k).result with
    | error stop =>
        refine ⟨k, ?_⟩
        rw [behind_of_branches hbranches]
        exact result_bind_of_error hresult
    | ok pairs =>
        refine ⟨k, ?_⟩
        rw [behind_of_branches hbranches]
        exact (bind_of_ok hresult).1
  closures t _ kind a hlabel x k := by
    rw [hlabel]
    cases hresult : (close a x k).result with
    | error stop => exact ⟨k, hresult⟩
    | ok ys => exact ⟨k, hresult⟩

/-- Chains lead to the same nodes whenever they are followed. -/
def Lands (s : Search) (hop : List (List Instruction) → Term → Term → Prop) : Prop :=
  ∀ x branches, (landings s.graph s.context x branches).Ends (fun _ => True) fun ys =>
    ∀ y, y ∈ ys ↔ hop branches x y

/-- What is found behind a label are the nodes that a step within the limit passes to. -/
theorem Lands.passes (hs : s.Lands hop) (allowed : Nat) :
    s.Passes hop (s.Found (s.closureSearch allowed)) := by
  intro l x ys hfound y
  obtain ⟨k, hk⟩ := hfound
  cases hbranches : l.branches? with
  | some branches =>
      rw [behind_of_branches hbranches] at hk
      rw [Label.within_of_branches hbranches]
      exact (hs x branches).of_ok hk y
  | none =>
      obtain ⟨kind, a, rfl⟩ := Label.exists_closure_of_branches hbranches
      cases allowed with
      | zero => cases hk
      | succ allowed =>
          have hprovides := provides_behind (s.nested a) (s.closureSearch allowed)
          rw [Label.within_closure]
          exact ((ends_closureSearch_succ hprovides (Lands.passes hs allowed) x).of_ok hk).1 y

section alike
variable (halike : s.graph.Alike s.context g context)

theorem Stalls.eq_givenUp {P : Label → Term → List Term → Prop} {E : Label → Term → Halt → Prop}
    (hnever : ∀ l x ys stop, P l x ys → E l x stop → stop = .givenUp)
    (hcomes : ∀ l y, s.Comes hop origins l y → ∃ ys, P l y ys)
    (hroom : ∀ limit, s.options.maxVisited = some limit → ¬ s.Crowded hop origins limit)
    (hsub : origins' ⊆ origins) (h : (s.asking g context).Stalls hop E origins' stop) :
    stop = .givenUp := by
  rcases h with ⟨l, y, ⟨x, hx, hcome⟩, hstop⟩ | ⟨limit, _, hlimit, keys, hnodup, hreachable, hlt⟩
  · obtain ⟨ys, hys⟩ := hcomes l y ⟨x, hsub hx, hcome⟩
    exact hnever l y ys stop hys hstop
  · refine absurd ⟨keys, hnodup, ?_, hlt⟩ (hroom limit hlimit)
    intro key hkey
    obtain ⟨hx, hreach⟩ := hreachable key hkey
    exact ⟨hsub hx, hreach⟩

variable (hs : s.Lands hop) (hs' : (s.asking g context).Lands hop)
include halike hs hs'

/-- What is found behind a label in one graph is not missed in the other. -/
theorem eq_givenUp_of_missed (allowed : Nat) (l : Label) (x : Term) (ys : List Term) (stop : Halt)
    (hfound : s.Found (s.closureSearch allowed) l x ys)
    (hmissed : (s.asking g context).Missed ((s.asking g context).closureSearch allowed) l x stop) :
    stop = .givenUp := by
  obtain ⟨k, hk⟩ := hfound
  obtain ⟨j, hj⟩ := hmissed
  cases hbranches : l.branches? with
  | some branches =>
      rw [behind_of_branches hbranches] at hk hj
      have hbacked := backs_landings (E := fun _ => False) halike x branches k ys hk
      exact (hbacked.of_error hj).elim
  | none =>
      obtain ⟨kind, a, rfl⟩ := Label.exists_closure_of_branches hbranches
      cases allowed with
      | zero => cases hk
      | succ allowed =>
          have hprovides := provides_behind (s.nested a) (s.closureSearch allowed)
          have hprovides' := provides_behind ((s.asking g context).nested a)
            ((s.asking g context).closureSearch allowed)
          obtain ⟨_, hcomes, hroom⟩ :=
            (ends_closureSearch_succ hprovides (hs.passes allowed) x).of_ok hk
          rcases (ends_closureSearch_succ hprovides' (hs'.passes allowed) x).of_error hj with
            hgivenUp | hstalls
          · exact hgivenUp
          · exact Stalls.eq_givenUp (s := s.nested a) (eq_givenUp_of_missed allowed) hcomes hroom
              (List.Subset.refl _) hstalls

/-- Where a search that stops no origin ends well in one graph, it does so in the other. -/
theorem backs_run (hgoes : ∀ c, s.stopsAt c = false) (hsame : SameElements origins origins') :
    (s.run origins).Backs ((s.asking g context).run origins') (· = .givenUp) fun _ _ => True := by
  intro k p hp j
  let allowed := s.options.maxNestingDepth
  have hconcludes := finishes_searchFrom_levels (provides_behind s (s.closureSearch allowed))
    (hs.passes allowed) (fun a x => silent_closureSearch allowed a x) origins k
  change (s.searchFrom (s.closureSearch allowed) origins s.start k).result = .ok p at hp
  rw [hp] at hconcludes
  obtain ⟨⟨last, hlast, _⟩, _⟩ := hconcludes
  obtain ⟨hcomes, hroom⟩ := hlast.complete (hs.passes allowed) hgoes
  have hconcludes' := finishes_searchFrom_levels
    (provides_behind (s.asking g context) ((s.asking g context).closureSearch allowed))
    (hs'.passes allowed) (fun a x => silent_closureSearch allowed a x) origins' j
  cases hresult : ((s.asking g context).run origins' j).result with
  | ok p' => trivial
  | error stop =>
      change ((s.asking g context).searchFrom ((s.asking g context).closureSearch allowed) origins'
        (s.asking g context).start j).result = .error stop at hresult
      rw [hresult] at hconcludes'
      rcases hconcludes' with hgivenUp | hstalls
      · exact hgivenUp
      · exact Stalls.eq_givenUp (eq_givenUp_of_missed halike hs hs' allowed) hcomes hroom
          (fun x hx => (hsame x).mpr hx) hstalls

end alike

/-- A search that ends well has delivered the pairs that runs within the limit lead to. -/
theorem Lands.finishes_run (hs : s.Lands hop) (origins : List Term) :
    (s.run origins).Finishes fun solutions r => ∀ p, r = .ok p →
      (∀ x y, (x, y) ∈ p.visits.delivered ↔ x ∈ origins ∧ s.Meets hop x y) ∧
      ∀ t, t ∈ solutions ↔ ∃ pair ∈ p.visits.delivered, s.told pair = t := by
  have hpasses := hs.passes s.options.maxNestingDepth
  refine (finishes_searchFrom_levels (provides_behind s _) hpasses
    (fun a x => silent_closureSearch _ a x) origins).mono ?_
  rintro solutions _ hr p rfl
  obtain ⟨⟨last, hlast, rfl⟩, htells⟩ := hr
  exact ⟨fun x y => hlast.mem_delivered hpasses, htells⟩

theorem reflexive_eq (s : Search) (p : Progress) : s.reflexive p = (do
    let xs ← s.everyNode
    .deliver (p.visits.deliverReflexive xs).2) := by
  rw [reflexive, everyNode, bind_assoc]
  rfl

/-- The solutions that are to be found from the origins, and those of the given nodes with
themselves. -/
def Selected (s : Search) (hop : List (List Instruction) → Term → Term → Prop)
    (origins nodes : Term → Prop) (t : Solution) : Prop :=
  (∃ x, origins x ∧ ∃ y, s.Meets hop x y ∧ s.told (x, y) = t) ∨
  (t.subject = t.object ∧ nodes t.subject)

end Search

namespace Evaluator
variable {e : Evaluator} {g : GraphService} {context : CallContext} {subject object : Endpoint}
  {path : CompiledPath} {hop : List (List Instruction) → Term → Term → Prop} {E : Halt → Prop}

/-- The same evaluator in another graph. -/
def asking (e : Evaluator) (g : GraphService) (context : CallContext) : Evaluator :=
  { e with graph := g, context }

theorem searchFor_asking (e : Evaluator) (g : GraphService) (context : CallContext) :
    (e.asking g context).searchFor subject path object =
      (e.searchFor subject path object).asking g context := by
  cases subject <;> cases object <;> rfl

/-- Whether the nodes with themselves are delivered after the search. -/
def closesWithNodes (subject : Endpoint) (path : CompiledPath) (object : Endpoint) : Bool :=
  match subject, object with
  | .var _, .var _ => path.forward.isNullable
  | _, _ => false

theorem closing_eq (e : Evaluator) (p : Progress) : e.closing subject path object p =
    if closesWithNodes subject path object then (e.searchFor subject path object).reflexive p
    else return () := by
  cases subject <;> cases object <;> rfl

theorem silent_originsFor : (e.originsFor subject path object).Silent :=
  (composes_silent _ _).originsFor subject path object

theorem backs_originsFor (halike : e.graph.Alike e.context g context) :
    (e.originsFor subject path object).Backs ((e.asking g context).originsFor subject path object) E
      SameElements := by
  cases subject with
  | term x => exact backs_pure (SameElements.refl _)
  | var v =>
      cases object with
      | term y => exact backs_pure (SameElements.refl _)
      | var w => exact Search.backs_probe (s := e.searchFor (.var v) path (.var w)) halike

theorem alike_searchFor (halike : e.graph.Alike e.context g context) :
    (e.searchFor subject path object).graph.Alike
      (e.searchFor subject path object).context g context := by
  rw [graph_searchFor, context_searchFor]
  exact halike

theorem backs_closing (halike : e.graph.Alike e.context g context) (p p' : Progress) :
    (e.closing subject path object p).Backs ((e.asking g context).closing subject path object p') E
      fun _ _ => True := by
  rw [closing_eq, closing_eq, searchFor_asking]
  split
  · rw [Search.reflexive_eq, Search.reflexive_eq]
    exact Backs.bind (Search.backs_everyNode (alike_searchFor halike)) fun _ _ _ => backs_log _ _
  · exact backs_pure trivial

/-- Nodes are found for the empty walks at the end, unless they have been delivered before. -/
theorem finishes_closing {nodes : Term → Prop} (p : Progress)
    (hnodes : (e.searchFor subject path object).everyNode.Ends (fun _ => True) fun xs =>
      ∀ x, x ∈ xs ↔ nodes x) :
    (e.closing subject path object p).Finishes fun solutions r =>
      ∀ u, r = .ok u → ∀ t, t ∈ solutions ↔
      closesWithNodes subject path object = true ∧ t.subject = t.object ∧ nodes t.subject ∧
        (t.subject, t.subject) ∉ p.visits.delivered := by
  rw [closing_eq]
  cases hcloses : closesWithNodes subject path object with
  | false =>
      refine finishes_pure ?_
      intro _ _ t
      simp
  | true =>
      rw [if_pos rfl, Search.reflexive_eq]
      have hsilent : (e.searchFor subject path object).everyNode.Silent :=
        (silent_ask _ _ _).bind fun _ => silent_pure _
      refine hsilent.bind_ends hnodes ?_ fun _ => nofun
      intro xs hxs
      refine Finishes.mono (yields_deliver _) ?_
      rintro _ _ ⟨_, rfl, rfl⟩ _ _ t
      rw [Visits.mem_deliverReflexive, hxs]
      simp

/-- An evaluation that ends well delivers what is selected by its origins and nodes. -/
theorem finishes_evaluation_lands {origins nodes : Term → Prop}
    (hs : (e.searchFor subject path object).Lands hop)
    (horigins : (e.originsFor subject path object).Ends (fun _ => True)
      fun xs => ∀ x, x ∈ xs ↔ origins x)
    (hnodes : (e.searchFor subject path object).everyNode.Ends (fun _ => True) fun xs =>
      ∀ x, x ∈ xs ↔ nodes x) :
    (e.evaluation subject path object).Finishes fun solutions r =>
      ∀ u, r = .ok u → ∀ t, t ∈ solutions ↔
      (e.searchFor subject path object).Selected hop origins
        (fun x => closesWithNodes subject path object = true ∧ nodes x) t := by
  rw [evaluation_eq]
  refine silent_originsFor.bind_ends horigins ?_ fun _ => nofun
  intro xs hxs
  refine Finishes.bind (hs.finishes_run xs) ?_ fun _ _ _ => nofun
  intro solutions p h
  obtain ⟨hdelivered, hsolutions⟩ := h p rfl
  refine (finishes_closing p hnodes).mono ?_
  intro more r hmore u hok t
  rw [List.mem_append, hsolutions, hmore u hok]
  constructor
  · rintro (⟨⟨x, y⟩, hpair, htold⟩ | ⟨hcloses, heq, hnode, _⟩)
    · obtain ⟨hx, hy⟩ := (hdelivered x y).mp hpair
      exact Or.inl ⟨x, (hxs x).mp hx, y, hy, htold⟩
    · exact Or.inr ⟨heq, hcloses, hnode⟩
  · rintro (⟨x, hx, y, hy, htold⟩ | ⟨heq, hcloses, hnode⟩)
    · exact Or.inl ⟨(x, y), (hdelivered x y).mpr ⟨(hxs x).mpr hx, hy⟩, htold⟩
    · by_cases hmem : (t.subject, t.subject) ∈ p.visits.delivered
      · refine Or.inl ⟨_, hmem, ?_⟩
        rw [Search.told_self]
        cases t
        cases heq
        rfl
      · exact Or.inr ⟨hcloses, heq, hnode, hmem⟩

section alike
variable (halike : e.graph.Alike e.context g context)
include halike

/-- The chains that are followed in graphs that answer alike lead to the same nodes. -/
theorem exists_lands (subject : Endpoint) (path : CompiledPath) (object : Endpoint) :
    ∃ hop, (e.searchFor subject path object).Lands hop ∧
      ((e.searchFor subject path object).asking g context).Lands hop := by
  let s := e.searchFor subject path object
  have hsearch : s.graph.Alike s.context g context := alike_searchFor halike
  refine ⟨fun branches x y => (landings s.graph s.context x branches).Gives y, ?_, ?_⟩
  · exact fun x branches => (backs_landings hsearch.self x branches).ends_gives
      (backs_landings hsearch.self x branches)
  · exact fun x branches => (backs_landings hsearch x branches).ends_gives
      (backs_landings hsearch.symm x branches)

/-- What is delivered by evaluations that end well is the same in graphs that answer alike. -/
theorem exists_selection (subject : Endpoint) (path : CompiledPath) (object : Endpoint) :
    ∃ Q : Solution → Prop,
      ((e.evaluation subject path object).Finishes fun solutions r =>
        ∀ u, r = .ok u → ∀ t, t ∈ solutions ↔ Q t) ∧
      ((e.asking g context).evaluation subject path object).Finishes fun solutions r =>
        ∀ u, r = .ok u → ∀ t, t ∈ solutions ↔ Q t := by
  obtain ⟨hop, hs, hs'⟩ := exists_lands halike subject path object
  let s := e.searchFor subject path object
  have hsearch : s.graph.Alike s.context g context := alike_searchFor halike
  let origins := e.originsFor subject path object
  let selection := s.Selected hop origins.Gives fun x =>
    closesWithNodes subject path object = true ∧ s.everyNode.Gives x
  have horigins : origins.Backs origins (fun _ => True) SameElements := backs_originsFor halike.self
  have horigins' :
      ((e.asking g context).originsFor subject path object).Backs origins (fun _ => False)
      SameElements := backs_originsFor (e := e.asking g context) halike.symm
  rw [← searchFor_asking] at hs'
  have hfinishes' := finishes_evaluation_lands hs' ((backs_originsFor halike).ends_gives horigins')
    (searchFor_asking e g context ▸
      (Search.backs_everyNode hsearch).ends_gives (Search.backs_everyNode hsearch.symm))
  rw [searchFor_asking] at hfinishes'
  refine ⟨selection, finishes_evaluation_lands hs ?_ ?_, hfinishes'⟩
  · exact horigins.ends_gives (backs_originsFor halike.self)
  · exact (Search.backs_everyNode hsearch.self).ends_gives (Search.backs_everyNode hsearch.self)

theorem backs_evaluation (hearly : e.options.earlyTermination = false) (subject : Endpoint)
    (path : CompiledPath) (object : Endpoint) : (e.evaluation subject path object).Backs
      ((e.asking g context).evaluation subject path object) (· = .givenUp) fun _ _ => True := by
  obtain ⟨hop, hs, hs'⟩ := exists_lands halike subject path object
  have hgoes : ∀ c, (e.searchFor subject path object).stopsAt c = false := by
    intro c
    rw [Search.stopsAt, options_searchFor, hearly, Bool.and_false, Bool.false_and]
  rw [evaluation_eq, evaluation_eq]
  refine Backs.bind (backs_originsFor halike) fun xs ys hsame => ?_
  rw [searchFor_asking]
  exact Backs.bind (Search.backs_run (alike_searchFor halike) hs hs' hgoes hsame)
    fun p p' _ => backs_closing halike p p'

end alike

/-- In graphs that answer alike, in whatever order, the same solutions are delivered where both
evaluations end well. Where no origin is stopped early and neither of them is given up, which over a
graph that keeps to what it has announced never happens, one of them ends in a fault exactly when
the other one does. -/
theorem evaluateCompiled_alike {e : Evaluator} {g : GraphService} {context : CallContext}
    (halike : e.graph.Alike e.context g context) {t : PathTree}
    {optimize : Bool} {path : CompiledPath}
    (hpath : CompiledPath.ofTree t optimize = .ok path) (subject object : Endpoint) :
    let run := e.evaluateCompiled subject path object
    let run' := evaluateCompiled ⟨g, context, e.options⟩ subject path object
    (run.result = .ok () → run'.result = .ok () → ∀ t, t ∈ run.solutions ↔ t ∈ run'.solutions) ∧
      (e.options.earlyTermination = false → run.result ≠ .error .givenUp →
        run'.result ≠ .error .givenUp →
        ((∃ stop, run.result = .error stop) ↔ ∃ stop, run'.result = .error stop)) ∧
      (∀ nodes, e.graph.Announces e.context nodes → run.result ≠ .error .givenUp) ∧
      ∀ nodes, g.Announces context nodes → run'.result ≠ .error .givenUp := by
  intro run run'
  let e' := e.asking g context
  have halike' : e'.graph.Alike e'.context e.graph e.context := halike.symm
  refine ⟨?_, ?_, ?_, ?_⟩
  · intro hok hok' u
    obtain ⟨Q, hfinishes, hfinishes'⟩ := exists_selection halike subject path object
    exact (hfinishes 0 () hok u).trans (hfinishes' 0 () hok' u).symm
  · intro hearly hrun hrun'
    constructor
    · rintro ⟨stop, herror⟩
      cases hresult' : run'.result with
      | error stop' => exact ⟨stop', rfl⟩
      | ok _ =>
          have hbacked := backs_evaluation halike' hearly subject path object 0 () hresult'
          exact absurd (herror.trans (congrArg _ (hbacked.of_error herror))) hrun
    · rintro ⟨stop, herror⟩
      cases hresult : run.result with
      | error stop' => exact ⟨stop', rfl⟩
      | ok _ =>
          have hbacked := backs_evaluation halike hearly subject path object 0 () hresult
          exact absurd (herror.trans (congrArg _ (hbacked.of_error herror))) hrun'
  · exact fun nodes hg hgivenUp =>
      (ends_evaluation_announced hg hpath subject object).of_error hgivenUp rfl
  · exact fun nodes hg hgivenUp =>
      (ends_evaluation_announced (e := e') hg hpath subject object).of_error hgivenUp rfl

/-- Every second call is answered backwards and the others twice, with closures within each other
over a cycle and a limit on the depth. -/
theorem evaluateCompiled_alike_backwards :
    let p : PathTree := .property (.forward ⟨"p"⟩)
    let t : PathTree := .closure .zeroOrMore (.sequence [p, .closure .oneOrMore p])
    let ts : List Triple :=
      [⟨.iri ⟨"a"⟩, ⟨"p"⟩, .iri ⟨"b"⟩⟩, ⟨.iri ⟨"b"⟩, ⟨"p"⟩, .iri ⟨"a"⟩⟩,
        ⟨.iri ⟨"b"⟩, ⟨"p"⟩, .iri ⟨"c"⟩⟩]
    let store := TripleStore.ofTriples ts
    let g : GraphService := ⟨fun k call _ => .ok (if k % 2 = 0 then (store.answer call).reverse
      else store.answer call ++ store.answer call), store.nodes.length⟩
    let options : EvaluationOptions := { earlyTermination := false, maxSearchDepth := some 2 }
    let e : Evaluator := ⟨store.toService, .default, options⟩
    let subject : Endpoint := .var ⟨"x"⟩
    let object : Endpoint := .var ⟨"y"⟩
    e.graph.Alike e.context g .default ∧ ∃ path, CompiledPath.ofTree t true = .ok path ∧
      let run := e.evaluateCompiled subject path object
      let run' := evaluateCompiled ⟨g, .default, options⟩ subject path object
      run.result = .ok () ∧ run'.result = .ok () ∧ ∀ t, t ∈ run.solutions ↔ t ∈ run'.solutions := by
  intro p t ts store g options e subject object
  have hsame (k : Nat) (call : GraphCall) : SameElements (store.answer call)
      (if k % 2 = 0 then (store.answer call).reverse
        else store.answer call ++ store.answer call) := by
    intro b
    split <;> simp
  have halike : e.graph.Alike e.context g .default := fun _ j call =>
    ⟨fun b hb => ⟨b, (hsame j call b).mp hb, fun _ => rfl⟩,
      fun b hb => ⟨b, (hsame j call b).mpr hb, fun _ => rfl⟩⟩
  have hannounces : g.Announces .default store.nodes := by
    refine ⟨Nat.le_refl _, ?_⟩
    intro k call bs hanswer b hb
    cases hanswer
    exact (store.announces .default).inside k call _ rfl b ((hsame k call b).mpr hb)
  obtain ⟨path, hpath⟩ : ∃ path, CompiledPath.ofTree t true = .ok path :=
    CompiledPath.exists_ofTree rfl rfl true
  have hdepth : t.closureDepth ≤ options.maxNestingDepth := by decide
  have hok := (evaluateCompiled_depth store .default rfl hpath
    (result_ne_nestingTooDeep store .default rfl hpath hdepth subject object)).1
  obtain ⟨hsolutions, hfaults, _, hgoes⟩ := evaluateCompiled_alike halike hpath subject object
  have hok' : (evaluateCompiled ⟨g, .default, options⟩ subject path object).result = .ok () := by
    cases hresult : (evaluateCompiled ⟨g, .default, options⟩ subject path object).result with
    | ok _ => rfl
    | error stop =>
        have hgivenUp : (e.evaluateCompiled subject path object).result ≠ .error .givenUp := by
          intro hgivenUp
          rw [hok] at hgivenUp
          cases hgivenUp
        obtain ⟨stop', hstop⟩ := (hfaults rfl hgivenUp (hgoes _ hannounces)).mpr ⟨stop, hresult⟩
        rw [hok] at hstop
        cases hstop
  exact ⟨halike, _, hpath, hok, hok', hsolutions hok hok'⟩

end Evaluator

end PropertyPath
