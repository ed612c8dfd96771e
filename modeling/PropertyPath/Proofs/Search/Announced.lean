import PropertyPath.Proofs.Search.Bounds

/-!
# Graphs that keep to what they have announced

A graph announces how many nodes it speaks about. As long as what it answers about the ends of edges
are no more nodes than that, whatever else it answers and however it does so, no evaluation is given
up.
-/
namespace PropertyPath
open Evaluation

/-- What is answered about the ends of edges are these nodes, no more of them than are announced. -/
structure GraphService.Announces (g : GraphService) (context : CallContext) (nodes : List Term) :
    Prop where
  bound : nodes.length ≤ g.nodeBound
  inside : ∀ k call bs, g.answer k call context = .ok bs → ∀ b ∈ bs, ∀ p ∈ call.patterns, ∀ v t,
    p.subject = .var v ∨ p.object = .var v → b.get? v = some t → t ∈ nodes

theorem ConjunctiveQuery.Answered.mem_nodes {q : ConjunctiveQuery}
    {G : Set Triple} {bs : List Bindings}
    (h : q.Answered G bs) {b : Bindings} (hb : b ∈ bs) {p : TriplePattern} (hp : p ∈ q.patterns)
    {v : Variable} {t : Term} (hv : p.subject = .var v ∨ p.object = .var v)
    (ht : b.get? v = some t) :
    t ∈ nodesOf G := by
  obtain ⟨u, hu, hfits⟩ := (h.sound b hb).patterns p hp
  have hsubject := hfits.subject
  have hobject := hfits.object
  rcases hv with hv | hv
  · rw [hv, Endpoint.resolve, ht] at hsubject
    exact ⟨u, hu, Or.inl (Option.some.inj hsubject)⟩
  · rw [hv, Endpoint.resolve, ht] at hobject
    exact ⟨u, hu, Or.inr (Option.some.inj hobject)⟩

/-- A graph in memory announces its nodes. -/
theorem TripleStore.announces (g : TripleStore) (context : CallContext) :
    g.toService.Announces context g.nodes where
  bound := Nat.le_refl _
  inside := by
    intro _ call bs hanswer b hb p hp v t hv ht
    cases hanswer
    have hin : t ∈ nodesOf {t | t ∈ g.triples} := by
      cases call with
      | query q => exact (answered_solutions g q).mem_nodes hb hp hv ht
      | bgp ps => exact (answered_solutions g ⟨ps, []⟩).mem_nodes hb hp hv ht
    exact TripleStore.mem_nodes.mpr hin

namespace Hop

/-- The end of a chain is asked for. -/
theorem exists_pattern_finish {is : List Instruction} (hne : is ≠ []) (finish : Variable) (k : Nat)
    (source : Endpoint) : ∃ p ∈ (chainFrom finish k source is).patterns,
      p.subject = .var finish ∨ p.object = .var finish := by
  induction is generalizing k source with
  | nil => exact absurd rfl hne
  | cons i is ih =>
      cases is with
      | nil =>
          rw [chainFrom_single]
          refine ⟨_, List.mem_cons_self, ?_⟩
          rw [edge]
          split
          · exact Or.inl rfl
          · exact Or.inr rfl
      | cons j is =>
          rw [chainFrom_cons]
          obtain ⟨p, hp, hfinish⟩ := ih (List.cons_ne_nil j is) _ _
          exact ⟨p, List.mem_cons_of_mem _ hp, hfinish⟩

end Hop

section hops
variable {g : GraphService} {context : CallContext} {nodes : List Term} {x : Term}

theorem Hop.ends_execute_announced (hg : g.Announces context nodes) (is : List Instruction) :
    ((Hop.ofChain (.term x) is).execute g context).Ends (· ≠ .givenUp) fun pairs =>
      ∀ pair ∈ pairs, pair.2 = x ∨ pair.2 ∈ nodes := by
  have hfault (fault : EvaluationFault) : Halt.fault fault ≠ .givenUp := by simp
  cases is with
  | nil =>
      refine ends_pure ?_
      intro pair hpair
      rw [List.mem_singleton.mp hpair]
      exact Or.inl rfl
  | cons i is =>
      let h := Hop.ofChain (.term x) (i :: is)
      obtain ⟨p, hp, hfinish⟩ := exists_pattern_finish (List.cons_ne_nil i is) h.finish 1 (.term x)
      have hasked : h.query.isEmpty = false := by
        rw [ConjunctiveQuery.isEmpty, List.isEmpty_eq_false_iff]
        exact List.ne_nil_of_mem hp
      have hanswers : (ask g context (.query h.query)).Ends (· ≠ .givenUp) fun bs =>
          ∃ k, g.answer k (.query h.query) context = .ok bs := by
        intro k
        rw [ask]
        cases hanswer : g.answer k (.query h.query) context with
        | error fault => exact hfault _
        | ok bs => exact ⟨k, hanswer⟩
      rw [execute, hasked, if_neg Bool.false_ne_true]
      refine Ends.bind hanswers ?_
      intro bs hbs
      obtain ⟨k, hbs⟩ := hbs
      refine Ends.bind (ends_ofExcept (P := fun pairs => bs.mapM h.ends = .ok pairs)
        (fun _ h => h) hfault) ?_
      intro pairs hpairs
      refine ends_pure ?_
      rintro ⟨y, z⟩ hpair
      rw [List.mem_eraseDups, mem_mapM hpairs] at hpair
      obtain ⟨b, hb, hends⟩ := hpair
      exact Or.inr (hg.inside k _ bs hbs b hb p hp h.finish z hfinish (mem_ends.mp hends).2)

theorem ends_joinedPairs_announced (hg : g.Announces context nodes)
    (branches : List (List Instruction)) :
    (joinedPairs g context (.term x) branches).Ends (· ≠ .givenUp) fun pairs =>
      ∀ y ∈ pairs.map (·.2), y = x ∨ y ∈ nodes := by
  have hbranches : (pairsByChain g context (.term x) branches).Ends (· ≠ .givenUp) fun pairs =>
      ∀ pair ∈ pairs, pair.2 = x ∨ pair.2 ∈ nodes := by
    induction branches with
    | nil => exact ends_pure nofun
    | cons is branches ih =>
        rw [pairsByChain]
        refine Ends.bind (Hop.ends_execute_announced hg is) fun pairs hpairs => ?_
        refine Ends.bind ih fun more hmore => ends_pure ?_
        exact List.forall_mem_append.mpr ⟨hpairs, hmore⟩
  refine Ends.bind hbranches fun pairs hpairs => ends_pure ?_
  intro y hy
  obtain ⟨pair, hpair, rfl⟩ := List.mem_map.mp hy
  exact hpairs pair (List.mem_eraseDups.mp hpair)

end hops

/-- Over a graph that keeps to what it has announced no evaluation of a compiled path is given
up. -/
theorem Evaluator.ends_evaluation_announced {e : Evaluator} {nodes : List Term} {t : PathTree}
    {optimize : Bool} {path : CompiledPath} (hg : e.graph.Announces e.context nodes)
    (hpath : CompiledPath.ofTree t optimize = .ok path) (subject object : Endpoint) :
    (e.evaluation subject path object).Ends (· ≠ .givenUp) fun _ => True := by
  have hconfined : (e.searchFor subject path object).Confined nodes := by
    refine ⟨validate_searchFor hpath, ?_, ?_⟩
    · intro x branches
      rw [graph_searchFor, context_searchFor]
      exact ends_joinedPairs_announced hg branches
    · rw [graph_searchFor]
      exact hg.bound
  exact ends_evaluation_of_confined hconfined

end PropertyPath
