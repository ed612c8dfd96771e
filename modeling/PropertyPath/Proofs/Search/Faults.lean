import PropertyPath.Proofs.Automaton.Inside
import PropertyPath.Proofs.Search.Depth
import PropertyPath.Proofs.Search.Disturbed
import PropertyPath.Proofs.Search.Refines

/-!
# What can go wrong over a graph in memory

A search over a graph that answers rightly fails for two reasons only: closures are nested deeper
than is allowed, or more would be reached than may be visited. How much that can be is told by the
nodes of the graph and the breadth of the automaton. It is said of the search of some origins and,
by induction on the closures that may still be nested, of all searches within it.
-/
namespace PropertyPath
open Evaluation

namespace Search
variable {G : Set Triple} {s : Search} {nodes origins : List Term} {stop : Halt}

/-- The limits that stop a search in which closures are nested so deep, or that may reach so
much. -/
def Limited (s : Search) (allowed nesting room : Nat) (stop : Halt) : Prop :=
  (allowed < nesting ∧ stop = .fault (.nestingTooDeep s.options.maxNestingDepth)) ∨
    ∃ limit, s.options.maxVisited = some limit ∧ limit < room ∧
    stop = .fault (.visitLimitExceeded limit)

theorem Limited.mono {allowed nesting nesting' room room' : Nat}
    (h : s.Limited allowed nesting room stop)
    (hnesting : nesting ≤ nesting') (hroom : room ≤ room') :
    s.Limited allowed nesting' room' stop := by
  rcases h with ⟨hlt, hstop⟩ | ⟨limit, hlimit, hlt, hstop⟩
  · exact Or.inl ⟨Nat.lt_of_lt_of_le hlt hnesting, hstop⟩
  · exact Or.inr ⟨limit, hlimit, Nat.lt_of_lt_of_le hlt hroom, hstop⟩

/-- What can be reached are configurations of an origin at a node in a state. -/
theorem Ready.located (h : s.Ready G nodes) {key : Term × Term × StateName}
    (hkey : s.Reachable (joined G) origins key) :
    s.Located nodes origins ⟨key.1, key.2.1, key.2.2, 0⟩ := by
  obtain ⟨hx, n, _, hreaches⟩ := hkey
  have hmoves := Automaton.moves_of_reaches hreaches
  refine ⟨hx, ?_, Automaton.exists_state_of_moves h.valid hmoves⟩
  rcases inside_of_moves (fun t _ => Label.inside_relation t.label) hmoves with heq | ⟨_, hy⟩
  · exact Or.inl heq.symm
  · exact Or.inr (h.inside _ hy)

theorem Ready.lt_of_crowded (h : s.Ready G nodes) {limit : Nat}
    (hcrowded : s.Crowded (joined G) origins limit) :
    limit < origins.length * (nodes.length + 1) * s.automaton.states.length := by
  obtain ⟨keys, hnodup, hreachable, hlt⟩ := hcrowded
  let cs : List Configuration := keys.map fun key => ⟨key.1, key.2.1, key.2.2, 0⟩
  have hkeys : cs.map Configuration.key = keys := by
    rw [List.map_map]
    exact List.map_id keys
  have hlocated : ∀ c ∈ cs, s.Located nodes origins c := by
    intro c hc
    obtain ⟨key, hkey, rfl⟩ := List.mem_map.mp hc
    exact h.located (hreachable key hkey)
  have hle := length_le_of_located (hkeys.symm ▸ hnodup) hlocated
  rw [List.length_map] at hle
  exact Nat.lt_of_lt_of_le hlt hle

/-- Why the search behind a label may stop, when so many closures may still be nested. -/
def StopsFor (s : Search) (nodes : List Term) (allowed : Nat) (l : Label) (stop : Halt) : Prop :=
  stop = .givenUp ∨ s.Limited allowed l.nesting ((nodes.length + 1) * l.breadth) stop

/-- A search that stalls has met a limit, at its own level or at one within it. -/
theorem Ready.limited_of_stalls (h : s.Ready G nodes) {allowed : Nat}
    (hstalls : s.Stalls (joined G) (fun l _ => s.StopsFor nodes allowed l) origins stop) :
    stop = .givenUp ∨ s.Limited allowed s.automaton.nesting
      (origins.length * (nodes.length + 1) * s.automaton.breadth) stop := by
  rcases hstalls with ⟨l, y, hcomes, hgivenUp | hlimited⟩ | ⟨limit, hstop, hlimit, hcrowded⟩
  · exact Or.inl hgivenUp
  · obtain ⟨x, hx, _, _, _, _, t, ht, _, rfl⟩ := hcomes
    have hnesting := Automaton.nesting_le_iff.mp (Nat.le_refl s.automaton.nesting) t ht
    have hroom := Nat.mul_le_mul_left (nodes.length + 1) (Automaton.breadth_label_le ht)
    have hpos : 0 < origins.length := List.length_pos_of_mem hx
    refine Or.inr (hlimited.mono hnesting ?_)
    rw [Nat.mul_assoc]
    exact hroom.trans (Nat.le_mul_of_pos_left _ hpos)
  · have hroom := Nat.mul_le_mul_left (origins.length * (nodes.length + 1))
      (Automaton.states_le_breadth s.automaton)
    exact Or.inr
      (Or.inr ⟨limit, hlimit, Nat.lt_of_lt_of_le (h.lt_of_crowded hcrowded) hroom, hstop⟩)

theorem excuses_stopsFor (s : Search) (G : Set Triple) (nodes : List Term) :
    s.Excuses G (fun a => (s.nested a).Ready G nodes) (s.StopsFor nodes) where
  nested _ ha _ ht _ _ hlabel := ha.nested ht hlabel
  givenUp _ _ := Or.inl rfl
  none _ _ := Or.inr (Or.inl ⟨Nat.succ_pos _, rfl⟩)
  stalls allowed k a x stop ha hstalls := by
    refine (ha.limited_of_stalls hstalls).imp_right ?_
    rw [List.length_singleton, Nat.one_mul]
    rintro (⟨hlt, hstop⟩ | hvisits)
    · exact Or.inl ⟨Nat.succ_lt_succ hlt, hstop⟩
    · exact Or.inr hvisits

/-- A search is stopped by nothing but limits. -/
theorem Ready.ends_run (h : s.Ready G nodes) (origins : List Term) :
    (s.run origins).Ends (s.Limited s.options.maxNestingDepth s.automaton.nesting
      (origins.length * (nodes.length + 1) * s.automaton.breadth)) fun _ => True := by
  have hs := (excuses_stopsFor s G nodes).provides h.serves ⟨h.valid, h.serves, h.inside, h.bound⟩
    s.options.maxNestingDepth
  have hruns := finishes_searchFrom_levels hs (passes_passed s G)
    (fun a x => silent_closureSearch _ a x) origins
  intro k
  have hk := hruns k
  rw [run]
  cases hresult :
    (s.searchFrom (s.closureSearch s.options.maxNestingDepth) origins s.start k).result with
  | ok p => trivial
  | error stop =>
      have hgoes : stop ≠ .givenUp := (h.confined.ends_searchFrom _ origins).of_error hresult
      rw [hresult] at hk
      have hstalls := hk.resolve_left hgoes
      exact (h.limited_of_stalls hstalls).resolve_left hgoes

/-- No node is looked at twice when the origins are found. -/
theorem returns_probe_length (hg : s.graph.Serves G) (hfree : s.automaton.EpsilonFree)
    (hinside : ∀ x ∈ nodesOf G, x ∈ nodes) :
    s.probe.Returns fun xs => xs.length ≤ nodes.length := by
  intro k
  obtain ⟨xs, hxs, hsolutions, hnodes, _⟩ := returns_probe hg hfree k
  refine ⟨xs, hxs, hsolutions, ?_⟩
  have hnodup : xs.Nodup := by
    obtain ⟨all, hall⟩ := exists_of_bind_eq_ok hxs
    rw [probe, (bind_of_ok hall).1] at hxs
    cases hxs
    exact nodup_eraseDups all
  exact (hnodup.subperm fun x hx => hinside x (hnodes x hx)).length_le

end Search

namespace Evaluator
variable {G : Set Triple} {e : Evaluator} {nodes : List Term} {subject object : Endpoint}
  {path : CompiledPath}

theorem returns_originsFor_length (h : (e.searchFor subject path object).Ready G nodes)
    (hfree : (e.searchFor subject path object).automaton.EpsilonFree) :
    (e.originsFor subject path object).Returns fun xs => xs.length ≤ nodes.length + 1 := by
  unfold originsFor
  split
  · exact returns_pure (Nat.le_add_left 1 _)
  · exact returns_pure (Nat.le_add_left 1 _)
  · refine (Search.returns_probe_length h.serves hfree h.inside).mono ?_
    rintro solutions xs ⟨hsolutions, hle⟩
    exact ⟨hsolutions, Nat.le_succ_of_le hle⟩

/-- What is delivered after the search is delivered without a fault. -/
theorem ends_closing_of_serves {E : Halt → Prop}
    (h : (e.searchFor subject path object).graph.Serves G)
    (p : Progress) : (e.closing subject path object p).Ends E fun _ => True := by
  unfold closing
  split
  · dsimp only
    split
    · intro k
      obtain ⟨_, hresult, _⟩ := Search.yields_reflexive h p k
      rw [hresult]
      trivial
    · exact ends_pure trivial
  · exact ends_pure trivial

/-- An evaluation is stopped by nothing but limits: as many configurations fit in it as there are
pairs of nodes and states, for every origin. -/
theorem ends_evaluation_limited (h : (e.searchFor subject path object).Ready G nodes)
    (hfree : (e.searchFor subject path object).automaton.EpsilonFree) :
    let a := (e.searchFor subject path object).automaton
    (e.evaluation subject path object).Ends ((e.searchFor subject path object).Limited
      e.options.maxNestingDepth a.nesting ((nodes.length + 1) * (nodes.length + 1) * a.breadth))
        fun _ => True := by
  intro a
  rw [evaluation_eq]
  refine Ends.bind (returns_originsFor_length h hfree).ends ?_
  intro origins horigins
  have hroom : origins.length * (nodes.length + 1) * a.breadth ≤
      (nodes.length + 1) * (nodes.length + 1) * a.breadth :=
    Nat.mul_le_mul_right _ (Nat.mul_le_mul_right _ horigins)
  have hruns := h.ends_run origins
  rw [options_searchFor] at hruns
  refine Ends.bind (hruns.imp (fun stop hstop => hstop.mono (Nat.le_refl _) hroom) fun _ h => h) ?_
  exact fun p _ => ends_closing_of_serves h.serves p

theorem epsilonFree_searchFor {t : PathTree} {optimize : Bool}
    (hpath : CompiledPath.ofTree t optimize = .ok path) :
    (e.searchFor subject path object).automaton.EpsilonFree := by
  obtain ⟨hforward, hbackward⟩ := CompiledPath.ofTree_implements hpath
  rcases e.automaton_searchFor subject path object with heq | heq
  · rw [heq]
    exact hforward.epsilonFree
  · rw [heq]
    exact hbackward.epsilonFree

/-- Over a graph in memory an evaluation of a compiled path is stopped by nothing but limits, and by
these only if closures are nested deeper than is allowed, or more may be reached than may be
visited. -/
theorem ends_evaluation_toService (g : TripleStore) (context : CallContext)
    (options : EvaluationOptions)
    {t : PathTree} {optimize : Bool} (hpath : CompiledPath.ofTree t optimize = .ok path)
    (subject object : Endpoint) :
    let e : Evaluator := ⟨g.toService, context, options⟩
    let a := (e.searchFor subject path object).automaton
    (e.evaluation subject path object).Ends ((e.searchFor subject path object).Limited
      options.maxNestingDepth a.nesting ((g.nodes.length + 1) * (g.nodes.length + 1) * a.breadth))
        fun _ => True :=
  ends_evaluation_limited (ready_searchFor g context options hpath subject object)
    (epsilonFree_searchFor hpath)

/-- Over a graph in memory nothing goes wrong in an evaluation of a compiled path but that a limit
is met. No chain in its automata is empty, and the graph binds both ends of a hop in all its
answers. -/
theorem error_stream_evaluateCompiled (g : TripleStore) (context : CallContext)
    (options : EvaluationOptions) {optimize : Bool}
    (hpath : (∃ t, CompiledPath.ofTree t optimize = .ok path) ∨
      ∃ p, CompiledPath.ofExpr p optimize = .ok path) (subject object : Endpoint) :
    let run := evaluateCompiled ⟨g.toService, context, options⟩ subject path object
    (∀ halt, .error halt ∈ run.stream →
      halt = .fault (.nestingTooDeep options.maxNestingDepth) ∨
        ∃ limit, options.maxVisited = some limit ∧ halt = .fault (.visitLimitExceeded limit)) ∧
    (∀ a, path.forward.Includes a ∨ path.backward.Includes a → ∀ t ∈ a.transitions,
      (∀ is, t.label = .sequence is → is ≠ []) ∧
        ∀ branches, t.label = .alternative branches → branches ≠ [] ∧ ∀ is ∈ branches, is ≠ []) ∧
    ∀ start is, is ≠ [] → ∀ k, ∃ bs,
      g.toService.answer k (.query (Hop.ofChain start is).query) context = .ok bs ∧
        ∀ b ∈ bs, ∃ x y, (Hop.ofChain start is).ends b = .ok (x, y) := by
  intro run
  obtain ⟨t, ht⟩ : ∃ t, CompiledPath.ofTree t optimize = .ok path := by
    rcases hpath with ht | ⟨p, hp⟩
    · exact ht
    · exact ⟨_, (CompiledPath.ofExpr_eq_ok_iff.mp hp).2⟩
  refine ⟨?_, ?_, ?_⟩
  · intro halt hhalt
    have hlimited := (ends_evaluation_toService g context options ht subject object).of_error
      (Run.error_mem_stream.mp hhalt)
    rw [Search.Limited, options_searchFor] at hlimited
    rcases hlimited with ⟨_, hstop⟩ | ⟨limit, hlimit, _, hstop⟩
    · exact Or.inl hstop
    · exact Or.inr ⟨limit, hlimit, hstop⟩
  · intro a ha u hu
    obtain ⟨hforward, hbackward⟩ := CompiledPath.ofTree_implements ht
    have hchains :
        ∀ branches, u.label.branches? = some branches → branches ≠ [] ∧ [] ∉ branches := by
      intro branches hbranches
      rcases ha with ha | ha
      · exact hforward.epsilonFree.branches ha hu hbranches
      · exact hbackward.epsilonFree.branches ha hu hbranches
    constructor
    · rintro is hlabel rfl
      exact (hchains [[]] (by rw [hlabel]; rfl)).2 List.mem_cons_self
    · intro branches hlabel
      obtain ⟨hne, hnil⟩ := hchains branches (by rw [hlabel]; rfl)
      exact ⟨hne, fun is his heq => hnil (heq ▸ his)⟩
  · intro start is hne k
    obtain ⟨bs, hanswer, hbs⟩ := g.serves.query k (Hop.ofChain start is).query context
    refine ⟨bs, hanswer, ?_⟩
    intro b hb
    obtain ⟨x, y, hends, _⟩ := Hop.exists_ends hne hbs b hb
    exact ⟨x, y, hends⟩

/-- A closure that is nested too deep, in an expression with chains of different lengths, over a
cycle. -/
theorem error_stream_evaluateCompiled_nested_alternative :
    let p : PathExpr := .oneOrMore (.sequence (.iri ⟨"p"⟩)
      (.zeroOrMore (.alternative (.iri ⟨"q"⟩) (.sequence (.iri ⟨"p"⟩) (.reverse (.iri ⟨"q"⟩))))))
    let ts : List Triple := [⟨.iri ⟨"a"⟩, ⟨"p"⟩, .iri ⟨"b"⟩⟩, ⟨.iri ⟨"b"⟩, ⟨"q"⟩, .iri ⟨"a"⟩⟩]
    let options : EvaluationOptions := { maxNestingDepth := 0, maxVisited := some 5 }
    let g := TripleStore.ofTriples ts
    let subject : Endpoint := .var ⟨"x"⟩
    let object : Endpoint := .term (.iri ⟨"a"⟩)
    ∃ path, CompiledPath.ofExpr p true = .ok path ∧
      let run := evaluateCompiled ⟨g.toService, .default, options⟩ subject path object
      (∀ halt, .error halt ∈ run.stream →
        halt = .fault (.nestingTooDeep options.maxNestingDepth) ∨
          ∃ limit, options.maxVisited = some limit ∧ halt = .fault (.visitLimitExceeded limit)) ∧
      (∀ a, path.forward.Includes a ∨ path.backward.Includes a → ∀ t ∈ a.transitions,
        (∀ is, t.label = .sequence is → is ≠ []) ∧
          ∀ branches, t.label = .alternative branches → branches ≠ [] ∧ ∀ is ∈ branches, is ≠ []) ∧
      ∀ start is, is ≠ [] → ∀ k, ∃ bs,
        g.toService.answer k (.query (Hop.ofChain start is).query) .default = .ok bs ∧
          ∀ b ∈ bs, ∃ x y, (Hop.ofChain start is).ends b = .ok (x, y) := by
  intro p ts options g subject object
  obtain ⟨path, hpath⟩ : ∃ path, CompiledPath.ofExpr p true = .ok path :=
    CompiledPath.exists_ofExpr (by decide) (by decide) true
  exact ⟨path, hpath,
    error_stream_evaluateCompiled g .default options (Or.inr ⟨p, hpath⟩) subject object⟩

end Evaluator

end PropertyPath
