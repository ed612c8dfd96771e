import PropertyPath.Proofs.Automaton.Compiled
import PropertyPath.Proofs.Search.Termination

/-!
# No evaluation goes on for ever

Over a graph in memory the nodes behind a closure are found, or a fault or an option stops the
search that looks for them, but it is never given up: by induction on the closures that may still be
nested, as a search is at its end when the searches behind its closures are. So the search of a
pattern and all the searches within it keep to their bound.
-/
namespace PropertyPath
open Evaluation

namespace Search
variable {G : Set Triple} {s : Search} {close close' : ClosureSearch} {p : Progress}
  {nodes origins : List Term} {allowed k : Nat}

/-- From a term there is no way but to itself and to the nodes. -/
def Stays (nodes : List Term) (_ : Label) (x : Term) (ys : List Term) : Prop :=
  ∀ y ∈ ys, y = x ∨ y ∈ nodes

/-- An automaton in order, and a graph in which chains lead to no more nodes than it has
announced. -/
structure Confined (s : Search) (nodes : List Term) : Prop where
  valid : s.automaton.validate = .ok ()
  stays : ∀ x branches, (joinedPairs s.graph s.context (.term x) branches).Ends (· ≠ .givenUp)
    fun pairs => ∀ y ∈ pairs.map (·.2), y = x ∨ y ∈ nodes
  bound : nodes.length ≤ s.graph.nodeBound

/-- Automata behind the closures of an automaton in order are in order, and nested less deep. -/
theorem Confined.nested (h : s.Confined nodes) {t : Transition} (ht : t ∈ s.automaton.transitions)
    {kind : Closure} {a : Automaton} (hlabel : t.label = .closure kind a) :
    (s.nested a).Confined nodes ∧ a.nesting < s.automaton.nesting := by
  have hproper := ((Automaton.validate_eq_ok_iff.mp h.valid).2 t ht).label
  have hle := Automaton.nesting_le_iff.mp (Nat.le_refl s.automaton.nesting) t ht
  rw [hlabel] at hproper hle
  exact ⟨⟨hproper, h.stays, h.bound⟩, hle⟩

theorem Confined.supplies (h : s.Confined nodes)
    (hclose : ∀ t ∈ s.automaton.transitions, ∀ kind nested,
    t.label = .closure kind nested →
    ∀ x, (close nested x).Ends (· ≠ .givenUp) (Stays nodes t.label x)) :
    s.Supplies close (· ≠ .givenUp) (Stays nodes) where
  fault := nofun
  closures := hclose
  branches _ _ branches _ x := h.stays x branches

theorem Confined.preserves (h : s.Confined nodes) :
    s.Preserves (Stays nodes) (s.Located nodes origins) := by
  intro c d hc hleads
  obtain ⟨t, ht, ys, hys, y, hy, rfl⟩ := hleads
  have hmem := List.fst_mem_of_mem_zipIdx (mem_leaving.mp ht).1
  obtain ⟨q, hq, hname⟩ := ((Automaton.validate_eq_ok_iff.mp h.valid).2 t.1 hmem).target
  refine ⟨hc.subject, ?_, List.mem_map.mpr ⟨q, hq, hname⟩⟩
  rcases hys y hy with rfl | hin
  · exact hc.node
  · exact Or.inr hin

theorem Confined.sound_first (h : s.Confined nodes) (k : Nat) :
    s.Sound (Stays nodes) (s.Located nodes origins) (s.first origins k) := by
  apply Search.sound_first
  intro x hx
  obtain ⟨q, hq, hname⟩ := (Automaton.validate_eq_ok_iff.mp h.valid).1.mem_start
  exact ⟨hx, Or.inl rfl, List.mem_map.mpr ⟨q, hq, hname⟩⟩

/-- What a search from the beginning collects are pairs of an origin and a node that is looked
for. -/
theorem Confined.ends_collect (h : s.Confined nodes)
    (hs : s.Supplies close (· ≠ .givenUp) (Stays nodes)) (hclose : ∀ a x, (close a x).Silent)
    (origins : List Term) :
    (collect (s.searchFrom close origins s.start)).Ends (· ≠ .givenUp) fun solutions =>
      ∀ t ∈ solutions, ∃ c, s.Located nodes origins c ∧ s.hits c = true ∧
        t = s.told (c.subject, c.node) := by
  intro k
  have hsound : s.Sound (Stays nodes) (s.Located nodes origins) (s.first origins k) :=
    h.sound_first k
  have hmakes : s.Makes close (s.first origins k) (s.searchFrom close origins s.start k) :=
    makes_searchFrom hs h.preserves h.bound hsound rfl rfl
  have hnews := finishes_searchFrom (s := s) hclose origins s.start k
  cases hresult : (s.searchFrom close origins s.start k).result with
  | error stop =>
      rw [collect, hresult]
      exact hmakes.ends hs h.preserves hsound hresult
  | ok p =>
      rw [collect, hresult]
      intro t ht
      obtain ⟨last, hlast, rfl⟩ := hmakes.sound hs h.preserves hsound hresult
      obtain ⟨pairs, hpairs, _, hdelivered⟩ := hnews
      have hold : s.start.visits.delivered = [] := rfl
      rw [hold, List.append_nil] at hdelivered
      rw [hpairs] at ht
      obtain ⟨pair, hpair, rfl⟩ := List.mem_map.mp ht
      have hmem : pair ∈ last.progress.visits.delivered := by
        rw [hdelivered _ hresult]
        exact List.mem_reverse.mpr hpair
      obtain ⟨c, hc, hhits, rfl⟩ := hlast.delivered pair hmem
      exact ⟨c, hlast.kind c (hlast.order.subset (List.mem_append_left _ hc)), hhits, rfl⟩

/-- How closures are searched does not depend on the automaton that they belong to. -/
theorem closureSearch_nested (s : Search) (a : Automaton) (allowed : Nat) :
    (s.nested a).closureSearch allowed = s.closureSearch allowed := by
  induction allowed with
  | zero => rfl
  | succ allowed ih =>
      funext b x
      rw [closureSearch, ih]
      rfl

/-- The searches behind closures are never given up, and find nothing but nodes. -/
theorem Confined.supplies_closureSearch (h : s.Confined nodes) (allowed : Nat) :
    s.Supplies (s.closureSearch allowed) (· ≠ .givenUp) (Stays nodes) := by
  induction allowed generalizing s with
  | zero => exact h.supplies fun _ _ _ _ _ _ => ends_fail nofun
  | succ allowed ih =>
      refine h.supplies ?_
      intro t ht kind a hlabel x
      obtain ⟨hnested, _⟩ := h.nested ht hlabel
      have hs := ih hnested
      rw [closureSearch_nested] at hs
      rw [closureSearch]
      refine Ends.bind
        (hnested.ends_collect hs (fun b y => silent_closureSearch allowed b y) [x]) ?_
      intro solutions hsolutions
      refine ends_pure ?_
      intro y hy
      obtain ⟨t, ht, rfl⟩ := List.mem_map.mp hy
      obtain ⟨c, hc, _, rfl⟩ := hsolutions t ht
      rw [← List.mem_singleton.mp hc.subject]
      exact hc.node

section descent
variable (hagree : ∀ t ∈ s.automaton.transitions, ∀ kind a, t.label = .closure kind a →
  close' a = close a)
include hagree

theorem followAll_congr (c : Configuration) {ts : List (Transition × Nat)}
    (hts : ts ⊆ s.automaton.transitions.zipIdx) (p : Progress) :
    s.followAll close' c ts p = s.followAll close c ts p := by
  induction ts generalizing p with
  | nil => rfl
  | cons t ts ih =>
      obtain ⟨t, i⟩ := t
      obtain ⟨hi, hrest⟩ := List.cons_subset.mp hts
      have hfollow : s.follow close' i t c.node p = s.follow close i t c.node p := by
        unfold follow
        split
        · next kind nested hlabel =>
            rw [hagree t (List.fst_mem_of_mem_zipIdx hi) kind nested hlabel]
        · rfl
      simp only [followAll, hfollow, ih hrest]

/-- What would be found behind other automata than those of its closures makes no difference to a
search. -/
theorem searchFrom_congr (origins : List Term) (p : Progress) :
    s.searchFrom close' origins p = s.searchFrom close origins p := by
  have hexpand : s.expand close' = s.expand close := by
    funext c p
    simp only [expand, followAll_congr hagree c (leaving_subset c.state)]
  have hexplore : ∀ n queue p, s.explore close' n queue p = s.explore close n queue p := by
    intro n
    induction n with
    | zero =>
        intro queue p
        cases queue with
        | nil => rfl
        | cons c queue => rfl
    | succ n ih =>
        intro queue p
        cases queue with
        | nil => rfl
        | cons c queue => simp only [explore, hexpand, ih]
  induction origins generalizing p with
  | nil => rfl
  | cons x origins ih => simp only [searchFrom, hexplore, ih]

end descent

/-- What it means that a search of some origins, before which `k` calls have been made, keeps to its
bound in a graph with so many nodes. -/
structure Bounded (s : Search) (close : ClosureSearch) (origins : List Term) (nodes k : Nat) :
    Prop where
  /-- After finitely many polls the search is at its end and has made its run. -/
  ends : s.Makes close (s.first origins k) (s.searchFrom close origins s.start k)
  complete : (s.searchFrom close origins s.start k).result ≠ .error .givenUp
  /-- At any time, what has been put in the queue has been put there once, and is expanded in the
  same order. -/
  queued : ∀ events st, s.Polls close (s.first origins k) events st →
    (st.queued.map Configuration.key).Nodup ∧ (st.expanded ++ st.queue).Sublist st.queued ∧
      st.queued.length ≤ origins.length * (nodes + 1) * s.automaton.states.length
  expanded : ((s.searchFrom close origins s.start k).expansions.map Configuration.key).Nodup
  count : (s.searchFrom close origins s.start k).expansions.length ≤
    origins.length * (nodes + 1) * s.automaton.states.length
  /-- Only automata that are nested less deep are searched behind closures. -/
  descends : ∀ close' : ClosureSearch, (∀ a, a.nesting < s.automaton.nesting → close' a = close a) →
    s.searchFrom close' origins s.start k = s.searchFrom close origins s.start k

theorem Confined.ends_searchFrom (h : s.Confined nodes) (allowed : Nat) (origins : List Term) :
    (s.searchFrom (s.closureSearch allowed) origins s.start).Ends (· ≠ .givenUp) fun _ => True := by
  intro k
  have hs := h.supplies_closureSearch allowed
  have hsound : s.Sound (Stays nodes) (s.Located nodes origins) (s.first origins k) :=
    h.sound_first k
  have hmakes := makes_searchFrom hs h.preserves h.bound hsound rfl rfl
  cases hresult : (s.searchFrom (s.closureSearch allowed) origins s.start k).result with
  | error stop => exact hmakes.ends hs h.preserves hsound hresult
  | ok p => trivial

theorem Confined.bounded (h : s.Confined nodes) (allowed : Nat) (origins : List Term) (k : Nat) :
    s.Bounded (s.closureSearch allowed) origins nodes.length k := by
  have hs := h.supplies_closureSearch allowed
  have hsound : s.Sound (Stays nodes) (s.Located nodes origins) (s.first origins k) :=
    h.sound_first k
  have hmakes := makes_searchFrom hs h.preserves h.bound hsound rfl rfl
  obtain ⟨queued, hnodup, hlocated, hsub⟩ :=
    hmakes.exists_queued hs h.preserves (fun a x => idle_closureSearch allowed a x) hsound
  refine ⟨hmakes, fun hgivenUp => ?_, ?_, ?_, ?_, ?_⟩
  · exact (h.ends_searchFrom allowed origins).of_error hgivenUp rfl
  · intro events st hpolls
    have hst := hsound.polls hs h.preserves hpolls
    exact ⟨hst.nodup, hst.order, length_le_of_located hst.nodup hst.kind⟩
  · exact hnodup.sublist (hsub.map Configuration.key)
  · exact hsub.length_le.trans (length_le_of_located hnodup hlocated)
  · intro close' hagree
    rw [searchFrom_congr]
    intro t ht kind a hlabel
    exact hagree a (h.nested ht hlabel).2

/-- An automaton in order and a graph that serves it, with no more nodes than it has announced. -/
structure Ready (s : Search) (G : Set Triple) (nodes : List Term) : Prop where
  valid : s.automaton.validate = .ok ()
  serves : s.graph.Serves G
  inside : ∀ x ∈ nodesOf G, x ∈ nodes
  bound : nodes.length ≤ s.graph.nodeBound

theorem Ready.confined (h : s.Ready G nodes) : s.Confined nodes where
  valid := h.valid
  bound := h.bound
  stays x branches := by
    have hstart : ∀ v, Endpoint.term x = .var v → ¬ v.IsFresh 0 := by
      intro v hv
      cases hv
    refine (returns_joinedPairs h.serves hstart fun _ => ⟨x, rfl⟩).ends.mono ?_
    intro pairs hpairs y hy
    obtain ⟨⟨x', y⟩, hpair, rfl⟩ := List.mem_map.mp hy
    obtain ⟨⟨is, _, hchain⟩, hadmits⟩ := (hpairs x' y).mp hpair
    rw [← Endpoint.admits_term.mp hadmits]
    rcases inside_chainRelation is x' y hchain with rfl | hin
    · exact Or.inl rfl
    · exact Or.inr (h.inside y hin.2)

theorem Ready.nested (h : s.Ready G nodes) {t : Transition} (ht : t ∈ s.automaton.transitions)
    {kind : Closure} {a : Automaton} (hlabel : t.label = .closure kind a) :
    (s.nested a).Ready G nodes :=
  ⟨(h.confined.nested ht hlabel).1.valid, h.serves, h.inside, h.bound⟩

theorem Ready.bounded (h : s.Ready G nodes) (allowed : Nat) (origins : List Term) (k : Nat) :
    s.Bounded (s.closureSearch allowed) origins nodes.length k :=
      h.confined.bounded allowed origins k

theorem ends_reflexive {E : Halt → Prop} (hE : ∀ fault, E (.fault fault)) (p : Progress) :
    (s.reflexive p).Ends E fun _ => True :=
  Ends.bind (ends_ask hE _ _ _) fun _ _ => ends_log _

end Search

namespace Evaluator
variable {e : Evaluator} {subject object : Endpoint} {path : CompiledPath}

/-- The searches that the evaluation of a pattern may conduct, each with the number of closures that
may be nested in it, its origins and the calls made before it: the search for the pattern itself,
and within a search those over the automata behind its closures, from any one term. -/
inductive Conducts (e : Evaluator) (subject : Endpoint) (path : CompiledPath) (object : Endpoint) :
    Search → Nat → List Term → Nat → Prop
  | main {origins : List Term} (k : Nat) :
      (e.originsFor subject path object 0).result = .ok origins →
        Conducts e subject path object (e.searchFor subject path object)
          (e.searchFor subject path object).options.maxNestingDepth origins k
  | nested {s : Search} {allowed : Nat} {origins : List Term} {k : Nat} {t : Transition}
      {kind : Closure} {a : Automaton} (x : Term) (j : Nat) :
      Conducts e subject path object s (allowed + 1) origins k → t ∈ s.automaton.transitions →
        t.label = .closure kind a → Conducts e subject path object (s.nested a) allowed [x] j

/-- Every search that is conducted has an automaton in order. -/
theorem Conducts.ready {G : Set Triple} {nodes : List Term}
    (h : (e.searchFor subject path object).Ready G nodes) {s : Search} {allowed : Nat}
    {origins : List Term} {k : Nat} (hs : e.Conducts subject path object s allowed origins k) :
    s.Ready G nodes := by
  induction hs with
  | main _ _ => exact h
  | nested _ _ _ ht hlabel ih => exact ih.nested ht hlabel

theorem idle_originsFor : (e.originsFor subject path object).Idle :=
  (composes_idle _ _).originsFor subject path object

theorem idle_closing (p : Progress) : (e.closing subject path object p).Idle :=
  withholds_closing (fun _ => rfl) (fun _ => rfl) e subject path object p

theorem ends_originsFor {E : Halt → Prop} (hE : ∀ fault, E (.fault fault)) :
    (e.originsFor subject path object).Ends E fun _ => True :=
  (composes_ends hE _ _).originsFor subject path object

theorem ends_closing {E : Halt → Prop} (hE : ∀ fault, E (.fault fault)) (p : Progress) :
    (e.closing subject path object p).Ends E fun _ => True := by
  unfold closing
  split
  · dsimp only
    split
    · exact Search.ends_reflexive hE p
    · exact ends_pure trivial
  · exact ends_pure trivial

theorem ends_evaluation_of_confined {nodes : List Term}
    (h : (e.searchFor subject path object).Confined nodes) :
    (e.evaluation subject path object).Ends (· ≠ .givenUp) fun _ => True := by
  have hE : ∀ fault, Halt.fault fault ≠ .givenUp := nofun
  rw [evaluation_eq]
  refine Ends.bind (ends_originsFor hE) ?_
  intro origins _
  exact Ends.bind (h.ends_searchFrom _ origins) fun p _ => ends_closing hE p

theorem ends_evaluation {G : Set Triple} {nodes : List Term}
    (h : (e.searchFor subject path object).Ready G nodes) :
    (e.evaluation subject path object).Ends (· ≠ .givenUp) fun _ => True :=
  ends_evaluation_of_confined h.confined

/-- What is expanded in an evaluation is expanded by the search for its pattern. -/
theorem exists_expansions {origins : List Term}
    (h : (e.originsFor subject path object 0).result = .ok origins) :
    ∃ k, (e.evaluateCompiled subject path object).expansions =
      ((e.searchFor subject path object).run origins k).expansions := by
  refine ⟨0 + Run.callCount (e.originsFor subject path object 0).events, ?_⟩
  rw [evaluateCompiled, evaluation_eq, expansions_bind_of_ok h, idle_originsFor 0, List.nil_append]
  exact expansions_bind_of_idle idle_closing

theorem validate_searchFor {t : PathTree} {optimize : Bool}
    (hpath : CompiledPath.ofTree t optimize = .ok path) :
    (e.searchFor subject path object).automaton.validate = .ok () := by
  obtain ⟨hforward, hbackward⟩ := CompiledPath.ofTree_implements hpath
  rcases e.automaton_searchFor subject path object with heq | heq
  · rw [heq]
    exact hforward.validate
  · rw [heq]
    exact hbackward.validate

theorem ready_searchFor (g : TripleStore) (context : CallContext) (options : EvaluationOptions)
    {t : PathTree} {optimize : Bool} (hpath : CompiledPath.ofTree t optimize = .ok path)
    (subject object : Endpoint) :
    (searchFor ⟨g.toService, context, options⟩ subject path object).Ready {t | t ∈ g.triples}
      g.nodes := by
  refine ⟨validate_searchFor hpath, ?_, fun x hx => TripleStore.mem_nodes.mpr hx, ?_⟩
  · rw [graph_searchFor]
    exact g.serves
  · rw [graph_searchFor]
    exact Nat.le_refl _

/-- Over a graph in memory no evaluation is given up, whatever the cycles are and wherever an option
stops it. What is expanded is expanded once, and so it is in every search that is conducted within;
each of them comes to its end, keeps to its bound and searches nothing behind its closures but
automata that are nested less deep. -/
theorem bounded_evaluation (g : TripleStore) (context : CallContext) (options : EvaluationOptions)
    {t : PathTree} {optimize : Bool} {path : CompiledPath}
    (hpath : CompiledPath.ofTree t optimize = .ok path) (subject object : Endpoint) :
    let e : Evaluator := ⟨g.toService, context, options⟩
    let run := e.evaluateCompiled subject path object
    run.result ≠ .error .givenUp ∧
      (∀ origins, (e.originsFor subject path object 0).result = .ok origins →
        (run.expansions.map Configuration.key).Nodup ∧ run.expansions.length ≤
          origins.length * (g.nodes.length + 1) *
            (e.searchFor subject path object).automaton.states.length) ∧
      ∀ s allowed origins k, e.Conducts subject path object s allowed origins k →
        s.Bounded (s.closureSearch allowed) origins g.nodes.length k := by
  intro e run
  have hready := ready_searchFor g context options hpath subject object
  refine ⟨?_, ?_, ?_⟩
  · exact fun hgivenUp => (ends_evaluation hready).of_error hgivenUp rfl
  · intro origins horigins
    obtain ⟨k, hexpansions⟩ := exists_expansions horigins
    have hbounded := hready.bounded
      (e.searchFor subject path object).options.maxNestingDepth origins k
    change (Run.expansions (e.evaluateCompiled subject path object) |>.map _).Nodup ∧
      (Run.expansions (e.evaluateCompiled subject path object)).length ≤ _
    rw [hexpansions]
    exact ⟨hbounded.expanded, hbounded.count⟩
  · exact fun s allowed origins k hs => (hs.ready hready).bounded allowed origins k

/-- Closures within each other over a cycle, with no limit. -/
theorem bounded_evaluation_closures_over_cycle :
    let p : PathTree := .property (.forward ⟨"p"⟩)
    let t : PathTree := .closure .zeroOrMore (.sequence [p, .closure .oneOrMore p])
    let ts : List Triple :=
      [⟨.iri ⟨"a"⟩, ⟨"p"⟩, .iri ⟨"b"⟩⟩, ⟨.iri ⟨"b"⟩, ⟨"p"⟩, .iri ⟨"a"⟩⟩]
    let g := TripleStore.ofTriples ts
    let e : Evaluator := ⟨g.toService, .default, {}⟩
    let subject : Endpoint := .var ⟨"x"⟩
    let object : Endpoint := .var ⟨"y"⟩
    ∃ path, CompiledPath.ofTree t true = .ok path ∧
      let run := e.evaluateCompiled subject path object
      run.result ≠ .error .givenUp ∧
        (∀ origins, (e.originsFor subject path object 0).result = .ok origins →
          (run.expansions.map Configuration.key).Nodup ∧ run.expansions.length ≤
            origins.length * (g.nodes.length + 1) *
              (e.searchFor subject path object).automaton.states.length) ∧
        ∀ s allowed origins k, e.Conducts subject path object s allowed origins k →
          s.Bounded (s.closureSearch allowed) origins g.nodes.length k := by
  intro p t ts g e subject object
  obtain ⟨path, hpath⟩ : ∃ path, CompiledPath.ofTree t true = .ok path :=
    CompiledPath.exists_ofTree rfl rfl true
  exact ⟨path, hpath, bounded_evaluation g .default {} hpath subject object⟩

end Evaluator

end PropertyPath
