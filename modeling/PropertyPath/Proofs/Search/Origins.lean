import PropertyPath.Proofs.Automaton.Openings
import PropertyPath.Proofs.Search.Run

/-!
# A search from anywhere leaves no origin out

A walk that is not empty begins with a transition out of the initial state, and if that is a closure
then with a transition out of the initial state of its nested automaton, and so on. So its first
node is found when the starts of all these transitions are asked for. The empty walks are those of
the nodes of the graph, which are delivered at the end.
-/
namespace PropertyPath

namespace Search
variable {G : Set Triple} {s : Search} {p : Progress}

theorem not_isFresh_originVariable (k : Nat) : ¬ originVariable.IsFresh k :=
  Variable.not_isFresh_of_length (v := originVariable) (by decide) k

/-- The starts that are found are the terms from which one of the chains can be taken. -/
theorem returns_probeAll (hg : s.graph.Serves G) {openings : List (List (List Instruction))}
    (hne : ∀ branches ∈ openings, [] ∉ branches) :
    (s.probeAll openings).Returns fun xs => ∀ x, x ∈ xs ↔ Opens G openings x := by
  induction openings with
  | nil =>
      refine Evaluation.returns_pure ?_
      intro x
      simp [Opens]
  | cons branches openings ih =>
      obtain ⟨hfirst, hrest⟩ := List.forall_mem_cons.mp hne
      have hstart : ∀ v, Endpoint.var originVariable = .var v → ¬ v.IsFresh 0 := by
        intro v hv
        rw [← Endpoint.var.inj hv]
        exact not_isFresh_originVariable 0
      rw [probeAll]
      refine Evaluation.Returns.bind (returns_joinedPairs hg hstart fun h => absurd h hfirst) ?_
      intro pairs hpairs
      refine Evaluation.Returns.bind (ih hrest) ?_
      intro xs hxs
      refine Evaluation.returns_pure ?_
      intro x
      have hopens : x ∈ pairs.map (·.1) ↔ ∃ is ∈ branches, ∃ y, chainRelation G is x y := by
        rw [List.mem_map]
        constructor
        · intro hfound
          rcases hfound with ⟨⟨x, y⟩, hmem, rfl⟩
          obtain ⟨⟨is, his, hchain⟩, _⟩ := (hpairs x y).mp hmem
          exact ⟨is, his, y, hchain⟩
        · intro hpath
          rcases hpath with ⟨is, his, y, hchain⟩
          exact ⟨(x, y), (hpairs x y).mpr ⟨⟨is, his, hchain⟩, nofun⟩, rfl⟩
      rw [List.mem_append, hopens, hxs]
      simp only [Opens, List.mem_cons, exists_eq_or_imp]

/-- The origins are nodes, and every node from which a walk that is not empty leads somewhere is
one. -/
theorem returns_probe (hg : s.graph.Serves G) (hfree : s.automaton.EpsilonFree) :
    s.probe.Returns fun xs => (∀ x ∈ xs, x ∈ nodesOf G) ∧
      ∀ x y, s.automaton.relation G x y →
      s.automaton.isFinal Automaton.start = true ∧ x = y ∨ x ∈ xs := by
  have hne := Automaton.nil_notMem_openings hfree
  refine Evaluation.Returns.bind (returns_probeAll hg hne) ?_
  intro xs hxs
  refine Evaluation.returns_pure ⟨?_, ?_⟩
  · intro x hx
    rw [List.mem_eraseDups, hxs] at hx
    exact mem_nodesOf_of_opens hne hx
  · intro x y h
    rw [List.mem_eraseDups, hxs]
    exact hfree.opens_of_relation h

/-- Right answers to the pattern that every triple matches name all nodes. -/
theorem mem_tripleEnds {bs : List Bindings}
    (h : ConjunctiveQuery.Answered ⟨[anyTriple], []⟩ G bs) {x : Term} :
    x ∈ tripleEnds bs ↔ x ∈ nodesOf G := by
  have hends : ∀ b ∈ bs, ∃ t ∈ G, b.get? originVariable = some t.subject.toTerm ∧
      b.get? ⟨"_o"⟩ = some t.object := by
    intro b hb
    obtain ⟨t, ht, hfits⟩ := (h.sound b hb).patterns anyTriple List.mem_cons_self
    exact ⟨t, ht, hfits.subject, hfits.object⟩
  rw [tripleEnds, List.mem_flatMap]
  constructor
  · intro hgiven
    rcases hgiven with ⟨b, hb, hx⟩
    obtain ⟨t, ht, hsubject, hobject⟩ := hends b hb
    rw [hsubject, hobject] at hx
    have hx' : x = t.subject.toTerm ∨ x = t.object := by simpa using hx
    exact ⟨t, ht, hx'⟩
  · intro hboth
    rcases hboth with ⟨t, ht, hx⟩
    let σ : Valuation := fun v =>
      if v = originVariable then t.subject.toTerm
      else if v = ⟨"_p"⟩ then .iri t.predicate else t.object
    have hholds : ConjunctiveQuery.Holds ⟨[anyTriple], []⟩ G σ := by
      refine ⟨?_, nofun⟩
      intro q hq
      rw [List.mem_singleton.mp hq]
      exact ⟨t, ht, rfl, rfl, rfl⟩
    obtain ⟨b, hb, hagrees⟩ := h.complete σ hholds
    obtain ⟨u, _, hsubject, hobject⟩ := hends b hb
    have hs : t.subject.toTerm = u.subject.toTerm := hagrees _ _ hsubject
    have ho : t.object = u.object := hagrees _ _ hobject
    refine ⟨b, hb, ?_⟩
    rw [hsubject, hobject, ← hs, ← ho]
    simpa using hx

/-- In the end every node of the graph has been delivered with itself, at the end or before. -/
theorem yields_reflexive (hg : s.graph.Serves G) (p : Progress) :
    (s.reflexive p).Yields fun solutions _ => ∀ t, t ∈ solutions ↔
      t.subject = t.object ∧ t.subject ∈ nodesOf G ∧
      (t.subject, t.subject) ∉ p.visits.delivered := by
  refine Evaluation.Returns.bind (Evaluation.returns_ask fun k => hg.bgp k [anyTriple] s.context) ?_
  intro bs hbs
  refine (Evaluation.yields_deliver _).mono ?_
  intro _ _ heq t
  subst heq
  rw [Visits.mem_deliverReflexive, mem_tripleEnds hbs]

theorem yields_runFrom (hs : s.Unlimited G) (hvalid : s.automaton.validate = .ok ())
    (hnesting : s.automaton.nesting ≤ s.options.maxNestingDepth) (x : Term) :
    (s.runFrom x).Yields fun solutions _ => ∀ t, t ∈ solutions ↔
      ∃ y, s.Finds G x y ∧ s.told (x, y) = t := by
  refine Evaluation.Yields.bind (yields_run hs hvalid hnesting [x]) ?_
  intro solutions p h
  rcases h with ⟨htells, hcovers⟩
  refine Evaluation.yields_pure ?_
  intro t
  rw [List.append_nil, hcovers.mem_solutions htells]
  simp

/-- From nodes of the graph only nodes of the graph are reached. -/
theorem Finds.mem_nodesOf {x y : Term} (h : s.Finds G x y) (hx : x ∈ nodesOf G) :
    y ∈ nodesOf G := by
  rcases Automaton.inside_relation s.automaton x y h.1 with heq | hin
  · exact heq ▸ hx
  · exact hin.2

/-- What is delivered at the end, when the empty walk is accepted, completes what is found. -/
theorem yields_reflexive_of_covers (hg : s.graph.Serves G) {xs : List Term}
    {solutions : List Solution}
    (hcovers : s.Covers G xs p) (htells : s.Tells s.start solutions p)
    (hnodes : ∀ x ∈ xs, x ∈ nodesOf G) (hrelation : ∀ x, s.Finds G x x)
    (hopens : ∀ x y, s.Finds G x y → x = y ∨ x ∈ xs) :
    (s.reflexive p).Yields fun more _ => ∀ t, t ∈ solutions ++ more ↔
      ∃ x ∈ nodesOf G, ∃ y ∈ nodesOf G, s.Finds G x y ∧ s.told (x, y) = t := by
  refine (yields_reflexive hg p).mono ?_
  intro more _ hmore t
  rw [List.mem_append, hmore, hcovers.mem_solutions htells]
  constructor
  · intro h
    rcases h with ⟨x, hx, y, hfinds, htold⟩ | ⟨heq, hnode, _⟩
    · exact ⟨x, hnodes x hx, y, hfinds.mem_nodesOf (hnodes x hx), hfinds, htold⟩
    · refine ⟨t.subject, hnode, t.subject, hnode, hrelation _, ?_⟩
      rw [told_self]
      cases t
      cases heq
      rfl
  · intro h
    rcases h with ⟨x, hx, y, _, hfinds, rfl⟩
    rcases hopens x y hfinds with rfl | hx'
    · by_cases hmem : (x, x) ∈ p.visits.delivered
      · obtain ⟨hx', _⟩ := (hcovers.delivered x x).mp hmem
        exact Or.inl ⟨x, hx', x, hfinds, rfl⟩
      · rw [told_self]
        exact Or.inr ⟨rfl, hx, hmem⟩
    · exact Or.inl ⟨x, hx', y, hfinds, rfl⟩

/-- A search from anywhere finds what it is for among the nodes of the graph. -/
theorem yields_runAnywhere (hs : s.Unlimited G) (hvalid : s.automaton.validate = .ok ())
    (hnesting : s.automaton.nesting ≤ s.options.maxNestingDepth) (hfree : s.automaton.EpsilonFree)
    (hreflexive : ∀ x, s.target.Allows x x) :
    s.runAnywhere.Yields fun solutions _ => ∀ t, t ∈ solutions ↔
      ∃ x ∈ nodesOf G, ∃ y ∈ nodesOf G, s.Finds G x y ∧ s.told (x, y) = t := by
  refine Evaluation.Returns.bind (returns_probe hs.serves hfree) ?_
  intro xs h
  rcases h with ⟨hnodes, hopens⟩
  refine Evaluation.Yields.bind (yields_run hs hvalid hnesting xs) ?_
  intro solutions p h
  rcases h with ⟨htells, hcovers⟩
  rw [Automaton.isNullable_iff hvalid]
  cases hfinal : s.automaton.isFinal Automaton.start with
  | true =>
      refine yields_reflexive_of_covers hs.serves hcovers htells hnodes ?_ ?_
      · intro x
        refine ⟨?_, hreflexive x⟩
        rw [Automaton.relation_eq]
        exact Automaton.leads_of_final hfinal
      · intro x y hfinds
        rcases hopens x y hfinds.1 with ⟨_, heq⟩ | hx
        · exact Or.inl heq
        · exact Or.inr hx
  | false =>
      refine Evaluation.yields_pure ?_
      intro t
      rw [List.append_nil, hcovers.mem_solutions htells]
      constructor
      · intro h
        rcases h with ⟨x, hx, y, hfinds, htold⟩
        exact ⟨x, hnodes x hx, y, hfinds.mem_nodesOf (hnodes x hx), hfinds, htold⟩
      · intro h
        rcases h with ⟨x, _, y, _, hfinds, htold⟩
        rcases hopens x y hfinds.1 with ⟨htrue, _⟩ | hx
        · rw [hfinal] at htrue
          cases htrue
        · exact ⟨x, hx, y, hfinds, htold⟩

end Search

end PropertyPath
