import PropertyPath.Proofs.Automaton.Compiled
import PropertyPath.Proofs.Search.Distinct
import PropertyPath.Proofs.Search.Origins

/-!
# Evaluations answer path patterns

A pattern asks for the pairs that its path relates and its ends admit. Between two variables only
the nodes of the graph are looked at; with a term at one end, that term need not occur in the graph.
-/
namespace PropertyPath

/-- The pairs that a path pattern asks for in a graph. -/
structure PathExpr.Matches (path : PathExpr) (G : Set Triple) (subject object : Endpoint)
    (x y : Term) : Prop where
  related : path.relation G x y
  begins : subject.Admits x
  ends : object.Admits y
  same : ∀ v, subject = .var v → object = .var v → x = y
  inside : ∀ v w, subject = .var v → object = .var w → x ∈ nodesOf G ∧ y ∈ nodesOf G

namespace Evaluator
variable {G : Set Triple} {e : Evaluator} {path : PathExpr}

theorem unlimited_search (hg : e.graph.Serves G) (hdepth : e.options.maxSearchDepth = none)
    (hvisited : e.options.maxVisited = none) (a : Automaton) (target : Target) (backward : Bool) :
    (e.search a target backward).Unlimited G := ⟨hg, hdepth, hvisited⟩

/-- A search from the subject delivers the pairs that begin there and end where they may. -/
theorem matches_of_subject {a : Automaton} {depth : Nat} (ha : a.Implements (path.relation ·) depth)
    {target : Target} {s : Term} {object : Endpoint}
    (htarget : ∀ y, target.Allows s y ↔ object.Admits y) {x y : Term} :
    (∃ z, (e.search a target false).Finds G s z ∧ (e.search a target false).told (s, z) = ⟨x, y⟩) ↔
      path.Matches G (.term s) object x y := by
  constructor
  · intro hgiven
    rcases hgiven with ⟨z, ⟨hrelation, hallows⟩, htold⟩
    cases htold
    have hrelated : a.relation G s z := hrelation
    rw [ha.relation] at hrelated
    exact ⟨hrelated, Endpoint.admits_term.mpr rfl, (htarget z).mp hallows, nofun, nofun⟩
  · intro h
    obtain rfl := Endpoint.admits_term.mp h.begins
    refine ⟨y, ⟨?_, (htarget y).mpr h.ends⟩, rfl⟩
    change a.relation G x y
    rw [ha.relation]
    exact h.related

/-- A search from the object delivers the pairs that end there. -/
theorem matches_of_object {a : Automaton} {depth : Nat}
    (ha : a.Implements (fun G => flip (path.relation G)) depth) {v : Variable} {o x y : Term} :
    (∃ z, (e.search a .any true).Finds G o z ∧ (e.search a .any true).told (o, z) = ⟨x, y⟩) ↔
      path.Matches G (.var v) (.term o) x y := by
  constructor
  · intro hgiven
    rcases hgiven with ⟨z, ⟨hrelation, _⟩, htold⟩
    cases htold
    have hrelated : a.relation G o z := hrelation
    rw [ha.relation] at hrelated
    exact ⟨hrelated, Endpoint.admits_var, Endpoint.admits_term.mpr rfl, nofun, nofun⟩
  · intro h
    obtain rfl := Endpoint.admits_term.mp h.ends
    refine ⟨x, ⟨?_, trivial⟩, rfl⟩
    change a.relation G y x
    rw [ha.relation]
    exact h.related

/-- A search from anywhere delivers the pairs of nodes, or of a node with itself. -/
theorem matches_of_anywhere {a : Automaton} {depth : Nat}
    (ha : a.Implements (path.relation ·) depth)
    {v w : Variable} {x y : Term} :
    (∃ x' ∈ nodesOf G, ∃ y' ∈ nodesOf G,
      (e.search a (if v = w then .origin else .any) false).Finds G x' y' ∧
        (e.search a (if v = w then .origin else .any) false).told (x', y') = ⟨x, y⟩) ↔
      path.Matches G (.var v) (.var w) x y := by
  constructor
  · intro hgiven
    rcases hgiven with ⟨z, hz, u, hu, ⟨hrelation, hallows⟩, htold⟩
    cases htold
    have hrelated : a.relation G z u := hrelation
    rw [ha.relation] at hrelated
    refine ⟨hrelated, Endpoint.admits_var, Endpoint.admits_var, ?_, fun _ _ _ _ => ⟨hz, hu⟩⟩
    intro v' hv hw
    have hvw : v = w := (Endpoint.var.inj hv).trans (Endpoint.var.inj hw).symm
    have hallows' : Target.Allows (if v = w then .origin else .any) z u := hallows
    rw [if_pos hvw] at hallows'
    exact hallows'
  · intro h
    obtain ⟨hx, hy⟩ := h.inside v w rfl rfl
    refine ⟨x, hx, y, hy, ⟨?_, ?_⟩, rfl⟩
    · change a.relation G x y
      rw [ha.relation]
      exact h.related
    · change Target.Allows (if v = w then .origin else .any) x y
      split
      · next hvw => exact h.same v rfl (hvw ▸ rfl)
      · trivial

/-- From whichever end the path is followed, the pairs of the pattern are delivered. -/
theorem yields_evaluation (hg : e.graph.Serves G) (hdepth : e.options.maxSearchDepth = none)
    (hvisited : e.options.maxVisited = none)
    (hnesting : path.closureDepth ≤ e.options.maxNestingDepth)
    {c : CompiledPath} (hc : CompiledPath.ofExpr path e.options.optimize = .ok c)
    (subject object : Endpoint) :
    (e.evaluation subject c object).Yields fun solutions _ =>
      ∀ x y, ⟨x, y⟩ ∈ solutions ↔ path.Matches G subject object x y := by
  obtain ⟨hforward, hbackward⟩ := CompiledPath.ofExpr_implements hc
  have hs := unlimited_search hg hdepth hvisited
  have hnestingForward : c.forward.nesting ≤ e.options.maxNestingDepth := by
    have hle := hforward.nesting
    omega
  have hnestingBackward : c.backward.nesting ≤ e.options.maxNestingDepth := by
    have hle := hbackward.nesting
    omega
  cases subject with
  | term s =>
      cases object with
      | term o =>
          have htarget : ∀ y, (Target.term o).Allows s y ↔ (Endpoint.term o).Admits y := by
            intro y
            rw [Endpoint.admits_term, eq_comm]
            rfl
          refine (Search.yields_runFrom (hs c.forward (.term o) false) hforward.validate
            hnestingForward s).mono ?_
          intro solutions _ hsolutions x y
          rw [hsolutions]
          exact matches_of_subject hforward htarget
      | var w =>
          have htarget : ∀ y, Target.any.Allows s y ↔ (Endpoint.var w).Admits y :=
            fun y => ⟨fun _ => Endpoint.admits_var, fun _ => trivial⟩
          refine (Search.yields_runFrom (hs c.forward .any false) hforward.validate
            hnestingForward s).mono ?_
          intro solutions _ hsolutions x y
          rw [hsolutions]
          exact matches_of_subject hforward htarget
  | var v =>
      cases object with
      | term o =>
          refine (Search.yields_runFrom (hs c.backward .any true) hbackward.validate
            hnestingBackward o).mono ?_
          intro solutions _ hsolutions x y
          rw [hsolutions]
          exact matches_of_object hbackward
      | var w =>
          let target : Target := if v = w then .origin else .any
          have hreflexive : ∀ x, target.Allows x x := by
            intro x
            change Target.Allows (if v = w then .origin else .any) x x
            split
            · rfl
            · trivial
          refine (Search.yields_runAnywhere (hs c.forward target false) hforward.validate
            hnestingForward hforward.epsilonFree hreflexive).mono ?_
          intro solutions _ hsolutions x y
          rw [hsolutions]
          exact matches_of_anywhere hforward

/-- An evaluation over a graph in memory that neither depth nor number of visits limits, and that
may nest closures as deep as the path does, ends without a fault and delivers the pairs that its
pattern asks for, each of them once, optimized or not, terminated early or not, in any context. -/
theorem mem_solutions_evaluate (g : TripleStore) (context : CallContext)
    (options : EvaluationOptions)
    (hdepth : options.maxSearchDepth = none) (hvisited : options.maxVisited = none)
    {path : PathExpr} (hnesting : path.closureDepth ≤ options.maxNestingDepth) {c : CompiledPath}
    (hc : CompiledPath.ofExpr path options.optimize = .ok c) (subject object : Endpoint) :
    ∃ run, evaluate ⟨g.toService, context, options⟩ subject path object =
        .ok run ∧ run.result = .ok () ∧ run.solutions.Nodup ∧
      ∀ x y, ⟨x, y⟩ ∈ run.solutions ↔ path.Matches {t | t ∈ g.triples} subject object x y := by
  let e : Evaluator := ⟨g.toService, context, options⟩
  obtain ⟨_, hresult, hsolutions⟩ :=
    yields_evaluation (e := e) g.serves hdepth hvisited hnesting hc subject object 0
  have hnodup := e.nodup_evaluation subject c object 0
  refine ⟨e.evaluateCompiled subject c object, ?_, hresult, hnodup, hsolutions⟩
  rw [evaluate, hc]
  rfl

/-- Closures within each other that allow the empty path, over a cycle, between equal ends. -/
theorem mem_solutions_evaluate_closures_over_cycle :
    let path : PathExpr := .zeroOrMore (.sequence (.zeroOrOne (.iri ⟨"p"⟩))
      (.oneOrMore (.alternative (.reverse (.iri ⟨"q"⟩)) (.negatedSet [⟨"q"⟩]))))
    let ts : List Triple := [⟨.iri ⟨"a"⟩, ⟨"p"⟩, .iri ⟨"b"⟩⟩, ⟨.iri ⟨"b"⟩, ⟨"p"⟩, .iri ⟨"a"⟩⟩,
      ⟨.iri ⟨"c"⟩, ⟨"q"⟩, .iri ⟨"b"⟩⟩]
    let g := TripleStore.ofTriples ts
    let options : EvaluationOptions := { earlyTermination := false, maxNestingDepth := 2 }
    let subject : Endpoint := .var ⟨"x"⟩
    options.maxSearchDepth = none ∧ options.maxVisited = none ∧
      path.closureDepth ≤ options.maxNestingDepth ∧
      (∃ c, CompiledPath.ofExpr path options.optimize = .ok c) ∧
      ∃ run, evaluate ⟨g.toService, .default, options⟩ subject path subject =
          .ok run ∧ run.result = .ok () ∧ run.solutions.Nodup ∧
        ∀ x y, ⟨x, y⟩ ∈ run.solutions ↔ path.Matches {t | t ∈ g.triples} subject subject x y := by
  intro path ts g options subject
  have hnesting : path.closureDepth ≤ options.maxNestingDepth := Nat.le_refl 2
  obtain ⟨c, hc⟩ : ∃ c, CompiledPath.ofExpr path options.optimize = .ok c :=
    CompiledPath.exists_ofExpr (by decide) (by decide) options.optimize
  exact ⟨rfl, rfl, hnesting, ⟨c, hc⟩,
    mem_solutions_evaluate g .default options rfl rfl hnesting hc subject subject⟩

end Evaluator

end PropertyPath
