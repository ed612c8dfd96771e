import PropertyPath.Proofs.Search.Bounds
import PropertyPath.Proofs.Search.Evaluator
import PropertyPath.Proofs.Search.Levels

/-!
# What a limit on the depth leaves of an answer

Over a graph that answers rightly, with nothing that limits the visits, a search finds the nodes
that runs within the limit on the depth lead to, and so does every search behind a closure. It fails
for no other reason than that closures are nested too deep.
-/
namespace PropertyPath
open Evaluation

namespace Search
variable {G : Set Triple} {s : Search} {x y : Term}

/-- The pairs that a search is for, when the depth is limited. -/
def Meets (s : Search) (hop : List (List Instruction) → Term → Term → Prop) (x y : Term) : Prop :=
  s.automaton.within hop s.options.maxSearchDepth x y ∧ s.target.Allows x y

/-- The nodes are those that a step within the limit passes to. -/
def Passed (s : Search) (G : Set Triple) (l : Label) (x : Term) (ys : List Term) : Prop :=
  ∀ y, y ∈ ys ↔ l.within (joined G) s.options.maxSearchDepth x y

/-- More closures are nested in what has this nesting than are allowed. -/
def TooNested (s : Search) (allowed nesting : Nat) (stop : Halt) : Prop :=
  stop = .givenUp ∨ allowed < nesting ∧ stop = .fault (.nestingTooDeep s.options.maxNestingDepth)

theorem Stalls.tooNested {hop : List (List Instruction) → Term → Term → Prop} {allowed : Nat}
    {origins : List Term} {stop : Halt} (hvisited : s.options.maxVisited = none)
    (h : s.Stalls hop (fun l _ => s.TooNested allowed l.nesting) origins stop) :
    s.TooNested allowed s.automaton.nesting stop := by
  rcases h with ⟨l, y, hcomes, hgivenUp | ⟨hlt, hstop⟩⟩ | ⟨limit, _, hlimit, _⟩
  · exact Or.inl hgivenUp
  · obtain ⟨_, _, _, _, _, _, t, ht, _, rfl⟩ := hcomes
    have hle := Automaton.nesting_le_iff.mp (Nat.le_refl s.automaton.nesting) t ht
    exact Or.inr ⟨Nat.lt_of_lt_of_le hlt hle, hstop⟩
  · rw [hvisited] at hlimit
    cases hlimit

theorem passes_passed (s : Search) (G : Set Triple) : s.Passes (joined G) (s.Passed G) :=
  fun _ _ _ h => h

theorem provides_of_closures (hg : s.graph.Serves G) {close : ClosureSearch}
    {E : Label → Term → Halt → Prop}
    (hclose : ∀ t ∈ s.automaton.transitions, ∀ kind nested, t.label = .closure kind nested → ∀ x,
      (close nested x).Ends (E t.label x) (s.Passed G t.label x)) :
    s.Provides close E (s.Passed G) where
  closures := hclose
  branches t _ branches hbranches x := by
    refine (returns_joinedPairs_of_branches hg hbranches x).ends.mono ?_
    intro pairs hpairs y
    rw [hpairs, Label.within_of_branches hbranches, Label.relation_of_branches hbranches]
    exact Iff.rfl

/-- Why the searches behind closures may stop, when so many closures may still be nested and the
automata are of a kind. -/
structure Excuses (s : Search) (G : Set Triple) (kind : Automaton → Prop)
    (E : Nat → Label → Halt → Prop) : Prop where
  nested : ∀ a, kind a → ∀ t ∈ a.transitions, ∀ k b, t.label = .closure k b → kind b
  givenUp : ∀ allowed l, E allowed l .givenUp
  none : ∀ k a, E 0 (.closure k a) (.fault (.nestingTooDeep s.options.maxNestingDepth))
  stalls : ∀ allowed k a x stop, kind a →
    (s.nested a).Stalls (joined G) (fun l _ => E allowed l) [x] stop →
    E (allowed + 1) (.closure k a) stop

/-- By induction on the closures that may still be nested. -/
theorem Excuses.provides (hg : s.graph.Serves G) {kind : Automaton → Prop}
    {E : Nat → Label → Halt → Prop} (h : s.Excuses G kind E)
    (ha : kind s.automaton) (allowed : Nat) :
    s.Provides (s.closureSearch allowed) (fun l _ => E allowed l) (s.Passed G) := by
  induction allowed generalizing s with
  | zero =>
      refine provides_of_closures hg ?_
      intro t _ k a hlabel x
      rw [hlabel]
      exact ends_fail (h.none k a)
  | succ allowed ih =>
      refine provides_of_closures hg ?_
      intro t ht k a hlabel x
      have hkind : kind a := h.nested s.automaton ha t ht k a hlabel
      have hs := ih (s := s.nested a) hg ⟨h.nested, h.givenUp, h.none, h.stalls⟩ hkind
      rw [closureSearch_nested] at hs
      rw [hlabel]
      refine (ends_closureSearch_succ hs (passes_passed _ G) x).imp ?_ ?_
      · rintro stop (rfl | hstalls)
        · exact h.givenUp _ _
        · exact h.stalls allowed k a x stop hkind hstalls
      · intro ys h y
        rw [h.1, Label.within_closure]

theorem provides_closureSearch (hg : s.graph.Serves G) (hvisited : s.options.maxVisited = none)
    (allowed : Nat) :
    s.Provides (s.closureSearch allowed) (fun l _ => s.TooNested allowed l.nesting)
      (s.Passed G) := by
  have hexcuses : s.Excuses G (fun _ => True) fun n l => s.TooNested n l.nesting := by
    refine ⟨fun _ _ _ _ _ _ _ => trivial, fun _ _ => Or.inl rfl, ?_, ?_⟩
    · exact fun _ _ => Or.inr ⟨Nat.succ_pos _, rfl⟩
    · intro allowed k a x stop _ hstalls
      refine (Stalls.tooNested (s := s.nested a) hvisited hstalls).imp_right ?_
      exact fun h => ⟨Nat.succ_lt_succ h.1, h.2⟩
  exact hexcuses.provides hg trivial allowed

/-- What a search of some origins delivers, and why it may fail. -/
def Answers (s : Search) (G : Set Triple) (origins : List Term) (solutions : List Solution) :
    Except Halt Progress → Prop
  | .ok p => (∀ x y, (x, y) ∈ p.visits.delivered ↔ x ∈ origins ∧ s.Meets (joined G) x y) ∧
      ∀ t, t ∈ solutions ↔ ∃ x ∈ origins, ∃ y, s.Meets (joined G) x y ∧ s.told (x, y) = t
  | .error stop => s.TooNested s.options.maxNestingDepth s.automaton.nesting stop

theorem finishes_run_depth (hg : s.graph.Serves G) (hvisited : s.options.maxVisited = none)
    (origins : List Term) : (s.run origins).Finishes (s.Answers G origins) := by
  have hs := provides_closureSearch hg hvisited s.options.maxNestingDepth
  refine (finishes_searchFrom_levels hs (passes_passed s G)
    (fun a x => silent_closureSearch _ a x) origins).mono ?_
  intro solutions r hr
  cases r with
  | error stop =>
      rcases hr with hgivenUp | hstalls
      · exact Or.inl hgivenUp
      · exact hstalls.tooNested hvisited
  | ok p =>
      obtain ⟨⟨last, hlast, rfl⟩, htells⟩ := hr
      have hdelivered : ∀ x y, (x, y) ∈ last.progress.visits.delivered ↔
          x ∈ origins ∧ s.Meets (joined G) x y := fun x y => hlast.mem_delivered (passes_passed s G)
      refine ⟨hdelivered, ?_⟩
      intro t
      rw [htells]
      constructor
      · intro h
        rcases h with ⟨⟨x, y⟩, hpair, htold⟩
        obtain ⟨hx, hmeets⟩ := (hdelivered x y).mp hpair
        exact ⟨x, hx, y, hmeets, htold⟩
      · intro h
        rcases h with ⟨x, hx, y, hmeets, htold⟩
        exact ⟨(x, y), (hdelivered x y).mpr ⟨hx, hmeets⟩, htold⟩

/-- The solutions of a run that ends well are those of a kind, and otherwise closures are too
nested. -/
def Selects (s : Search) (Q : Solution → Prop) (solutions : List Solution) : Except Halt Unit → Prop
  | .ok _ => ∀ t, t ∈ solutions ↔ Q t
  | .error stop => s.TooNested s.options.maxNestingDepth s.automaton.nesting stop

theorem finishes_runFrom_depth (hg : s.graph.Serves G) (hvisited : s.options.maxVisited = none)
    (x : Term) : (s.runFrom x).Finishes
      (s.Selects fun t => ∃ y, s.Meets (joined G) x y ∧ s.told (x, y) = t) := by
  refine Finishes.bind (finishes_run_depth hg hvisited [x]) ?_ fun _ _ hstop => hstop
  intro solutions p h
  refine finishes_pure ?_
  intro t
  rw [List.append_nil, h.2]
  simp

theorem Meets.relation (h : s.Meets (joined G) x y) : s.automaton.relation G x y :=
  Automaton.relation_of_within h.1

theorem Meets.mem_nodesOf (h : s.Meets (joined G) x y) (hx : x ∈ nodesOf G) : y ∈ nodesOf G :=
  Automaton.mem_nodesOf_of_within h.1 hx

theorem meets_self (hfinal : s.automaton.isFinal Automaton.start = true)
    (hallows : s.target.Allows x x) :
    s.Meets (joined G) x x :=
  ⟨Automaton.within_iff.mpr ⟨0, _,
    fun _ _ => Nat.zero_le _, hfinal, Automaton.reaches_zero.mpr rfl⟩,
    hallows⟩

/-- A search from anywhere finds what it is for among the nodes of the graph. -/
theorem finishes_runAnywhere_depth (hg : s.graph.Serves G) (hvisited : s.options.maxVisited = none)
    (hvalid : s.automaton.validate = .ok ()) (hfree : s.automaton.EpsilonFree)
    (hreflexive : ∀ x, s.target.Allows x x) : s.runAnywhere.Finishes
      (s.Selects fun t =>
        ∃ x ∈ nodesOf G, ∃ y ∈ nodesOf G, s.Meets (joined G) x y ∧ s.told (x, y) = t) := by
  refine Returns.bind_finishes (returns_probe hg hfree) ?_
  intro xs h
  rcases h with ⟨hnodes, hopens⟩
  refine Finishes.bind (finishes_run_depth hg hvisited xs) ?_ fun _ _ hstop => hstop
  intro solutions p h
  obtain ⟨hdelivered, hsolutions⟩ := h
  rw [Automaton.isNullable_iff hvalid]
  cases hfinal : s.automaton.isFinal Automaton.start with
  | false =>
      refine finishes_pure ?_
      intro t
      rw [List.append_nil, hsolutions]
      constructor
      · intro h
        rcases h with ⟨x, hx, y, hmeets, htold⟩
        exact ⟨x, hnodes x hx, y, hmeets.mem_nodesOf (hnodes x hx), hmeets, htold⟩
      · intro h
        rcases h with ⟨x, _, y, _, hmeets, htold⟩
        rcases hopens x y hmeets.relation with ⟨htrue, _⟩ | hx
        · rw [hfinal] at htrue
          cases htrue
        · exact ⟨x, hx, y, hmeets, htold⟩
  | true =>
      refine Finishes.mono (yields_reflexive hg p) ?_
      intro more r h
      obtain ⟨_, rfl, hmore⟩ := h
      intro t
      rw [List.mem_append, hmore, hsolutions]
      constructor
      · intro h
        rcases h with ⟨x, hx, y, hmeets, htold⟩ | ⟨heq, hnode, _⟩
        · exact ⟨x, hnodes x hx, y, hmeets.mem_nodesOf (hnodes x hx), hmeets, htold⟩
        · refine ⟨t.subject, hnode, t.subject, hnode, meets_self hfinal (hreflexive _), ?_⟩
          rw [told_self]
          cases t
          cases heq
          rfl
      · intro h
        rcases h with ⟨x, hx, y, _, hmeets, rfl⟩
        rcases hopens x y hmeets.relation with ⟨_, rfl⟩ | hx'
        · by_cases hmem : (x, x) ∈ p.visits.delivered
          · exact Or.inl ⟨x, ((hdelivered x x).mp hmem).1, x, hmeets, rfl⟩
          · rw [told_self]
            exact Or.inr ⟨rfl, hx, hmem⟩
        · exact Or.inl ⟨x, hx', y, hmeets, rfl⟩

end Search

/-- The pairs that a pattern asks for, when the depth is limited. -/
def CompiledPath.Attains (path : CompiledPath) (G : Set Triple) (limit : Option Nat) :
    Endpoint → Endpoint → Term → Term → Prop
  | .term s, .term o => fun x y => x = s ∧ y = o ∧ path.forward.within (joined G) limit x y
  | .term s, .var _ => fun x y => x = s ∧ path.forward.within (joined G) limit x y
  | .var _, .term o => fun x y => y = o ∧ path.backward.within (joined G) limit y x
  | .var v, .var w => fun x y => x ∈ nodesOf G ∧ y ∈ nodesOf G ∧ (v = w → x = y) ∧
      path.forward.within (joined G) limit x y

namespace Evaluator
variable {G : Set Triple} {e : Evaluator} {t : PathTree} {optimize : Bool} {path : CompiledPath}

/-- What an evaluation delivers when it ends well; otherwise it is given up, or closures are nested
deeper than is allowed. -/
def Reports (e : Evaluator) (nesting : Nat) (Q : Term → Term → Prop) (solutions : List Solution) :
    Except Halt Unit → Prop
  | .ok _ => ∀ x y, ⟨x, y⟩ ∈ solutions ↔ Q x y
  | .error stop => stop = .givenUp ∨ e.options.maxNestingDepth < nesting ∧
      stop = .fault (.nestingTooDeep e.options.maxNestingDepth)

theorem reports_of_selects {a : Automaton} {target : Target} {backward : Bool} {nesting : Nat}
    {R : Solution → Prop} {Q : Term → Term → Prop}
    {solutions : List Solution} {r : Except Halt Unit}
    (h : (e.search a target backward).Selects R solutions r) (hnesting : a.nesting ≤ nesting)
    (hsame : ∀ x y, R ⟨x, y⟩ ↔ Q x y) : e.Reports nesting Q solutions r := by
  cases r with
  | ok _ =>
      intro x y
      rw [h, hsame]
  | error stop => exact h.imp_right fun hdeep => ⟨Nat.lt_of_lt_of_le hdeep.1 hnesting, hdeep.2⟩

theorem finishes_evaluation_depth (hg : e.graph.Serves G) (hvisited : e.options.maxVisited = none)
    (hpath : CompiledPath.ofTree t optimize = .ok path) (subject object : Endpoint) :
    (e.evaluation subject path object).Finishes
      (e.Reports t.closureDepth (path.Attains G e.options.maxSearchDepth subject object)) := by
  obtain ⟨hforward, hbackward⟩ := CompiledPath.ofTree_implements hpath
  cases subject with
  | term s =>
      cases object with
      | term o =>
          have hruns := Search.finishes_runFrom_depth (s := e.search path.forward (.term o) false)
            hg hvisited s
          refine hruns.mono fun solutions r hr => reports_of_selects hr hforward.nesting ?_
          intro x y
          constructor
          · intro h
            rcases h with ⟨z, ⟨hwithin, hallows⟩, htold⟩
            cases htold
            exact ⟨rfl, Eq.symm hallows, hwithin⟩
          · intro h
            rcases h with ⟨rfl, rfl, hwithin⟩
            exact ⟨y, ⟨hwithin, rfl⟩, rfl⟩
      | var w =>
          have hruns := Search.finishes_runFrom_depth (s := e.search path.forward .any false)
            hg hvisited s
          refine hruns.mono fun solutions r hr => reports_of_selects hr hforward.nesting ?_
          intro x y
          constructor
          · intro h
            rcases h with ⟨z, ⟨hwithin, _⟩, htold⟩
            cases htold
            exact ⟨rfl, hwithin⟩
          · intro h
            rcases h with ⟨rfl, hwithin⟩
            exact ⟨y, ⟨hwithin, trivial⟩, rfl⟩
  | var v =>
      cases object with
      | term o =>
          have hruns := Search.finishes_runFrom_depth (s := e.search path.backward .any true)
            hg hvisited o
          refine hruns.mono fun solutions r hr => reports_of_selects hr hbackward.nesting ?_
          intro x y
          constructor
          · intro h
            rcases h with ⟨z, ⟨hwithin, _⟩, htold⟩
            cases htold
            exact ⟨rfl, hwithin⟩
          · intro h
            rcases h with ⟨rfl, hwithin⟩
            exact ⟨x, ⟨hwithin, trivial⟩, rfl⟩
      | var w =>
          let target : Target := if v = w then .origin else .any
          have hallows : ∀ x y, target.Allows x y ↔ (v = w → x = y) := by
            intro x y
            change Target.Allows (if v = w then .origin else .any) x y ↔ _
            split
            · next heq => exact ⟨fun h _ => h, fun h => h heq⟩
            · next hne => exact ⟨fun _ heq => absurd heq hne, fun _ => trivial⟩
          have hruns := Search.finishes_runAnywhere_depth (s := e.search path.forward target false)
            hg hvisited hforward.validate hforward.epsilonFree fun x =>
              (hallows x x).mpr fun _ => rfl
          refine hruns.mono fun solutions r hr => reports_of_selects hr hforward.nesting ?_
          intro x y
          constructor
          · intro h
            rcases h with ⟨z, hz, u, hu, ⟨hwithin, hallowed⟩, htold⟩
            cases htold
            exact ⟨hz, hu, (hallows z u).mp hallowed, hwithin⟩
          · intro h
            rcases h with ⟨hx, hy, hsame, hwithin⟩
            exact ⟨x, hx, y, hy, ⟨hwithin, (hallows x y).mpr hsame⟩, rfl⟩

/-- Every evaluation of the path ends well, and delivers what its pattern asks for within the limit
on the depth. -/
def Settles (e : Evaluator) (path : CompiledPath) (G : Set Triple) : Prop :=
  ∀ subject object, (e.evaluateCompiled subject path object).result = .ok () ∧
    ∀ x y, ⟨x, y⟩ ∈ (e.evaluateCompiled subject path object).solutions ↔
      path.Attains G e.options.maxSearchDepth subject object x y

section store
variable (g : TripleStore) (context : CallContext) {options : EvaluationOptions}
  (hvisited : options.maxVisited = none) (hpath : CompiledPath.ofTree t optimize = .ok path)
include hvisited hpath

theorem reports_evaluateCompiled (subject object : Endpoint) :
    Reports ⟨g.toService, context, options⟩ t.closureDepth
      (path.Attains {t | t ∈ g.triples} options.maxSearchDepth subject object)
      (evaluateCompiled ⟨g.toService, context, options⟩
        subject path object).solutions
      (evaluateCompiled ⟨g.toService, context, options⟩
        subject path object).result :=
  finishes_evaluation_depth (g.serves) hvisited hpath subject object 0

/-- Over a graph in memory, a run that does not nest closures too deep ends well, and delivers what
its pattern asks for within the limit on the depth. -/
theorem evaluateCompiled_depth {subject object : Endpoint}
    (hnesting : ∀ limit, (evaluateCompiled ⟨g.toService, context, options⟩
      subject path object).result ≠ .error (.fault (.nestingTooDeep limit))) :
    let run := evaluateCompiled ⟨g.toService, context, options⟩
      subject path object
    run.result = .ok () ∧ ∀ x y, ⟨x, y⟩ ∈ run.solutions ↔
      path.Attains {t | t ∈ g.triples} options.maxSearchDepth subject object x y := by
  intro run
  have hreports : Reports ⟨g.toService, context, options⟩ t.closureDepth
      (path.Attains {t | t ∈ g.triples} options.maxSearchDepth subject object)
        run.solutions run.result :=
    reports_evaluateCompiled g context hvisited hpath subject object
  have hgivenUp : run.result ≠ .error .givenUp := fun heq =>
    (ends_evaluation (ready_searchFor g context options hpath subject object)).of_error heq rfl
  cases hresult : run.result with
  | ok _ =>
      rw [hresult] at hreports
      exact ⟨rfl, hreports⟩
  | error stop =>
      rw [hresult] at hreports hgivenUp
      rcases hreports with rfl | ⟨_, rfl⟩
      · exact absurd rfl hgivenUp
      · exact absurd hresult (hnesting _)

theorem settles_of_nesting (hnesting : ∀ subject object limit,
    (evaluateCompiled ⟨g.toService, context, options⟩
      subject path object).result ≠ .error (.fault (.nestingTooDeep limit))) :
    Settles ⟨g.toService, context, options⟩ path {t | t ∈ g.triples} :=
  fun subject object => evaluateCompiled_depth g context hvisited hpath (hnesting subject object)

/-- A path whose closures are not nested deeper than is allowed nests none too deep. -/
theorem result_ne_nestingTooDeep (hdepth : t.closureDepth ≤ options.maxNestingDepth)
    (subject object : Endpoint) (limit : Nat) :
    (evaluateCompiled ⟨g.toService, context, options⟩
      subject path object).result ≠ .error (.fault (.nestingTooDeep limit)) := by
  intro hresult
  have hreports := reports_evaluateCompiled g context hvisited hpath subject object
  rw [hresult] at hreports
  rcases hreports with hgivenUp | ⟨hlt, _⟩
  · cases hgivenUp
  · exact absurd hlt (Nat.not_lt_of_ge hdepth)

end store

end Evaluator

end PropertyPath
