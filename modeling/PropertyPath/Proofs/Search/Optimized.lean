import PropertyPath.Proofs.Reduction.Shortening
import PropertyPath.Proofs.Search.Depth

/-!
# Limits on the depth when automata are optimized

An optimized automaton has a condensed run for every run of the automaton that it is made from. So a
limit on the depth leaves at least the pairs that it leaves of the path as it is, and all of these
are pairs of the path.
-/
namespace PropertyPath

/-- A path that is compiled can be optimized, and its runs are condensed then. -/
theorem PathTree.exists_compile_optimized {t : PathTree} {forward : Bool} {a : Automaton}
    (h : t.compile false forward = .ok a) :
    ∃ b, t.compile true forward = .ok b ∧ b.Condenses a := by
  have hvalid := (compile_implements h).validate
  simp only [compile, Bool.false_eq_true, if_false, bind_eq_ok_iff, pure_eq_ok_iff] at h
  obtain ⟨normal, hnormal, a', ha, rfl⟩ := h
  obtain ⟨b, hb, _⟩ := Automaton.optimize_reduct Pass.all hvalid
  refine ⟨b, ?_, Automaton.optimize_condenses Pass.all hvalid hb⟩
  simp only [compile, if_true, bind_eq_ok_iff]
  exact ⟨normal, hnormal, a', ha, hb⟩

namespace CompiledPath
variable {t : PathTree} {plain optimized path path' : CompiledPath} {G : Set Triple}
  {limit limit' : Option Nat} {subject object : Endpoint} {x y : Term}

/-- From either end, runs of the second path are condensed to runs of the first one. -/
structure Condenses (optimized plain : CompiledPath) : Prop where
  forward : optimized.forward.Condenses plain.forward
  backward : optimized.backward.Condenses plain.backward

theorem exists_optimized (h : ofTree t false = .ok plain) :
    ∃ optimized, ofTree t true = .ok optimized ∧ optimized.Condenses plain := by
  simp only [ofTree, bind_eq_ok_iff, pure_eq_ok_iff] at h
  obtain ⟨forward, hforward, backward, hbackward, rfl⟩ := h
  obtain ⟨forward', hforward', hcondenses⟩ := PathTree.exists_compile_optimized hforward
  obtain ⟨backward', hbackward', hcondenses'⟩ := PathTree.exists_compile_optimized hbackward
  refine ⟨⟨t, forward', backward'⟩, ?_, hcondenses, hcondenses'⟩
  simp only [ofTree, bind_eq_ok_iff, pure_eq_ok_iff]
  exact ⟨forward', hforward', backward', hbackward', rfl⟩

/-- What is asked of a pattern goes over from one path to another if it does for their automata. -/
theorem Attains.imp
    (hforward : ∀ x y, path.forward.within (joined G) limit x y →
      path'.forward.within (joined G) limit' x y)
    (hbackward : ∀ x y, path.backward.within (joined G) limit x y →
      path'.backward.within (joined G) limit' x y)
    (h : path.Attains G limit subject object x y) : path'.Attains G limit' subject object x y := by
  cases subject with
  | term s =>
      cases object with
      | term o => exact ⟨h.1, h.2.1, hforward x y h.2.2⟩
      | var w => exact ⟨h.1, hforward x y h.2⟩
  | var v =>
      cases object with
      | term o => exact ⟨h.1, hbackward y x h.2⟩
      | var w => exact ⟨h.1, h.2.1, h.2.2.1, hforward x y h.2.2.2⟩

theorem Condenses.attains (h : optimized.Condenses plain)
    (hattains : plain.Attains G limit subject object x y) :
    optimized.Attains G limit subject object x y :=
  hattains.imp (fun _ _ => h.forward.within) fun _ _ => h.backward.within

theorem Attains.unlimited (h : path.Attains G limit subject object x y) :
    path.Attains G none subject object x y :=
  h.imp (fun _ _ => Automaton.within_mono (noTighter_none limit))
    fun _ _ => Automaton.within_mono (noTighter_none limit)

/-- Without a limit, it does not matter how a path is compiled. -/
theorem attains_none_iff {optimize optimize' : Bool} (h : ofTree t optimize = .ok path)
    (h' : ofTree t optimize' = .ok path') :
    path.Attains G none subject object x y ↔ path'.Attains G none subject object x y := by
  obtain ⟨hforward, hbackward⟩ := ofTree_implements h
  obtain ⟨hforward', hbackward'⟩ := ofTree_implements h'
  have hsame (u v : Term) :
      path.forward.within (joined G) none u v ↔ path'.forward.within (joined G) none u v := by
    rw [Automaton.within_none_iff, Automaton.within_none_iff, hforward.relation, hforward'.relation]
  have hsame' (u v : Term) :
      path.backward.within (joined G) none u v ↔ path'.backward.within (joined G) none u v := by
    rw [Automaton.within_none_iff, Automaton.within_none_iff,
      hbackward.relation, hbackward'.relation]
  constructor
  · exact Attains.imp (fun u v => (hsame u v).mp) fun u v => (hsame' u v).mp
  · exact Attains.imp (fun u v => (hsame u v).mpr) fun u v => (hsame' u v).mpr

end CompiledPath

namespace Evaluator
variable {t : PathTree} {plain : CompiledPath}

/-- A path can be optimized, and its runs are condensed then. Over a graph in memory, where visits
are not limited and closures are not nested too deep, what it delivers within a limit on the depth
it delivers when it is optimized, and that is delivered without the limit. -/
theorem solutions_optimized (g : TripleStore) (context : CallContext) (options : EvaluationOptions)
    (hvisited : options.maxVisited = none) (hplain : CompiledPath.ofTree t false = .ok plain) :
    ∃ optimized, CompiledPath.ofTree t true = .ok optimized ∧ optimized.Condenses plain ∧
      ∀ (d : Nat) (subject object : Endpoint),
        let run (path : CompiledPath) (depth : Option Nat) :=
          evaluateCompiled ⟨g.toService, context,
            { options with maxSearchDepth := depth }⟩ subject path object
        (∀ path ∈ [plain, optimized], ∀ depth ∈ [some d, none], ∀ limit,
          (run path depth).result ≠ .error (.fault (.nestingTooDeep limit))) →
        (∀ path ∈ [plain, optimized], ∀ depth ∈ [some d, none], (run path depth).result = .ok ()) ∧
          (run plain (some d)).solutions ⊆ (run optimized (some d)).solutions ∧
          (run optimized (some d)).solutions ⊆ (run optimized none).solutions ∧
          ∀ s, s ∈ (run optimized none).solutions ↔ s ∈ (run plain none).solutions := by
  obtain ⟨optimized, hoptimized, hcondenses⟩ := CompiledPath.exists_optimized hplain
  refine ⟨optimized, hoptimized, hcondenses, ?_⟩
  intro d subject object run hnesting
  have hruns {path : CompiledPath} {optimize : Bool}
      (hpath : CompiledPath.ofTree t optimize = .ok path)
      (hmem : path ∈ [plain, optimized]) {depth : Option Nat} (hdepth : depth ∈ [some d, none]) :
      (run path depth).result = .ok () ∧ ∀ x y, ⟨x, y⟩ ∈ (run path depth).solutions ↔
        path.Attains {t | t ∈ g.triples} depth subject object x y := by
    have hvisited' :
        EvaluationOptions.maxVisited { options with maxSearchDepth := depth } = none := hvisited
    exact evaluateCompiled_depth g context hvisited' hpath (hnesting path hmem depth hdepth)
  have hlimited : some d ∈ [some d, none] := List.mem_cons_self
  have hunlimited : none ∈ [some d, none] := List.mem_cons_of_mem _ List.mem_cons_self
  have hfirst : plain ∈ [plain, optimized] := List.mem_cons_self
  have hsecond : optimized ∈ [plain, optimized] := List.mem_cons_of_mem _ List.mem_cons_self
  refine ⟨?_, ?_, ?_, ?_⟩
  · intro path hmem depth hdepth
    have hcases : path = plain ∨ path = optimized := by simpa using hmem
    rcases hcases with rfl | rfl
    · exact (hruns hplain hmem hdepth).1
    · exact (hruns hoptimized hmem hdepth).1
  · rintro ⟨x, y⟩ hs
    rw [(hruns hplain hfirst hlimited).2] at hs
    exact ((hruns hoptimized hsecond hlimited).2 x y).mpr (hcondenses.attains hs)
  · rintro ⟨x, y⟩ hs
    rw [(hruns hoptimized hsecond hlimited).2] at hs
    exact ((hruns hoptimized hsecond hunlimited).2 x y).mpr hs.unlimited
  · rintro ⟨x, y⟩
    rw [(hruns hoptimized hsecond hunlimited).2, (hruns hplain hfirst hunlimited).2]
    exact CompiledPath.attains_none_iff hoptimized hplain

/-- A chain before a closure. Within one step the optimized path gets over the chain, and the path
as it is does not. -/
theorem solutions_optimized_chain_before_closure :
    let p : PathTree := .property (.forward ⟨"p"⟩)
    let q : PathTree := .property (.forward ⟨"q"⟩)
    let t : PathTree :=
      .sequence [p, q, .closure .zeroOrMore (.sequence [p, .closure .zeroOrOne q, q])]
    let ts : List Triple := [⟨.iri ⟨"a"⟩, ⟨"p"⟩, .iri ⟨"b"⟩⟩, ⟨.iri ⟨"b"⟩, ⟨"q"⟩, .iri ⟨"a"⟩⟩,
      ⟨.iri ⟨"b"⟩, ⟨"q"⟩, .iri ⟨"b"⟩⟩]
    let options : EvaluationOptions := { earlyTermination := false, maxNestingDepth := 2 }
    let g := TripleStore.ofTriples ts
    let run (path : CompiledPath) (depth : Option Nat) :=
      evaluateCompiled ⟨g.toService, .default,
        { options with maxSearchDepth := depth }⟩ (.var ⟨"x"⟩) path (.var ⟨"y"⟩)
    options.maxVisited = none ∧ ∃ plain optimized, CompiledPath.ofTree t false = .ok plain ∧
      CompiledPath.ofTree t true = .ok optimized ∧ optimized.Condenses plain ∧
      (∀ path ∈ [plain, optimized], ∀ depth ∈ [some 1, none], ∀ limit,
        (run path depth).result ≠ .error (.fault (.nestingTooDeep limit))) ∧
      (∀ path ∈ [plain, optimized], ∀ depth ∈ [some 1, none], (run path depth).result = .ok ()) ∧
      (run plain (some 1)).solutions ⊆ (run optimized (some 1)).solutions ∧
      (run optimized (some 1)).solutions ⊆ (run optimized none).solutions ∧
      ∀ s, s ∈ (run optimized none).solutions ↔ s ∈ (run plain none).solutions := by
  intro p q t ts options g run
  obtain ⟨plain, hplain⟩ : ∃ plain, CompiledPath.ofTree t false = .ok plain :=
    CompiledPath.exists_ofTree rfl rfl false
  have hvisited : options.maxVisited = none := rfl
  obtain ⟨optimized, hoptimized, hcondenses, hlimits⟩ :=
    solutions_optimized g .default options hvisited hplain
  have hnesting : ∀ path ∈ [plain, optimized], ∀ depth ∈ [some 1, none], ∀ limit,
      (run path depth).result ≠ .error (.fault (.nestingTooDeep limit)) := by
    intro path hmem depth _ limit
    have hpath : path = plain ∨ path = optimized := by simpa using hmem
    have hvisited' :
        EvaluationOptions.maxVisited { options with maxSearchDepth := depth } = none := rfl
    rcases hpath with rfl | rfl
    · exact result_ne_nestingTooDeep g .default hvisited' hplain (Nat.le_refl 2) _ _ limit
    · exact result_ne_nestingTooDeep g .default hvisited' hoptimized (Nat.le_refl 2) _ _ limit
  exact ⟨hvisited, plain, optimized, hplain, hoptimized, hcondenses,
    hnesting, hlimits 1 _ _ hnesting⟩

end Evaluator

end PropertyPath
