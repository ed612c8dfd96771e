import PropertyPath.Proofs.Automaton.Mirror
import PropertyPath.Proofs.Search.Depth

/-!
# Searching from either end

The automaton that follows a path from its end is the automaton of the mirror image of what the path
is when it is followed from its start. So whatever the limit on the depth, a search from the object
finds a subject exactly if the search from that subject finds the object.
-/
namespace PropertyPath

/-- Every accepting run of the one automaton is an accepting run of the other when it is reversed. A
reversed run has as many steps, and so have the runs within it. -/
def Automaton.Reverses (a b : Automaton) (G : Set Triple) : Prop :=
  ∀ steps x y, (a.accepts (joined G) steps x y ↔ b.accepts (joined G) (Shape.backwards steps) y x) ∧
    (Shape.backwards steps).length = steps.length ∧
    Shape.backwards (Shape.backwards steps) = steps ∧
    ∀ limit, Shape.Within limit (Shape.backwards steps) ↔ Shape.Within limit steps

theorem Automaton.Reverses.within {a b : Automaton} {G : Set Triple} (h : a.Reverses b G)
    {limit : Option Nat} {x y : Term} :
    b.within (joined G) limit y x ↔ a.within (joined G) limit x y := by
  constructor
  · intro hback
    rcases hback with ⟨steps, hwithin, haccepts⟩
    obtain ⟨_, _, htwice, hlimit⟩ := h steps x y
    refine ⟨Shape.backwards steps, (hlimit limit).mpr hwithin, (h _ x y).1.mpr ?_⟩
    rw [htwice]
    exact haccepts
  · intro hforth
    rcases hforth with ⟨steps, hwithin, haccepts⟩
    obtain ⟨hruns, _, _, hlimit⟩ := h steps x y
    exact ⟨Shape.backwards steps, (hlimit limit).mpr hwithin, hruns.mp haccepts⟩

theorem CompiledPath.reverses {t : PathTree} {path : CompiledPath} (h : ofTree t false = .ok path)
    (G : Set Triple) : path.forward.Reverses path.backward G := by
  simp only [ofTree, PathTree.compile, Bool.false_eq_true, if_false, bind_eq_ok_iff,
    pure_eq_ok_iff] at h
  obtain ⟨a, ⟨normal, hnormal, a', ha, rfl⟩, b, ⟨turned, hturned, b', hb, rfl⟩, rfl⟩ := h
  have hmirror : t.normalize false = .ok normal.mirror := by
    have hnot := t.normalize_not true
    rw [hnormal] at hnot
    exact hnot
  obtain rfl := Except.ok.inj (hmirror.symm.trans hturned)
  intro steps x y
  exact ⟨PathTree.accepts_mirror (PathTree.plain_normalizeFrom hnormal) ha hb,
    Shape.length_backwards steps,
    Shape.backwards_backwards steps, fun _ => Shape.within_backwards⟩

namespace Evaluator
variable {t : PathTree} {path : CompiledPath}

/-- Over a graph in memory, where automata are not optimized, visits are not limited and no run
nests closures too deep, a search backward and a search forward find each other's origins, for every
limit on the depth: the runs that they follow are the same, in opposite directions. -/
theorem evaluateCompiled_directions (g : TripleStore) (context : CallContext)
    (options : EvaluationOptions)
    (hvisited : options.maxVisited = none) (hpath : CompiledPath.ofTree t false = .ok path)
    (hnesting : ∀ subject object limit,
      (evaluateCompiled ⟨g.toService, context, options⟩
        subject path object).result ≠ .error (.fault (.nestingTooDeep limit))) :
    (∀ (x y : Term) (v w : Variable),
      let backward := evaluateCompiled ⟨g.toService, context, options⟩
        (.var v) path (.term y)
      let forward := evaluateCompiled ⟨g.toService, context, options⟩
        (.term x) path (.var w)
      backward.result = .ok () ∧ forward.result = .ok () ∧
        (⟨x, y⟩ ∈ backward.solutions ↔ ⟨x, y⟩ ∈ forward.solutions)) ∧
      ∀ G, path.forward.Reverses path.backward G := by
  refine ⟨?_, CompiledPath.reverses hpath⟩
  intro x y v w backward forward
  have hsettles := settles_of_nesting g context hvisited hpath hnesting
  obtain ⟨hbackward, hmemBackward⟩ := hsettles (.var v) (.term y)
  obtain ⟨hforward, hmemForward⟩ := hsettles (.term x) (.var w)
  refine ⟨hbackward, hforward, (hmemBackward x y).trans (Iff.trans ?_ (hmemForward x y).symm)⟩
  simp only [CompiledPath.Attains, true_and]
  exact (CompiledPath.reverses hpath _).within

/-- Closures within each other, an inverse and a negated set of both directions, with a limit on the
depth. -/
theorem evaluateCompiled_directions_of_negation :
    let p : PathTree := .property (.forward ⟨"p"⟩)
    let q : PathTree := .property (.forward ⟨"q"⟩)
    let t : PathTree := .sequence [p,
      .closure .zeroOrMore
        (.sequence [.closure .oneOrMore (.negation [p, .inverse q]), .inverse p])]
    let ts : List Triple :=
      [⟨.iri ⟨"a"⟩, ⟨"p"⟩, .iri ⟨"b"⟩⟩, ⟨.iri ⟨"b"⟩, ⟨"q"⟩, .literal (.simple "1")⟩,
       ⟨.iri ⟨"c"⟩, ⟨"r"⟩, .iri ⟨"b"⟩⟩]
    let options : EvaluationOptions := { maxSearchDepth := some 2, maxNestingDepth := 2 }
    let g := TripleStore.ofTriples ts
    let e : Evaluator := ⟨g.toService, .default, options⟩
    options.maxVisited = none ∧ ∃ path, CompiledPath.ofTree t false = .ok path ∧
      (∀ subject object limit, (e.evaluateCompiled subject path object).result ≠
        .error (.fault (.nestingTooDeep limit))) ∧
      (∀ (x y : Term) (v w : Variable),
        (e.evaluateCompiled (.var v) path (.term y)).result = .ok () ∧
        (e.evaluateCompiled (.term x) path (.var w)).result = .ok () ∧
        (⟨x, y⟩ ∈ (e.evaluateCompiled (.var v) path (.term y)).solutions ↔
          ⟨x, y⟩ ∈ (e.evaluateCompiled (.term x) path (.var w)).solutions)) ∧
      ∀ G, path.forward.Reverses path.backward G := by
  intro p q t ts options g e
  obtain ⟨path, hpath⟩ : ∃ path, CompiledPath.ofTree t false = .ok path :=
    CompiledPath.exists_ofTree rfl rfl false
  have hvisited : options.maxVisited = none := rfl
  have hnesting := result_ne_nestingTooDeep g .default hvisited hpath (Nat.le_refl 2)
  exact ⟨hvisited, _, hpath, hnesting,
    evaluateCompiled_directions g .default options hvisited hpath hnesting⟩

end Evaluator

end PropertyPath
