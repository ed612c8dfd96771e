import Mathlib.Data.List.Perm.Basic
import PropertyPath.Proofs.Automaton.Outside
import PropertyPath.Proofs.Search.Depth

/-!
# What is given of a pattern only selects

Searched from a node, to a node or back to where it began, a path is followed as it is from
anywhere: what is delivered are the solutions of the pattern between two variables that have these
ends. So the origins that are looked for leave none out, also where the depth is limited. A term
outside the graph is related to nothing but itself, and that only by a path that matches the empty
walk.
-/
namespace PropertyPath

section compiled
variable {t : PathTree} {optimize : Bool} {path : CompiledPath}

/-- However the depth is limited, a term outside the graph leads to nothing but itself. -/
theorem CompiledPath.within_iff_of_notMem_nodesOf
    (h : ofTree t optimize = .ok path) {G : Set Triple}
    {limit : Option Nat} {x y : Term} (hx : x ∉ nodesOf G) :
    path.forward.within (joined G) limit x y ↔ t.nullable = true ∧ x = y := by
  obtain ⟨hforward, _⟩ := ofTree_implements h
  constructor
  · intro hwithin
    have hrelated := Automaton.relation_of_within hwithin
    rw [hforward.relation] at hrelated
    exact (t.relation_iff_of_notMem_nodesOf hx).mp hrelated
  · rintro ⟨hnullable, rfl⟩
    rw [← isNullable_eq h, isNullable, Automaton.isNullable_iff hforward.validate] at hnullable
    exact Automaton.within_iff.mpr
      ⟨0, _, fun _ _ => Nat.zero_le _, hnullable, Automaton.reaches_zero.mpr rfl⟩

end compiled

/-- A list of distinct elements all of which are `a` is empty or has `a` once. -/
theorem eq_ite_of_nodup {α : Type} {xs : List α} {a : α} {p : Prop}
    [Decidable p] (hnodup : xs.Nodup)
    (h : ∀ x, x ∈ xs ↔ p ∧ x = a) : xs = if p then [a] else [] := by
  split
  · next hp =>
      refine List.perm_singleton.mp
        ((List.perm_ext_iff_of_nodup hnodup (List.nodup_singleton a)).mpr ?_)
      intro x
      rw [h, List.mem_singleton]
      exact and_iff_right hp
  · next hp => exact List.eq_nil_iff_forall_not_mem.mpr fun x hx => hp ((h x).mp hx).1

namespace Evaluator

/-- From a node, between two nodes and back to where it began, a path delivers what it delivers
between two variables and has these ends. From a term outside the graph it delivers that term if it
is nullable. -/
structure Selective (e : Evaluator) (path : CompiledPath) (nodes : Set Term) : Prop where
  ended : ∀ subject object, (e.evaluateCompiled subject path object).result = .ok ()
  fromNode : ∀ u v w, v ≠ w → ∀ x ∈ nodes,
    (e.evaluateCompiled (.term x) path (.var u)).solutions.Perm
      ((e.evaluateCompiled (.var v) path (.var w)).solutions.filter (·.subject = x))
  between : ∀ v w, v ≠ w → ∀ x ∈ nodes, ∀ y ∈ nodes,
    (e.evaluateCompiled (.term x) path (.term y)).solutions =
      if ⟨x, y⟩ ∈ (e.evaluateCompiled (.var v) path (.var w)).solutions then [⟨x, y⟩] else []
  equalEnds : ∀ u v w, v ≠ w → (e.evaluateCompiled (.var u) path (.var u)).solutions.Perm
    ((e.evaluateCompiled (.var v) path (.var w)).solutions.filter fun s => s.subject = s.object)
  outside : ∀ u z, z ∉ nodes → (e.evaluateCompiled (.term z) path (.var u)).solutions =
    if path.isNullable then [⟨z, z⟩] else []

section settled
variable {e : Evaluator} {path : CompiledPath} {G : Set Triple} (h : e.Settles path G)
include h

theorem Settles.mem_anywhere {v w : Variable} (hvw : v ≠ w) {x y : Term} :
    ⟨x, y⟩ ∈ (e.evaluateCompiled (.var v) path (.var w)).solutions ↔ x ∈ nodesOf G ∧ y ∈ nodesOf G ∧
      path.forward.within (joined G) e.options.maxSearchDepth x y := by
  rw [(h _ _).2]
  simp only [CompiledPath.Attains, hvw, false_implies, true_and]

theorem Settles.fromNode (u : Variable) {v w : Variable} (hvw : v ≠ w)
    {x : Term} (hx : x ∈ nodesOf G) :
    (e.evaluateCompiled (.term x) path (.var u)).solutions.Perm
      ((e.evaluateCompiled (.var v) path (.var w)).solutions.filter (·.subject = x)) := by
  refine (List.perm_ext_iff_of_nodup (e.nodup_evaluation _ path _ 0)
    ((e.nodup_evaluation _ path _ 0).filter _)).mpr ?_
  rintro ⟨x', y⟩
  change ⟨x', y⟩ ∈ (e.evaluateCompiled (.term x) path (.var u)).solutions ↔
    ⟨x', y⟩ ∈ (e.evaluateCompiled (.var v) path (.var w)).solutions.filter (·.subject = x)
  rw [(h _ _).2, List.mem_filter, h.mem_anywhere hvw, decide_eq_true_eq]
  constructor
  · rintro ⟨rfl, hwithin⟩
    exact ⟨⟨hx, Automaton.mem_nodesOf_of_within hwithin hx, hwithin⟩, rfl⟩
  · rintro ⟨⟨_, _, hwithin⟩, rfl⟩
    exact ⟨rfl, hwithin⟩

theorem Settles.between {v w : Variable} (hvw : v ≠ w) {x y : Term} (hx : x ∈ nodesOf G)
    (hy : y ∈ nodesOf G) : (e.evaluateCompiled (.term x) path (.term y)).solutions =
      if ⟨x, y⟩ ∈ (e.evaluateCompiled (.var v) path (.var w)).solutions then [⟨x, y⟩] else [] := by
  refine eq_ite_of_nodup (e.nodup_evaluation _ path _ 0) ?_
  rintro ⟨x', y'⟩
  rw [(h _ _).2, h.mem_anywhere hvw, Solution.mk.injEq]
  constructor
  · rintro ⟨rfl, rfl, hwithin⟩
    exact ⟨⟨hx, hy, hwithin⟩, rfl, rfl⟩
  · rintro ⟨⟨_, _, hwithin⟩, rfl, rfl⟩
    exact ⟨rfl, rfl, hwithin⟩

theorem Settles.equalEnds (u : Variable) {v w : Variable} (hvw : v ≠ w) :
    (e.evaluateCompiled (.var u) path (.var u)).solutions.Perm
      ((e.evaluateCompiled (.var v) path (.var w)).solutions.filter
        fun s => s.subject = s.object) := by
  refine (List.perm_ext_iff_of_nodup (e.nodup_evaluation _ path _ 0)
    ((e.nodup_evaluation _ path _ 0).filter _)).mpr ?_
  rintro ⟨x, y⟩
  change ⟨x, y⟩ ∈ (e.evaluateCompiled (.var u) path (.var u)).solutions ↔
    ⟨x, y⟩ ∈ (e.evaluateCompiled (.var v) path (.var w)).solutions.filter
    fun s => s.subject = s.object
  rw [(h _ _).2, List.mem_filter, h.mem_anywhere hvw, decide_eq_true_eq]
  constructor
  · rintro ⟨hx, hy, hsame, hwithin⟩
    exact ⟨⟨hx, hy, hwithin⟩, hsame rfl⟩
  · rintro ⟨⟨hx, hy, hwithin⟩, heq⟩
    exact ⟨hx, hy, fun _ => heq, hwithin⟩

theorem Settles.outside {t : PathTree} {optimize : Bool}
    (hpath : CompiledPath.ofTree t optimize = .ok path)
    (u : Variable) {z : Term} (hz : z ∉ nodesOf G) :
    (e.evaluateCompiled (.term z) path (.var u)).solutions =
      if path.isNullable then [⟨z, z⟩] else [] := by
  refine eq_ite_of_nodup (e.nodup_evaluation _ path _ 0) ?_
  rintro ⟨x, y⟩
  rw [(h _ _).2, CompiledPath.isNullable_eq hpath, Solution.mk.injEq]
  constructor
  · rintro ⟨rfl, hwithin⟩
    obtain ⟨hnullable, rfl⟩ := (CompiledPath.within_iff_of_notMem_nodesOf hpath hz).mp hwithin
    exact ⟨hnullable, rfl, rfl⟩
  · rintro ⟨hnullable, rfl, rfl⟩
    exact ⟨rfl, (CompiledPath.within_iff_of_notMem_nodesOf hpath hz).mpr ⟨hnullable, rfl⟩⟩

end settled

variable {t : PathTree} {optimize : Bool} {path : CompiledPath}

/-- Over a graph in memory, where visits are not limited and no run nests closures too deep, the
modes of a search forward agree for every limit on the depth. -/
theorem selective_evaluateCompiled (g : TripleStore) (context : CallContext)
    (options : EvaluationOptions)
    (hvisited : options.maxVisited = none) (hpath : CompiledPath.ofTree t optimize = .ok path)
    (hnesting : ∀ subject object limit,
      (evaluateCompiled ⟨g.toService, context, options⟩
        subject path object).result ≠ .error (.fault (.nestingTooDeep limit))) :
    Selective ⟨g.toService, context, options⟩ path (nodesOf {t | t ∈ g.triples}) ∧
      path.isNullable = t.nullable := by
  have hsettles := settles_of_nesting g context hvisited hpath hnesting
  refine ⟨?_, CompiledPath.isNullable_eq hpath⟩
  exact {
    ended := fun subject object => (hsettles subject object).1
    fromNode := fun u v w hvw x hx => hsettles.fromNode u hvw hx
    between := fun v w hvw x hx y hy => hsettles.between hvw hx hy
    equalEnds := fun u v w hvw => hsettles.equalEnds u hvw
    outside := fun u z hz => hsettles.outside hpath u hz }

/-- Nested closures that may be left out and an inverse out of a literal, with a limit on the
depth. -/
theorem selective_evaluateCompiled_inverse_of_literal :
    let p : PathTree := .property (.forward ⟨"p"⟩)
    let q : PathTree := .property (.forward ⟨"q"⟩)
    let t : PathTree := .sequence
      [.closure .zeroOrMore
        (.sequence [.closure .zeroOrOne p, .closure .zeroOrMore (.inverse q)]), p]
    let ts : List Triple := [⟨.iri ⟨"a"⟩, ⟨"p"⟩, .iri ⟨"b"⟩⟩, ⟨.iri ⟨"b"⟩, ⟨"p"⟩, .iri ⟨"a"⟩⟩,
      ⟨.iri ⟨"b"⟩, ⟨"q"⟩, .literal (.simple "1")⟩]
    let options : EvaluationOptions := { maxSearchDepth := some 2, maxNestingDepth := 2 }
    let g := TripleStore.ofTriples ts
    let e : Evaluator := ⟨g.toService, .default, options⟩
    options.maxVisited = none ∧ ∃ path, CompiledPath.ofTree t true = .ok path ∧
      (∀ subject object limit, (e.evaluateCompiled subject path object).result ≠
        .error (.fault (.nestingTooDeep limit))) ∧
      Selective e path (nodesOf {t | t ∈ g.triples}) ∧ path.isNullable = t.nullable := by
  intro p q t ts options g e
  obtain ⟨path, hpath⟩ : ∃ path, CompiledPath.ofTree t true = .ok path :=
    CompiledPath.exists_ofTree rfl rfl true
  have hvisited : options.maxVisited = none := rfl
  have hnesting := result_ne_nestingTooDeep g .default hvisited hpath (Nat.le_refl 2)
  exact ⟨hvisited, _, hpath, hnesting,
    selective_evaluateCompiled g .default options hvisited hpath hnesting⟩

end Evaluator

end PropertyPath
