import PropertyPath.Proofs.Automaton.Finishing
import PropertyPath.Proofs.Automaton.Inside
import PropertyPath.Proofs.Automaton.Outside
import PropertyPath.Proofs.Path.Accepted

/-!
# Which paths are compiled

Nothing but the normal form of a path may be missing: from there on no construction and no pass is
ever refused. So finished trees are compiled exactly when they are well negated, and expressions
exactly when none of their negated sets is empty and their trees are not too large. What comes out
is in order at every level of nesting, and it is nullable in both directions exactly when the path
accepts the empty walk.
-/
namespace PropertyPath
open PathTree (Formed WellNegated)

/-- A path with a normal form is compiled, and a path without one is refused for the same reason. -/
theorem PathTree.succeedsIff_compile {t : PathTree} {p : Prop} {forward : Bool}
    (h : SucceedsIff p (t.normalize forward)) (optimize : Bool) :
    SucceedsIff p (t.compile optimize forward) := by
  constructor
  · intro hp
    obtain ⟨normal, hnormal⟩ := h.ok hp
    obtain ⟨a, ha, _⟩ := exists_compile hnormal optimize
    exact ⟨a, ha⟩
  · intro hp
    obtain ⟨node, malformation, hfault⟩ := h.malformed hp
    exact ⟨node, malformation, by rw [compile, hfault]; rfl⟩

namespace CompiledPath
variable {t : PathTree} {e : PathExpr} {optimize : Bool} {path : CompiledPath}

theorem succeedsIff_ofTree {p : Prop} (h : ∀ forward, SucceedsIff p (t.normalize forward))
    (optimize : Bool) : SucceedsIff p (ofTree t optimize) := by
  have hforward := PathTree.succeedsIff_compile (h true) optimize
  have hbackward := PathTree.succeedsIff_compile (h false) optimize
  exact (hforward.bind fun _ _ => hbackward.map _).congr (and_self_iff)

theorem succeedsIff_ofTree_of_formed (h : t.Formed) (optimize : Bool) :
    SucceedsIff t.WellNegated (ofTree t optimize) :=
  succeedsIff_ofTree (fun forward => PathTree.succeedsIff_normalizeFrom 0 (!forward) h) optimize

theorem succeedsIff_ofTree_of_isFinished (h : t.IsFinished) (optimize : Bool) :
    SucceedsIff t.WellNegated (ofTree t optimize) :=
  succeedsIff_ofTree_of_formed (PathTree.isFinished_iff.mp h).1 optimize

theorem isFinished_of_toTree (h : e.toTree = .ok t) : t.IsFinished := by
  obtain ⟨rfl, hfull, hsize⟩ := PathExpr.toTree_eq_ok_iff.mp h
  exact PathTree.isFinished_iff.mpr ⟨PathExpr.formed_tree_iff.mpr hfull, hsize⟩

/-- The tree of an expression is never refused. -/
theorem succeedsIff_ofExpr (e : PathExpr) (optimize : Bool) :
    SucceedsIff (.negatedSet [] ∉ e.subexpressions ∧ e.tree.size ≤ TreeBuilder.maxNodes)
      (ofExpr e optimize) := by
  have htree (t : PathTree) (h : e.toTree = .ok t) : SucceedsIff True (ofTree t optimize) := by
    obtain ⟨rfl, hfull, _⟩ := PathExpr.toTree_eq_ok_iff.mp h
    have hnegated : e.tree.WellNegated := fun u hu => (PathExpr.sound_tree hfull u hu).2
    exact (succeedsIff_ofTree_of_isFinished (isFinished_of_toTree h) optimize).congr
      (iff_true_intro hnegated)
  exact ((PathExpr.succeedsIff_toTree e).bind htree).congr (and_iff_left trivial)

/-- What is compiled from a path that accepts the given walks: both automata are in order at every
level of nesting, and they are nullable if the empty walk is among these walks. -/
structure Sound (path : CompiledPath) (walks : Language Step) : Prop where
  validate : ∀ a, path.forward.Includes a ∨ path.backward.Includes a → a.validate = .ok ()
  forward : path.forward.isNullable = true ↔ [] ∈ walks
  backward : path.backward.isNullable = true ↔ [] ∈ walks

end CompiledPath

end PropertyPath
