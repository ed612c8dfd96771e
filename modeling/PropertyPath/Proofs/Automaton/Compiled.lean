import PropertyPath.Automaton.Compiled
import PropertyPath.Proofs.Automaton.Position
import PropertyPath.Proofs.Path.Conversion
import PropertyPath.Proofs.Path.Plain
import PropertyPath.Proofs.Reduction.Optimizer

/-!
# Compiled automata relate what their path relates

Normal form, position automaton and passes keep the relation one after the other, and none of them
nests closures deeper than the path does or adds a transition that takes no edge.
-/
namespace PropertyPath

/-- What the automaton of one direction of a path has to be. -/
structure Automaton.Implements (a : Automaton) (r : Set Triple → Term → Term → Prop) (depth : Nat) :
    Prop where
  validate : a.validate = .ok ()
  relation : ∀ G, a.relation G = r G
  nesting : a.nesting ≤ depth
  epsilonFree : a.EpsilonFree

theorem Automaton.Implements.of_reduct {a b : Automaton} {r : Set Triple → Term → Term → Prop}
    {depth : Nat} (h : a.Implements r depth) (hvalid : b.validate = .ok ()) (hb : b.IsReductOf a) :
    b.Implements r depth where
  validate := hvalid
  relation G := (hb.relation G).trans (h.relation G)
  nesting := Nat.le_trans hb.nesting h.nesting
  epsilonFree := hb.epsilonFree h.epsilonFree

theorem PathTree.closureDepth_body_le (t : PathTree) : t.body.closureDepth ≤ t.closureDepth := by
  cases t with
  | closure kind item => exact Nat.le_succ _
  | _ => exact Nat.le_refl _

/-- A path with a normal form has an automaton. Whether optimized or not, it relates what the path
relates, or the converse when it follows the path from its end. -/
theorem PathTree.exists_compile {t normal : PathTree} {forward : Bool}
    (h : t.normalize forward = .ok normal) (optimize : Bool) :
    ∃ a, t.compile optimize forward = .ok a ∧
      a.Implements (fun G => Turned (!forward) (t.relation G)) t.closureDepth := by
  obtain ⟨a, ha, hrealizes⟩ := automaton_realizes (plain_normalizeFrom h) false
  have hnesting : a.nesting ≤ t.closureDepth :=
    calc a.nesting ≤ normal.body.closureDepth := hrealizes.nesting
      _ ≤ normal.closureDepth := normal.closureDepth_body_le
      _ ≤ t.closureDepth := closureDepth_normalizeFrom_le h
  have himplements : a.Implements (fun G => Turned (!forward) (t.relation G)) t.closureDepth := by
    refine ⟨hrealizes.validate, ?_, hnesting, hrealizes.epsilonFree⟩
    intro G
    rw [hrealizes.relation, ← relation_normalizeFrom h, relation_eq_ends]
    rfl
  rw [compile, h]
  change ∃ b, (normal.automaton false >>= _) = .ok b ∧ _
  rw [ha]
  cases optimize with
  | false => exact ⟨a, rfl, himplements⟩
  | true =>
      obtain ⟨b, hb, hvalid, hreduct⟩ := Automaton.optimize_reduct Pass.all hrealizes.validate
      exact ⟨b, hb, himplements.of_reduct hvalid hreduct⟩

theorem PathTree.compile_implements {t : PathTree} {optimize forward : Bool} {a : Automaton}
    (h : t.compile optimize forward = .ok a) :
    a.Implements (fun G => Turned (!forward) (t.relation G)) t.closureDepth := by
  obtain ⟨normal, hnormal, _⟩ := bind_eq_ok_iff.mp h
  obtain ⟨b, hb, himplements⟩ := exists_compile hnormal optimize
  obtain rfl := Except.ok.inj (hb.symm.trans h)
  exact himplements

namespace CompiledPath
variable {optimize : Bool}

theorem ofTree_implements {t : PathTree} {path : CompiledPath} (h : ofTree t optimize = .ok path) :
    path.forward.Implements (fun G => t.relation G) t.closureDepth ∧
      path.backward.Implements (fun G => flip (t.relation G)) t.closureDepth := by
  simp only [ofTree, bind_eq_ok_iff, pure_eq_ok_iff] at h
  obtain ⟨forward, hforward, backward, hbackward, rfl⟩ := h
  exact ⟨PathTree.compile_implements hforward, PathTree.compile_implements hbackward⟩

/-- An expression is compiled by way of its tree. -/
theorem ofExpr_eq_ok_iff {p : PathExpr} {path : CompiledPath} : ofExpr p optimize = .ok path ↔
    (.negatedSet [] ∉ p.subexpressions ∧ p.tree.size ≤ TreeBuilder.maxNodes) ∧
      ofTree p.tree optimize = .ok path := by
  rw [ofExpr, bind_eq_ok_iff]
  constructor
  · rintro ⟨t, ht, hpath⟩
    obtain ⟨rfl, hmade⟩ := PathExpr.toTree_eq_ok_iff.mp ht
    exact ⟨hmade, hpath⟩
  · rintro ⟨hmade, hpath⟩
    exact ⟨_, PathExpr.toTree_eq_ok_iff.mpr ⟨rfl, hmade⟩, hpath⟩

/-- A path whose normal forms exist in both directions is compiled. -/
theorem exists_ofTree {t forward backward : PathTree} (hforward : t.normalize true = .ok forward)
    (hbackward : t.normalize false = .ok backward) (optimize : Bool) :
    ∃ path, ofTree t optimize = .ok path := by
  obtain ⟨a, ha, _⟩ := PathTree.exists_compile hforward optimize
  obtain ⟨b, hb, _⟩ := PathTree.exists_compile hbackward optimize
  refine ⟨⟨t, a, b⟩, ?_⟩
  simp only [ofTree, bind_eq_ok_iff, pure_eq_ok_iff]
  exact ⟨a, ha, b, hb, rfl⟩

theorem ofExpr_implements {path : PathExpr} {c : CompiledPath} (h : ofExpr path optimize = .ok c) :
    c.forward.Implements (fun G => path.relation G) path.closureDepth ∧
      c.backward.Implements (fun G => flip (path.relation G)) path.closureDepth := by
  obtain ⟨⟨hfull, _⟩, hc⟩ := ofExpr_eq_ok_iff.mp h
  obtain ⟨hf, hb⟩ := ofTree_implements hc
  have hdepth : path.tree.closureDepth ≤ path.closureDepth := PathExpr.closureDepth_tree_le hfull
  have hrelation : ∀ G, path.tree.relation G = path.relation G := PathExpr.relation_tree hfull
  refine ⟨⟨hf.validate, ?_, hf.nesting.trans hdepth, hf.epsilonFree⟩,
    ⟨hb.validate, ?_, hb.nesting.trans hdepth, hb.epsilonFree⟩⟩
  · exact fun G => (hf.relation G).trans (hrelation G)
  · exact fun G => (hb.relation G).trans (congrArg flip (hrelation G))

/-- The tree of an expression has its normal forms, so an expression is compiled if its tree is
made. -/
theorem exists_ofExpr {path : PathExpr} (hfull : .negatedSet [] ∉ path.subexpressions)
    (hsize : path.tree.size ≤ TreeBuilder.maxNodes) (optimize : Bool) :
    ∃ c, ofExpr path optimize = .ok c := by
  have hsound := PathExpr.sound_tree hfull
  have hformed : path.tree.Formed := fun u hu => (hsound u hu).1
  have hnegated : path.tree.WellNegated := fun u hu => (hsound u hu).2
  obtain ⟨forward, hforward⟩ := (PathTree.succeedsIff_normalizeFrom 0 (!true) hformed).ok hnegated
  obtain ⟨backward, hbackward⟩ :=
    (PathTree.succeedsIff_normalizeFrom 0 (!false) hformed).ok hnegated
  obtain ⟨c, hc⟩ := exists_ofTree hforward hbackward optimize
  exact ⟨c, ofExpr_eq_ok_iff.mpr ⟨⟨hfull, hsize⟩, hc⟩⟩

end CompiledPath

end PropertyPath
