import PropertyPath.Proofs.Path.Renumbering

/-!
# Which tree is made of an expression

The nodes of an expression are added behind those that a builder has. Nodes that come later change
nothing about what unfolds, items come before the nodes that have them, and from the root unfolds
the tree that the expression stands for. It is made if no negated set in the expression is empty and
if it has no more nodes than there may be.
-/
namespace PropertyPath

namespace TreeBuilder
open PathTree

/-- Every node comes after its items. -/
def Ordered (b : TreeBuilder) : Prop := ∀ id item, b.HasItem id item → item.index < id.index

variable {b c : TreeBuilder} {id : NodeId} {t u : PathTree} {entry : TreeEntry}

theorem node?_of_append (h : b.entries <+: c.entries) (hid : b.node? id = some entry) :
    c.node? id = some entry := by
  obtain ⟨more, hmore⟩ := h
  rw [node?, ← hmore, List.getElem?_append_left (lt_length_of_node? hid)]
  exact hid

/-- What unfolds from a node unfolds from it still when more nodes follow. -/
theorem Unfolds.mono (h : b.entries <+: c.entries) (ht : b.Unfolds id t) : c.Unfolds id t := by
  induction t using operands_induction generalizing id with
  | h t ih =>
      cases ht with
      | @intro _ _ ids hroot hoperands =>
          refine .intro (node?_of_append h hroot) ?_
          rw [List.forall₂_iff_get] at hoperands ⊢
          exact ⟨hoperands.1, fun i hi hi' => ih _ (List.get_mem _ _) (hoperands.2 i hi hi')⟩

theorem Unfolds.lt_length (h : b.Unfolds id t) : id.index < b.entries.length := by
  cases h with
  | intro hroot _ => exact lt_length_of_node? hroot

/-- In an ordered builder what unfolds from a node is accepted if it is formed. -/
theorem unfold_of_unfolds (hb : b.Ordered) (h : b.Unfolds id t) (hformed : t.Formed) :
    b.unfold id = .ok t := by
  induction t using operands_induction generalizing id with
  | h t ih =>
      obtain ⟨hfilled, hbelow⟩ := formed_iff.mp hformed
      cases h with
      | @intro _ _ ids hroot hoperands =>
          have hlength := hoperands.length_eq
          refine unfold_eq_ok_iff.mpr ⟨ids, hroot, complete_rootEntry hfilled hlength, ?_⟩
          have hitems (item : NodeId) (hitem : item ∈ ids) : item.index < id.index :=
            hb id item ⟨_, hroot, by rwa [items_rootEntry hlength]⟩
          rw [List.forall₂_iff_get] at hoperands ⊢
          refine ⟨hlength, fun i hi hi' => ⟨hitems _ (List.get_mem _ _), ?_⟩⟩
          exact ih _ (List.get_mem _ _) (hoperands.2 i hi hi') (hbelow _ (List.get_mem _ _))

theorem unfold_eq_ok_iff_of_unfolds (hb : b.Ordered) (h : b.Unfolds id u) :
    b.unfold id = .ok t ↔ t = u ∧ u.Formed := by
  constructor
  · intro ht
    obtain rfl := (unfolds_of_unfold ht).unique h
    exact ⟨rfl, formed_of_unfold ht⟩
  · rintro ⟨rfl, hformed⟩
    exact unfold_of_unfolds hb h hformed

/-- Behind the nodes of a builder there are nodes from the last of which a tree unfolds, all in
order. -/
structure Adds (b : TreeBuilder) (t : PathTree) (result : TreeBuilder × NodeId) : Prop where
  kept : b.entries <+: result.1.entries
  ordered : result.1.Ordered
  unfolds : result.1.Unfolds result.2 t

/-- A root is added behind the trees below it. -/
theorem adds_push (hkept : b.entries <+: c.entries) (hc : c.Ordered) {ids : List NodeId}
    (h : List.Forall₂ c.Unfolds ids t.operands) : Adds b t (c.push (t.rootEntry ids)) := by
  have hbehind : c.entries <+: (c.push (t.rootEntry ids)).1.entries := List.prefix_append _ _
  have hlast : (c.push (t.rootEntry ids)).1.node? ⟨c.entries.length⟩ = some (t.rootEntry ids) :=
    List.getElem?_concat_length
  refine ⟨hkept.trans hbehind, ?_, .intro hlast (h.imp fun _ _ => Unfolds.mono hbehind)⟩
  rintro id item ⟨entry, hentry, hitem⟩
  have hlt := lt_length_of_node? hentry
  rw [push, List.length_append, List.length_singleton] at hlt
  rcases Nat.lt_succ_iff_lt_or_eq.mp hlt with hbefore | hid
  · refine hc id item ⟨entry, ?_, hitem⟩
    rw [node?, ← List.getElem?_append_left hbefore]
    exact hentry
  · obtain rfl : id = ⟨c.entries.length⟩ := congrArg NodeId.mk hid
    obtain rfl := Option.some.inj (hlast.symm.trans hentry)
    rw [items_rootEntry h.length_eq] at hitem
    obtain ⟨i, hi, rfl⟩ := List.getElem_of_mem hitem
    rw [List.forall₂_iff_get] at h
    exact (h.2 i hi (h.1 ▸ hi)).lt_length

/-- A node adds the items of its tree to a sequence. -/
theorem forall₂_splice_sequence (h : b.Unfolds id t) :
    List.Forall₂ b.Unfolds (b.splice .sequence id) t.sequenceItems := by
  have hwhole : List.Forall₂ b.Unfolds [id] [t] := .cons h .nil
  cases h with
  | intro hroot hoperands =>
      rw [splice, hroot]
      cases t with
      | sequence items => exact hoperands
      | _ => exact hwhole

/-- A node adds the items of its tree to an alternative. -/
theorem forall₂_splice_alternative (h : b.Unfolds id t) :
    List.Forall₂ b.Unfolds (b.splice .alternative id) t.alternativeItems := by
  have hwhole : List.Forall₂ b.Unfolds [id] [t] := .cons h .nil
  cases h with
  | intro hroot hoperands =>
      rw [splice, hroot]
      cases t with
      | alternative items => exact hoperands
      | _ => exact hwhole

/-- Over a tree that has been added a node with this one item is added. -/
theorem Adds.over {result : TreeBuilder × NodeId} (h : Adds b u result) (htree : t.operands = [u]) :
    Adds b t (result.1.push (t.rootEntry [result.2])) :=
  adds_push h.kept h.ordered (htree ▸ .cons h.unfolds .nil)

/-- What is listed from a node is listed from it still when more nodes follow, and so is why it is
refused. -/
theorem renumber_of_append (h : b.entries <+: c.entries) (limit : Nat)
    (hid : id.index < b.entries.length) :
    c.renumber limit id = b.renumber limit id := by
  induction hn : id.index using Nat.strongRecOn generalizing id with
  | ind n ih =>
      have hnode : c.node? id = b.node? id := by
        have hb : b.node? id = some b.entries[id.index] := List.getElem?_eq_getElem hid
        rw [hb, node?_of_append h hb]
      have hchild : (fun item : NodeId => if item.index < id.index then c.renumber limit item
          else fun _ => .error (.malformedNode item .lateChild)) =
          fun item => if item.index < id.index then b.renumber limit item
            else fun _ => .error (.malformedNode item .lateChild) := by
        funext item
        split
        · next hlt => exact ih item.index (hn ▸ hlt) (Nat.lt_trans hlt hid) rfl
        · rfl
      rw [renumber, renumber, hnode, hchild]

theorem finish_eq_error_iff {root : NodeId} {fault : PathFault} :
    b.finish root = .error fault ↔ b.finishWithin maxNodes root = .error fault := by
  rw [finish]
  cases hlisted : b.finishWithin maxNodes root with
  | error fault' =>
      constructor
      · intro h
        cases h
        rfl
      · intro h
        cases h
        rfl
  | ok listed =>
      obtain ⟨t, ht, _⟩ := finishWithin_eq_ok_iff.mp hlisted
      rw [ht]
      exact ⟨nofun, nofun⟩

/-- A unary operator over what is refused is refused for the same reason. -/
theorem finish_path_of_error {root : NodeId} {fault : PathFault}
    (hroot : root.index < b.entries.length)
    (h : b.finish root = .error fault) (operator : Operator) :
    (b.path operator [root]).1.finish (b.path operator [root]).2 = .error fault := by
  let c := (b.path operator [root]).1
  have hkept : b.entries <+: c.entries := List.prefix_append _ _
  have hnode : c.node? ⟨b.entries.length⟩ = some (.path operator [root]) :=
    List.getElem?_concat_length
  have hcheck :
      (liftM ((TreeEntry.path operator [root]).check ⟨b.entries.length⟩) : Numbering Unit) [] =
      pure ((), []) := by
    rw [TreeEntry.check, List.length_singleton, bne_self_eq_false, Bool.and_false]
    rfl
  have hitem : c.renumber maxNodes root [] = .error fault := by
    rw [renumber_of_append hkept maxNodes hroot]
    exact finish_eq_error_iff.mp h
  have hitems :
      ([root].mapM fun item => if item.index < b.entries.length then c.renumber maxNodes item
      else fun _ => .error (.malformedNode item .lateChild)) [] = .error fault := by
    rw [List.mapM_cons, if_pos hroot]
    exact numbering_bind_of_error hitem
  refine finish_eq_error_iff.mpr ?_
  change c.renumber maxNodes ⟨b.entries.length⟩ [] = .error fault
  rw [renumber, hnode]
  exact (bind_of_run_eq hcheck).trans (numbering_bind_of_error hitems)

end TreeBuilder

namespace PathExpr
open TreeBuilder

/-- The nodes of an expression are added, and from the root unfolds its tree. -/
theorem adds_addTo (e : PathExpr) {b : TreeBuilder} (hb : b.Ordered) :
    Adds b e.tree (e.addTo b) := by
  induction e generalizing b with
  | iri p => exact adds_push (List.prefix_refl _) hb .nil
  | reverse path ih => exact (ih hb).over rfl
  | sequence left right ihl ihr =>
      have hl := ihl hb
      have hr := ihr hl.ordered
      have hitems := List.rel_append (forall₂_splice_sequence (hl.unfolds.mono hr.kept))
        (List.rel_append (forall₂_splice_sequence hr.unfolds) .nil)
      exact adds_push (hl.kept.trans hr.kept) hr.ordered hitems
  | alternative left right ihl ihr =>
      have hl := ihl hb
      have hr := ihr hl.ordered
      have hitems := List.rel_append (forall₂_splice_alternative (hl.unfolds.mono hr.kept))
        (List.rel_append (forall₂_splice_alternative hr.unfolds) .nil)
      exact adds_push (hl.kept.trans hr.kept) hr.ordered hitems
  | zeroOrMore path ih => exact (ih hb).over rfl
  | oneOrMore path ih => exact (ih hb).over rfl
  | zeroOrOne path ih => exact (ih hb).over rfl
  | negatedSet ps =>
      have hleaf : Adds b (.property ⟨.ofList ps, false, false⟩) _ :=
        adds_push (List.prefix_refl _) hb .nil
      exact hleaf.over rfl

variable {e : PathExpr} {t : PathTree}

theorem ordered_empty : empty.Ordered := by
  rintro id item ⟨entry, hentry, _⟩
  cases hentry

/-- The tree of an expression is made if it is formed and not too large. -/
theorem toTree_eq_ok_iff : e.toTree = .ok t ↔
    t = e.tree ∧ .negatedSet [] ∉ e.subexpressions ∧ e.tree.size ≤ maxNodes := by
  have hadds := e.adds_addTo ordered_empty
  change (e.addTo .empty).1.finish (e.addTo .empty).2 = .ok t ↔ _
  rw [finish_eq_ok_iff, unfold_eq_ok_iff_of_unfolds hadds.ordered hadds.unfolds, formed_tree_iff]
  constructor
  · rintro ⟨⟨rfl, hfull⟩, hsize⟩
    exact ⟨rfl, hfull, hsize⟩
  · rintro ⟨rfl, hfull, hsize⟩
    exact ⟨⟨rfl, hfull⟩, hsize⟩

theorem succeedsIff_toTree (e : PathExpr) :
    SucceedsIff (.negatedSet [] ∉ e.subexpressions ∧ e.tree.size ≤ maxNodes) e.toTree := by
  have hfinish := succeedsIff_finish (e.addTo .empty).1 (e.addTo .empty).2
  constructor
  · exact fun h => ⟨_, toTree_eq_ok_iff.mpr ⟨rfl, h⟩⟩
  · intro hnot
    refine hfinish.malformed fun h => hnot ?_
    obtain ⟨t, ht⟩ := hfinish.ok h
    exact (toTree_eq_ok_iff.mp ht).2

/-- The inverse of an expression has one node more, so it is refused where the expression is, and
besides only if there is no room for this node. -/
theorem toTree_reverse (h : e.tree.size ≠ maxNodes) :
    (PathExpr.reverse e).toTree = e.toTree.map .inverse := by
  cases htree : e.toTree with
  | ok t =>
      obtain ⟨rfl, hfull, hsize⟩ := toTree_eq_ok_iff.mp htree
      have hlt : e.tree.size < maxNodes := Nat.lt_of_le_of_ne hsize h
      exact toTree_eq_ok_iff.mpr ⟨rfl, by simpa [subexpressions] using hfull, hlt⟩
  | error fault =>
      have hroot := (e.adds_addTo ordered_empty).unfolds.lt_length
      exact finish_path_of_error hroot htree .inverse

end PathExpr

end PropertyPath
