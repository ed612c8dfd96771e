import Mathlib.Logic.Relation
import PropertyPath.Proofs.Path.Accepted
import PropertyPath.Proofs.Path.Listing

/-!
# Which tree unfolds from a node

A tree unfolds from a node when the node is its root and what is below the root unfolds from the
items. The tree is found when every node that is reached is complete and comes after its items, and
all else is refused as malformed.
-/
namespace PropertyPath

/-- Two lists that are related to a third are the same if so are any two elements that are related
to a third. -/
theorem eq_of_forall₂ {α β : Type} {R S : α → β → Prop} {as : List α} {bs cs : List β}
    (h : ∀ a, ∀ b ∈ bs, ∀ c, R a b → S a c → b = c) (hbs : List.Forall₂ R as bs)
    (hcs : List.Forall₂ S as cs) :
    bs = cs := by
  induction hbs generalizing cs with
  | nil =>
      cases hcs
      rfl
  | cons hab _ ih =>
      cases hcs with
      | cons hac hcs =>
          rw [h _ _ List.mem_cons_self _ hab hac,
            ih (fun a b hb => h a b (List.mem_cons_of_mem _ hb)) hcs]

namespace SucceedsIff

/-- What succeeds met what it asks for. -/
theorem of_eq_ok {α : Type} {p : Prop} {r : Except PathFault α} (h : SucceedsIff p r)
    {a : α} (ha : r = .ok a) :
    p := by
  by_contra hnot
  obtain ⟨_, _, hrefused⟩ := h.malformed hnot
  cases ha.symm.trans hrefused

theorem mapM {α β : Type} {p : α → Prop} {f : α → Except PathFault β} {as : List α}
    (h : ∀ a ∈ as, SucceedsIff (p a) (f a)) : SucceedsIff (∀ a ∈ as, p a) (as.mapM f) := by
  induction as with
  | nil => exact .of_ok nofun []
  | cons a as ih =>
      obtain ⟨ha, has⟩ := List.forall_mem_cons.mp h
      rw [List.mapM_cons, List.forall_mem_cons]
      exact ha.bind fun b _ => (ih has).map _

end SucceedsIff

namespace TreeEntry

/-- A leaf has a property, an operator at least one item, and a unary operator one. -/
def Complete : TreeEntry → Prop
  | property set => set.properties.toList ≠ []
  | path operator items => items ≠ [] ∧ (operator.isUnary = true → items.length = 1)

theorem withItems_items (entry : TreeEntry) : entry.withItems entry.items = entry := by
  cases entry <;> rfl

theorem succeedsIff_check (id : NodeId) (entry : TreeEntry) :
    SucceedsIff entry.Complete (entry.check id) := by
  cases entry with
  | property set =>
      rw [check]
      split
      · next hempty => exact .of_malformed (fun hne => hne (List.isEmpty_iff.mp hempty)) _ _
      · next hne => exact .of_ok (by simpa [IriSet.isEmpty, Complete] using hne) ()
  | path operator items =>
      rw [check]
      split
      · next hcount =>
          rw [Bool.and_eq_true, bne_iff_ne] at hcount
          exact .of_malformed (fun h => hcount.2 (h.2 hcount.1)) _ _
      · next hcount =>
          split
          · next hempty => exact .of_malformed (fun h => h.1 (List.isEmpty_iff.mp hempty)) _ _
          · next hne => exact .of_ok ⟨by simpa using hne, by simpa using hcount⟩ ()

end TreeEntry

namespace PathTree

theorem withItems_rootEntry (t : PathTree) (ids ids' : List NodeId) :
    (t.rootEntry ids).withItems ids' = t.rootEntry ids' := by
  cases t <;> rfl

theorem throughout_iff {P : PathTree → Prop} {t : PathTree} :
    t.Throughout P ↔ P t ∧ ∀ u ∈ t.operands, u.Throughout P := by
  cases t <;> simp [operands, and_comm]

theorem formed_iff {t : PathTree} : t.Formed ↔ t.Filled ∧ ∀ u ∈ t.operands, u.Formed :=
  throughout_iff

/-- The root of a formed tree is complete. -/
theorem complete_rootEntry {t : PathTree} (h : t.Filled) {ids : List NodeId}
    (hids : ids.length = t.operands.length) : (t.rootEntry ids).Complete := by
  have hne (hoperands : t.operands ≠ []) : ids ≠ [] := by
    rw [← List.length_pos_iff, hids]
    exact List.length_pos_of_ne_nil hoperands
  cases t with
  | property set => exact h
  | inverse item => exact ⟨hne (List.cons_ne_nil _ _), fun _ => hids⟩
  | closure kind item => exact ⟨hne (List.cons_ne_nil _ _), fun _ => hids⟩
  | negation items => exact ⟨hne h, nofun⟩
  | sequence items => exact ⟨hne h, nofun⟩
  | alternative items => exact ⟨hne h, nofun⟩

end PathTree

namespace TreeBuilder
open PathTree

/-- The node is the root of the tree, and what is below the root unfolds from the items of the
node. -/
inductive Unfolds (b : TreeBuilder) : NodeId → PathTree → Prop
  | intro {id : NodeId} {t : PathTree} {ids : List NodeId}
      (root : b.node? id = some (t.rootEntry ids))
      (operands : List.Forall₂ (Unfolds b) ids t.operands) : Unfolds b id t

/-- There is a root, and every node that is reached from it is complete and comes after its
items. -/
structure Sound (b : TreeBuilder) (root : NodeId) : Prop where
  exists_root : ∃ entry, b.node? root = some entry
  inOrder : ∀ id entry, Relation.ReflTransGen b.HasItem root id → b.node? id = some entry →
    entry.Complete ∧ ∀ item ∈ entry.items, item.index < id.index

variable {b : TreeBuilder} {id : NodeId} {t u : PathTree}

/-- From one node at most one tree unfolds. -/
theorem Unfolds.unique (ht : b.Unfolds id t) (hu : b.Unfolds id u) : t = u := by
  induction t using operands_induction generalizing id u with
  | h t ih =>
      cases ht with
      | @intro _ _ ids hroot hoperands =>
          cases hu with
          | @intro _ _ ids' hroot' hoperands' =>
              have heq : t.rootEntry ids = u.rootEntry ids' :=
                Option.some.inj (hroot.symm.trans hroot')
              have hids : ids = ids' := by
                rw [← items_rootEntry hoperands.length_eq, heq,
                  items_rootEntry hoperands'.length_eq]
              subst hids
              refine eq_of_rootEntry_eq heq (eq_of_forall₂ ?_ hoperands hoperands')
              exact fun item v hv w hitem hitem' => ih v hv hitem hitem'

theorem lt_length_of_node? {entry : TreeEntry} (h : b.node? id = some entry) :
    id.index < b.entries.length :=
  (List.getElem?_eq_some_iff.mp h).1

theorem sound_iff : b.Sound id ↔ ∃ entry, b.node? id = some entry ∧ entry.Complete ∧
    ∀ item ∈ entry.items, item.index < id.index ∧ b.Sound item := by
  constructor
  · rintro ⟨⟨entry, hentry⟩, hreached⟩
    obtain ⟨hcomplete, hbefore⟩ := hreached id entry .refl hentry
    refine ⟨entry, hentry, hcomplete, fun item hitem => ⟨hbefore item hitem, ?_, ?_⟩⟩
    · have hlt := Nat.lt_trans (hbefore item hitem) (lt_length_of_node? hentry)
      exact ⟨_, List.getElem?_eq_getElem hlt⟩
    · exact fun other entry' hother => hreached other entry' (.head ⟨entry, hentry, hitem⟩ hother)
  · rintro ⟨entry, hentry, hcomplete, hitems⟩
    refine ⟨⟨entry, hentry⟩, fun other entry' hother hentry' => ?_⟩
    rcases hother.cases_head with rfl | ⟨item, ⟨first, hfirst, hitem⟩, hrest⟩
    · rw [Option.some.inj (hentry'.symm.trans hentry)]
      exact ⟨hcomplete, fun item hitem => (hitems item hitem).1⟩
    · rw [Option.some.inj (hfirst.symm.trans hentry)] at hitem
      exact (hitems item hitem).2.inOrder other entry' hrest hentry'

section unfold

/-- What unfolds from an item of a node. -/
def unfoldItem (b : TreeBuilder) (id item : NodeId) : Except PathFault PathTree :=
  if item.index < id.index then b.unfold item else .error (.malformedNode item .lateChild)

theorem unfold_of_none (h : b.node? id = none) :
    b.unfold id = .error (.malformedNode id .unknownNode) := by
  rw [unfold, h]

/-- A node is checked, what is below it unfolds from its items, and the tree is put together. -/
theorem unfold_of_node {entry : TreeEntry} (h : b.node? id = some entry) :
    ∃ tree : List PathTree → PathTree,
      (entry.Complete → ∀ us, us.length = entry.items.length →
        (tree us).operands = us ∧ ∀ ids, (tree us).rootEntry ids = entry.withItems ids) ∧
      b.unfold id = (do
        entry.check id
        let us ← entry.items.mapM (b.unfoldItem id)
        return tree us) := by
  rw [unfold, h]
  cases entry with
  | property set =>
      refine ⟨fun _ => .property set, fun _ us hus => ⟨?_, fun _ => rfl⟩, ?_⟩
      · exact (List.eq_nil_of_length_eq_zero hus).symm
      · simp only [TreeEntry.check, TreeEntry.items, List.mapM_nil]
        split <;> rfl
  | path operator items =>
      -- A unary operator takes its operand from the list, all others take the list.
      have hone (us : List PathTree) (hus : us.length = 1) : [us.headD (.sequence [])] = us := by
        obtain ⟨u, rfl⟩ := List.length_eq_one_iff.mp hus
        rfl
      have hitem (f : PathTree → PathTree) (item : NodeId) :
          (do return f (← b.unfoldItem id item)) =
            (do let us ← [item].mapM (b.unfoldItem id); return f (us.headD (.sequence []))) := by
        rw [List.mapM_cons, List.mapM_nil]
        cases b.unfoldItem id item <;> rfl
      cases operator with
      | inverse =>
          refine ⟨fun us => .inverse (us.headD (.sequence [])),
            fun hcomplete us hus => ⟨hone us (hus.trans (hcomplete.2 rfl)), fun _ => rfl⟩, ?_⟩
          match items with
          | [] => rfl
          | [item] => exact hitem .inverse item
          | _ :: _ :: _ => rfl
      | closure kind =>
          refine ⟨fun us => .closure kind (us.headD (.sequence [])),
            fun hcomplete us hus => ⟨hone us (hus.trans (hcomplete.2 rfl)), fun _ => rfl⟩, ?_⟩
          match items with
          | [] => rfl
          | [item] => exact hitem (.closure kind) item
          | _ :: _ :: _ => rfl
      | negation => exact ⟨.negation, fun _ us _ => ⟨rfl, fun _ => rfl⟩, by cases items <;> rfl⟩
      | sequence => exact ⟨.sequence, fun _ us _ => ⟨rfl, fun _ => rfl⟩, by cases items <;> rfl⟩
      | alternative =>
          exact ⟨.alternative, fun _ us _ => ⟨rfl, fun _ => rfl⟩, by cases items <;> rfl⟩

/-- A tree unfolds exactly from a complete node that is its root, when the trees below the root
unfold from items before the node. -/
theorem unfold_eq_ok_iff : b.unfold id = .ok t ↔ ∃ ids, b.node? id = some (t.rootEntry ids) ∧
    (t.rootEntry ids).Complete ∧
      List.Forall₂ (fun item u => item.index < id.index ∧ b.unfold item = .ok u)
        ids t.operands := by
  have hunfoldItem (item : NodeId) (u : PathTree) :
      b.unfoldItem id item = .ok u ↔ item.index < id.index ∧ b.unfold item = .ok u := by
    rw [unfoldItem]
    split
    · next hlt => exact (and_iff_right hlt).symm
    · next hnot => exact ⟨nofun, fun h => absurd h.1 hnot⟩
  simp only [← hunfoldItem, ← mapM_eq_ok_iff]
  constructor
  · intro h
    cases hnode : b.node? id with
    | none =>
        rw [unfold_of_none hnode] at h
        cases h
    | some entry =>
        obtain ⟨tree, htree, hunfold⟩ := unfold_of_node hnode
        simp only [hunfold, bind_eq_ok_iff, pure_eq_ok_iff] at h
        obtain ⟨_, hcheck, us, hus, rfl⟩ := h
        have hcomplete := (entry.succeedsIff_check id).of_eq_ok hcheck
        obtain ⟨hoperands, hroot⟩ := htree hcomplete us (mapM_eq_ok_iff.mp hus).length_eq.symm
        refine ⟨entry.items, ?_, ?_, ?_⟩
        · rw [hroot, entry.withItems_items]
        · rw [hroot, entry.withItems_items]
          exact hcomplete
        · rw [hoperands]
          exact hus
  · rintro ⟨ids, hnode, hcomplete, hitems⟩
    have hlength := (mapM_eq_ok_iff.mp hitems).length_eq
    obtain ⟨tree, htree, hunfold⟩ := unfold_of_node hnode
    have hids : (t.rootEntry ids).items = ids := items_rootEntry hlength
    obtain ⟨hoperands, hroot⟩ := htree hcomplete t.operands (by rw [hids, hlength])
    obtain ⟨_, hcheck⟩ := ((t.rootEntry ids).succeedsIff_check id).ok hcomplete
    have hentry : (tree t.operands).rootEntry ids = t.rootEntry ids := by
      rw [hroot, withItems_rootEntry]
    have hsame : tree t.operands = t := eq_of_rootEntry_eq hentry hoperands
    rw [hunfold, hcheck, hids, hitems]
    exact congrArg Except.ok hsame

/-- A tree unfolds from a sound node, and from no other. -/
theorem succeedsIff_unfold (b : TreeBuilder) (id : NodeId) :
    SucceedsIff (b.Sound id) (b.unfold id) := by
  induction hn : id.index using Nat.strongRecOn generalizing id with
  | ind n ih =>
      cases hnode : b.node? id with
      | none =>
          rw [unfold_of_none hnode]
          refine .of_malformed ?_ _ _
          rintro ⟨⟨entry, hentry⟩, _⟩
          cases hnode.symm.trans hentry
      | some entry =>
          obtain ⟨tree, _, hunfold⟩ := unfold_of_node hnode
          have hitem (item : NodeId) :
              SucceedsIff (item.index < id.index ∧ b.Sound item) (b.unfoldItem id item) := by
            rw [unfoldItem]
            split
            · next hlt => exact (ih item.index (hn ▸ hlt) item rfl).congr (and_iff_right hlt).symm
            · next hnot => exact .of_malformed (fun h => hnot h.1) _ _
          rw [hunfold]
          refine ((entry.succeedsIff_check id).bind fun _ _ =>
            (SucceedsIff.mapM fun item _ => hitem item).map tree).congr ?_
          rw [sound_iff]
          simp [hnode]

theorem unfolds_of_unfold (h : b.unfold id = .ok t) : b.Unfolds id t := by
  induction hn : id.index using Nat.strongRecOn generalizing id t with
  | ind n ih =>
      obtain ⟨ids, hnode, _, hitems⟩ := unfold_eq_ok_iff.mp h
      exact .intro hnode (hitems.imp fun item u hu => ih item.index (hn ▸ hu.1) hu.2 rfl)

end unfold

end TreeBuilder

end PropertyPath
