import Mathlib.Data.List.Perm.Basic
import Mathlib.Data.List.Nodup
import PropertyPath.Path.Builder

/-!
# The numbering of a tree

In the listing of a tree the root comes last, every other node is an item of one node, which comes
after it, and of this node it is one item.
-/
namespace PropertyPath

namespace TreeBuilder

/-- A node that there is has the other as an item. -/
def HasItem (b : TreeBuilder) (id item : NodeId) : Prop :=
  ∃ entry, b.node? id = some entry ∧ item ∈ entry.items

/-- The root is the last node. No node has an item twice, items come before what has them, and every
node but the root is an item of exactly one node. -/
structure TreeShaped (b : TreeBuilder) (root : NodeId) : Prop where
  last : root.index + 1 = b.entries.length
  nodup : ∀ entry ∈ b.entries, entry.items.Nodup
  later : ∀ id item, b.HasItem id item → item.index < id.index
  parent : ∀ item : NodeId, item.index < root.index → ∃! id, b.HasItem id item

/-- Where no node is an item twice, it is an item of one node only. -/
theorem hasItem_unique {b : TreeBuilder}
    (h : (b.entries.flatMap (·.items)).Nodup) {item id id' : NodeId}
    (hid : b.HasItem id item) (hid' : b.HasItem id' item) : id = id' := by
  have hdisjoint := List.pairwise_iff_getElem.mp (List.nodup_flatMap.mp h).2
  obtain ⟨entry, hentry, hmem⟩ := hid
  obtain ⟨entry', hentry', hmem'⟩ := hid'
  obtain ⟨hlt, rfl⟩ := List.getElem?_eq_some_iff.mp hentry
  obtain ⟨hlt', rfl⟩ := List.getElem?_eq_some_iff.mp hentry'
  rcases Nat.lt_trichotomy id.index id'.index with hbefore | heq | hafter
  · exact (hdisjoint _ _ hlt hlt' hbefore hmem hmem').elim
  · exact congrArg NodeId.mk heq
  · exact (hdisjoint _ _ hlt' hlt hafter hmem' hmem).elim

end TreeBuilder

namespace PathTree

/-- The trees below the root, from left to right. -/
def operands : PathTree → List PathTree
  | .property _ => []
  | .inverse item => [item]
  | .negation items => items
  | .closure _ item => [item]
  | .sequence items => items
  | .alternative items => items

/-- The root as a node with the given items. -/
def rootEntry (ids : List NodeId) : PathTree → TreeEntry
  | .property set => .property set
  | .inverse _ => .path .inverse ids
  | .negation _ => .path .negation ids
  | .closure kind _ => .path (.closure kind) ids
  | .sequence _ => .path .sequence ids
  | .alternative _ => .path .alternative ids

theorem before_eq (t : PathTree) : t.before = sizeAll t.operands := by
  cases t <;> simp [before, operands, sizeAll]

theorem listing_eq (k : Nat) (t : PathTree) :
    t.listing k = listingAll k t.operands ++ [t.rootEntry (rootIds k t.operands)] := by
  cases t <;> simp [listing, operands, rootEntry, listingAll, rootIds]

theorem size_lt_of_mem_operands {t u : PathTree} (h : u ∈ t.operands) : u.size < t.size := by
  have hall (ts : List PathTree) (hu : u ∈ ts) : u.size ≤ sizeAll ts := by
    induction ts with
    | nil => cases hu
    | cons t ts ih =>
        rw [sizeAll]
        rcases List.mem_cons.mp hu with rfl | hu
        · exact Nat.le_add_right _ _
        · exact Nat.le_trans (ih hu) (Nat.le_add_left _ _)
  have hle := hall t.operands h
  rw [size.eq_1 t, before_eq]
  omega

/-- What passes from the trees below the root to the tree holds of every tree. -/
theorem operands_induction {P : PathTree → Prop}
    (h : ∀ t, (∀ u ∈ t.operands, P u) → P t) (t : PathTree) :
    P t := by
  induction hn : t.size using Nat.strongRecOn generalizing t with
  | ind n ih => exact h t fun u hu => ih u.size (hn ▸ size_lt_of_mem_operands hu) u rfl

/-- Induction along the listing: from one tree to those that are listed behind it, and from the
trees below a root to the tree. -/
theorem listing_induction {P : Nat → PathTree → Prop}
    {Q : Nat → List PathTree → Prop} (nil : ∀ k, Q k [])
    (cons : ∀ k t ts, P k t → Q (k + t.size) ts → Q k (t :: ts))
    (root : ∀ k t, Q k t.operands → P k t)
    (k : Nat) (t : PathTree) : P k t := by
  induction t using operands_induction generalizing k with
  | h t ih =>
      have hall (ts : List PathTree) (hts : ∀ u ∈ ts, u ∈ t.operands) (k : Nat) : Q k ts := by
        induction ts generalizing k with
        | nil => exact nil k
        | cons u ts ihts =>
            obtain ⟨hu, hts⟩ := List.forall_mem_cons.mp hts
            exact cons k u ts (ih u hu k) (ihts hts (k + u.size))
      exact root k t (hall t.operands (fun _ hu => hu) k)

theorem items_rootEntry {t : PathTree} {ids : List NodeId} (h : ids.length = t.operands.length) :
    (t.rootEntry ids).items = ids := by
  cases t with
  | property set => exact (List.eq_nil_of_length_eq_zero h).symm
  | _ => rfl

/-- A tree is known by its root and what is below it. -/
theorem eq_of_rootEntry_eq {t u : PathTree} {ids : List NodeId}
    (hroot : t.rootEntry ids = u.rootEntry ids)
    (hoperands : t.operands = u.operands) : t = u := by
  cases t <;> cases u <;> simp_all [rootEntry, operands]

theorem items_rootEntry_rootIds (k : Nat) (t : PathTree) :
    (t.rootEntry (rootIds k t.operands)).items = rootIds k t.operands :=
  items_rootEntry (length_rootIds k t.operands)

theorem index_of_mem_rootIds {k : Nat} {ts : List PathTree} {id : NodeId} (h : id ∈ rootIds k ts) :
    id.index < k + sizeAll ts := by
  induction ts generalizing k with
  | nil => cases h
  | cons t ts ih =>
      rw [sizeAll]
      rcases List.mem_cons.mp h with rfl | h
      · change k + t.before < _
        omega
      · have hlt := ih h
        rw [size] at hlt
        omega

/-- The items of all nodes that are listed are all of the nodes but the root. -/
theorem perm_items_listing (k : Nat) (t : PathTree) :
    ((t.listing k).flatMap (·.items)).Perm ((List.range' k t.before).map NodeId.mk) := by
  refine listing_induction
    (P := fun k t =>
      ((t.listing k).flatMap (·.items)).Perm ((List.range' k t.before).map NodeId.mk))
    (Q := fun k ts => ((listingAll k ts).flatMap (·.items) ++ rootIds k ts).Perm
      ((List.range' k (sizeAll ts)).map NodeId.mk)) ?_ ?_ ?_ k t
  · exact fun k => List.Perm.refl _
  · intro k t ts ht hts
    have hrange : List.range' k (sizeAll (t :: ts)) =
        List.range' k t.before ++ (k + t.before) :: List.range' (k + t.size) (sizeAll ts) := by
      rw [sizeAll, Nat.add_assoc, Nat.add_comm 1, ← List.range'_append_1, List.range'_succ]
      rfl
    rw [hrange, List.map_append, List.map_cons, listingAll, List.flatMap_append,
      rootIds, List.append_assoc]
    exact ht.append (List.perm_middle.trans (hts.cons (t.rootId k)))
  · intro k t hall
    rw [listing_eq, List.flatMap_append, List.flatMap_singleton, items_rootEntry_rootIds, before_eq]
    exact hall

/-- An item is listed before the node that has it. -/
theorem index_lt_of_listing {k : Nat} {t : PathTree} {p : Nat} {entry : TreeEntry}
    (h : (t.listing k)[p]? = some entry) {item : NodeId} (hitem : item ∈ entry.items) :
    item.index < k + p := by
  let InOrder (k : Nat) (entries : List TreeEntry) : Prop :=
    ∀ p entry, entries[p]? = some entry → ∀ item ∈ entry.items, item.index < k + p
  have hkept {k : Nat} {xs ys : List TreeEntry} (hx : InOrder k xs)
      (hy : InOrder (k + xs.length) ys) :
      InOrder k (xs ++ ys) := by
    intro p entry hp item hitem
    rw [List.getElem?_append] at hp
    split at hp
    · exact hx p entry hp item hitem
    · have hlt := hy (p - xs.length) entry hp item hitem
      omega
  refine listing_induction (P := fun k t => InOrder k (t.listing k))
    (Q := fun k ts => InOrder k (listingAll k ts))
    ?_ ?_ ?_ k t p entry h item hitem
  · exact fun k => nofun
  · intro k t ts ht hts
    exact hkept ht (length_listing k t ▸ hts)
  · intro k t hall
    rw [listing_eq]
    refine hkept hall ?_
    intro p entry hp item hitem
    obtain ⟨rfl, rfl⟩ : p = 0 ∧ entry = t.rootEntry (rootIds k t.operands) := by
      cases p with
      | zero => exact ⟨rfl, (Option.some.inj hp).symm⟩
      | succ p => cases hp
    rw [items_rootEntry_rootIds] at hitem
    rw [length_listingAll]
    exact index_of_mem_rootIds hitem

theorem treeShaped_listing (t : PathTree) :
    (TreeBuilder.mk (t.listing 0)).TreeShaped (t.rootId 0) := by
  have hperm := perm_items_listing 0 t
  have hnodup : ((t.listing 0).flatMap (·.items)).Nodup :=
    hperm.nodup_iff.mpr (List.Nodup.map (fun _ _ h => congrArg NodeId.index h) List.nodup_range')
  constructor
  · rw [length_listing]
    simp [rootId, size]
  · exact (List.nodup_flatMap.mp hnodup).1
  · rintro id item ⟨entry, hentry, hitem⟩
    simpa using index_lt_of_listing hentry hitem
  · intro item hitem
    have hmem : item ∈ (t.listing 0).flatMap (·.items) := by
      rw [hperm.mem_iff, List.mem_map]
      exact ⟨item.index, by simpa [rootId] using hitem, rfl⟩
    obtain ⟨entry, hentry, hitem⟩ := List.mem_flatMap.mp hmem
    obtain ⟨p, hp⟩ := List.getElem?_of_mem hentry
    have hparent : (TreeBuilder.mk (t.listing 0)).HasItem ⟨p⟩ item := ⟨entry, hp, hitem⟩
    exact ⟨⟨p⟩, hparent, fun id hid => TreeBuilder.hasItem_unique hnodup hid hparent⟩

end PathTree

end PropertyPath
