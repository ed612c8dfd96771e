import PropertyPath.Proofs.Path.Unfolding

/-!
# What is finished is what unfolds

The nodes of the tree that unfolds from a root are listed in post-order if there are not too many of
them, and all else is refused as malformed. A copy of the listing behind any other nodes is finished
as the same listing again.
-/
namespace PropertyPath

/-- What goes on from a state goes on from what is done first. -/
theorem bind_of_run_eq {σ α β : Type} {m : Type → Type} [Monad m] [LawfulMonad m] {x : StateT σ m α}
    {f : α → StateT σ m β} {s s' : σ} {a : α} (h : x s = pure (a, s')) : (x >>= f) s = f a s' := by
  change (x s >>= fun result => f result.1 result.2) = _
  rw [h, pure_bind]

namespace TreeBuilder
open PathTree

variable {b : TreeBuilder} {id : NodeId} {t : PathTree}

section renumber

/-- For an outcome, a numbering lists the tree, if there is one and it fits behind what is listed,
and is refused because of a malformed node otherwise. -/
structure Numbers (limit : Nat) (outcome : Except PathFault PathTree)
    (numbering : Numbering NodeId) : Prop where
  ok : ∀ t listed, outcome = .ok t → listed.length + t.size ≤ limit →
    numbering listed = .ok (t.rootId listed.length, listed ++ t.listing listed.length)
  malformed :
      ∀ listed, listed.length ≤ limit → (∀ t, outcome = .ok t → limit < listed.length + t.size) →
    ∃ node malformation, numbering listed = .error (.malformedNode node malformation)

/-- The same for several trees that are listed one behind the other. -/
structure NumbersAll (limit : Nat) (outcome : Except PathFault (List PathTree))
    (numbering : Numbering (List NodeId)) : Prop where
  ok : ∀ ts listed, outcome = .ok ts → listed.length + sizeAll ts ≤ limit →
    numbering listed = .ok (rootIds listed.length ts, listed ++ listingAll listed.length ts)
  malformed : ∀ listed, listed.length ≤ limit →
      (∀ ts, outcome = .ok ts → limit < listed.length + sizeAll ts) →
    ∃ node malformation, numbering listed = .error (.malformedNode node malformation)

theorem numbering_bind_of_error {α β : Type} {m : Numbering α}
    {f : α → Numbering β} {fault : PathFault}
    {listed : List TreeEntry} (h : m listed = .error fault) : (m >>= f) listed = .error fault := by
  change (m listed >>= fun result => f result.1 result.2) = _
  rw [h]
  rfl

variable {limit : Nat}

theorem numbersAll_mapM {f : NodeId → Except PathFault PathTree} {g : NodeId → Numbering NodeId}
    (h : ∀ item, Numbers limit (f item) (g item)) (items : List NodeId) :
    NumbersAll limit (items.mapM f) (items.mapM g) := by
  induction items with
  | nil =>
      constructor
      · intro ts listed hts _
        obtain rfl : ts = [] := (Except.ok.inj hts).symm
        rw [listingAll, List.append_nil]
        rfl
      · intro listed hle hlong
        have hlt := hlong [] rfl
        rw [sizeAll] at hlt
        omega
  | cons item items ih =>
      rw [List.mapM_cons, List.mapM_cons]
      have hlength (t : PathTree) (listed : List TreeEntry) :
          (listed ++ t.listing listed.length).length = listed.length + t.size := by
        rw [List.length_append, length_listing]
      constructor
      · intro ts listed hts hle
        simp only [bind_eq_ok_iff, pure_eq_ok_iff] at hts
        obtain ⟨t, ht, us, hus, rfl⟩ := hts
        have hsize : sizeAll (t :: us) = t.size + sizeAll us := rfl
        have hfirst := (h item).ok t listed ht (by omega)
        have hrest := ih.ok us (listed ++ t.listing listed.length) hus (by rw [hlength]; omega)
        rw [bind_of_run_eq hfirst, bind_of_run_eq hrest, hlength, List.append_assoc]
        rfl
      · intro listed hle hlong
        -- Either the first tree is listed and what is behind it is refused, or the first tree is.
        by_cases hfits : ∃ t, f item = .ok t ∧ listed.length + t.size ≤ limit
        · obtain ⟨t, ht, hle'⟩ := hfits
          have hfirst := (h item).ok t listed ht hle'
          obtain ⟨node, malformation, hrest⟩ := ih.malformed (listed ++ t.listing listed.length)
            (by rw [hlength]; exact hle') (fun us hus => by
              have hlt := hlong (t :: us) (by rw [ht, hus]; rfl)
              have hsize : sizeAll (t :: us) = t.size + sizeAll us := rfl
              rw [hlength]
              omega)
          refine ⟨node, malformation, ?_⟩
          rw [bind_of_run_eq hfirst, numbering_bind_of_error hrest]
        · obtain ⟨node, malformation, hfirst⟩ := (h item).malformed listed hle
            (fun t ht => Nat.lt_of_not_le fun hle' => hfits ⟨t, ht, hle'⟩)
          exact ⟨node, malformation, numbering_bind_of_error hfirst⟩

/-- What is refused from any listing stands for no tree. -/
theorem Numbers.of_refused {numbering : Numbering NodeId} {fault : PathFault} {node : NodeId}
    {malformation : Malformation}
    (h : ∀ listed, numbering listed = .error (.malformedNode node malformation)) :
    Numbers limit (.error fault) numbering := by
  constructor
  · intro t listed ht
    cases ht
  · exact fun listed _ _ => ⟨node, malformation, h listed⟩

/-- A check before a tree is listed refuses it or changes nothing. -/
theorem Numbers.check {outcome : Except PathFault PathTree}
    {numbering : Numbering NodeId} {entry : TreeEntry}
    (h : entry.Complete → Numbers limit outcome numbering) (id : NodeId) :
    Numbers limit (entry.check id >>= fun _ => outcome)
      ((liftM (entry.check id) : Numbering Unit) >>= fun _ => numbering) := by
  by_cases hcomplete : entry.Complete
  · obtain ⟨_, hcheck⟩ := (entry.succeedsIff_check id).ok hcomplete
    rw [hcheck]
    exact h hcomplete
  · obtain ⟨node, malformation, hcheck⟩ := (entry.succeedsIff_check id).malformed hcomplete
    rw [hcheck]
    exact .of_refused fun _ => rfl

/-- After the trees below it the root is listed, if it fits. -/
theorem NumbersAll.root {outcome : Except PathFault (List PathTree)}
    {numbering : Numbering (List NodeId)}
    (h : NumbersAll limit outcome numbering) {tree : List PathTree → PathTree} {entry : TreeEntry}
    (htree : ∀ us, outcome = .ok us →
      (tree us).operands = us ∧
      ∀ ids, (tree us).rootEntry ids = entry.withItems ids) (id : NodeId) :
    Numbers limit (outcome >>= fun us => pure (tree us))
      (numbering >>= fun ids => Numbering.list limit id (entry.withItems ids)) := by
  have hsize {us : List PathTree} (hus : outcome = .ok us) : (tree us).before = sizeAll us := by
    rw [before_eq, (htree us hus).1]
  have hlength (listed : List TreeEntry) (us : List PathTree) :
      (listed ++ listingAll listed.length us).length = listed.length + sizeAll us := by
    rw [List.length_append, length_listingAll]
  constructor
  · intro t listed ht hle
    simp only [bind_eq_ok_iff, pure_eq_ok_iff] at ht
    obtain ⟨us, hus, rfl⟩ := ht
    rw [size, hsize hus] at hle
    rw [bind_of_run_eq (h.ok us listed hus (by omega)), Numbering.list, hlength, if_neg (by omega),
      listing_eq, rootId, hsize hus, (htree us hus).1, (htree us hus).2, List.append_assoc]
  · intro listed hle hlong
    by_cases hfits : ∃ us, outcome = .ok us ∧ listed.length + sizeAll us ≤ limit
    · obtain ⟨us, hus, hfits⟩ := hfits
      have hlt := hlong (tree us) (by rw [hus]; rfl)
      rw [size, hsize hus] at hlt
      rw [bind_of_run_eq (h.ok us listed hus hfits), Numbering.list, hlength, if_pos (by omega)]
      exact ⟨_, _, rfl⟩
    · obtain ⟨node, malformation, hrefused⟩ := h.malformed listed hle
        (fun us hus => Nat.lt_of_not_le fun hle' => hfits ⟨us, hus, hle'⟩)
      exact ⟨node, malformation, numbering_bind_of_error hrefused⟩

/-- What unfolds from a node is listed. -/
theorem numbers_renumber (b : TreeBuilder) (limit : Nat) (id : NodeId) :
    Numbers limit (b.unfold id) (b.renumber limit id) := by
  induction hn : id.index using Nat.strongRecOn generalizing id with
  | ind n ih =>
      rw [renumber]
      cases hnode : b.node? id with
      | none =>
          rw [unfold_of_none hnode]
          exact .of_refused fun _ => rfl
      | some entry =>
          obtain ⟨tree, htree, hunfold⟩ := unfold_of_node hnode
          have hitem (item : NodeId) : Numbers limit (b.unfoldItem id item)
              (if item.index < id.index then b.renumber limit item
                else fun _ => .error (.malformedNode item .lateChild)) := by
            rw [unfoldItem]
            split
            · next hlt => exact ih item.index (hn ▸ hlt) item rfl
            · exact .of_refused fun _ => rfl
          rw [hunfold]
          refine Numbers.check
            (fun hcomplete => (numbersAll_mapM hitem entry.items).root (fun us hus => ?_) id) id
          exact htree hcomplete us (mapM_eq_ok_iff.mp hus).length_eq.symm

/-- What is listed with a limit: the tree that unfolds, if it is not too large. -/
theorem finishWithin_eq_ok_iff {root : NodeId} {nodes : List TreeEntry} :
    b.finishWithin limit root = .ok (id, nodes) ↔
      ∃ t, b.unfold root = .ok t ∧ t.size ≤ limit ∧ id = t.rootId 0 ∧ nodes = t.listing 0 := by
  have hnumbers := numbers_renumber b limit root
  constructor
  · intro h
    by_cases hfits : ∃ t, b.unfold root = .ok t ∧ t.size ≤ limit
    · obtain ⟨t, ht, hle⟩ := hfits
      have hlisted := hnumbers.ok t [] ht (by simpa using hle)
      cases h.symm.trans hlisted
      exact ⟨t, ht, hle, rfl, rfl⟩
    · obtain ⟨_, _, hrefused⟩ := hnumbers.malformed [] (Nat.zero_le limit)
        (fun t ht => by simpa using fun hle => hfits ⟨t, ht, hle⟩)
      cases h.symm.trans hrefused
  · rintro ⟨t, ht, hle, rfl, rfl⟩
    exact hnumbers.ok t [] ht (by simpa using hle)

theorem succeedsIff_finishWithin (b : TreeBuilder) (limit : Nat) (root : NodeId) :
    SucceedsIff (b.Sound root ∧ ∀ t, b.Unfolds root t → t.size ≤ limit)
      (b.finishWithin limit root) := by
  have hunfold := succeedsIff_unfold b root
  have hnumbers := numbers_renumber b limit root
  constructor
  · rintro ⟨hsound, hsize⟩
    obtain ⟨t, ht⟩ := hunfold.ok hsound
    exact ⟨_, hnumbers.ok t [] ht (by simpa using hsize t (unfolds_of_unfold ht))⟩
  · intro hnot
    refine hnumbers.malformed [] (Nat.zero_le limit) fun t ht => ?_
    have hsound := hunfold.of_eq_ok ht
    by_contra hle
    refine hnot ⟨hsound, fun u hu => ?_⟩
    rw [hu.unique (unfolds_of_unfold ht)]
    simpa using hle

/-- What is finished: the tree that unfolds, if it has no more nodes than there may be. -/
theorem finish_eq_ok_iff {root : NodeId} :
    b.finish root = .ok t ↔ b.unfold root = .ok t ∧ t.size ≤ maxNodes := by
  constructor
  · intro h
    obtain ⟨⟨id, nodes⟩, hlisted, ht⟩ := bind_eq_ok_iff.mp h
    obtain ⟨u, hu, hle, _⟩ := finishWithin_eq_ok_iff.mp hlisted
    obtain rfl := Except.ok.inj (hu.symm.trans ht)
    exact ⟨ht, hle⟩
  · rintro ⟨ht, hle⟩
    exact bind_eq_ok_iff.mpr ⟨_, finishWithin_eq_ok_iff.mpr ⟨t, ht, hle, rfl, rfl⟩, ht⟩

theorem succeedsIff_finish (b : TreeBuilder) (root : NodeId) :
    SucceedsIff (b.Sound root ∧ ∀ t, b.Unfolds root t → t.size ≤ maxNodes) (b.finish root) := by
  refine ((succeedsIff_finishWithin b maxNodes root).bind (q := True) fun listed h => ?_).congr
    (and_iff_left trivial)
  obtain ⟨t, ht, _⟩ := finishWithin_eq_ok_iff.mp h
  rw [ht]
  exact .of_ok trivial t

end renumber

section copy

/-- The nodes stand in the builder one behind the other, after the first `k`. -/
def Holds (b : TreeBuilder) (k : Nat) (entries : List TreeEntry) : Prop :=
  ∀ p entry, entries[p]? = some entry → b.node? ⟨k + p⟩ = some entry

theorem holds_append {k : Nat} {xs ys : List TreeEntry} (h : b.Holds k (xs ++ ys)) :
    b.Holds k xs ∧ b.Holds (k + xs.length) ys := by
  constructor
  · intro p entry hp
    refine h p entry ?_
    rw [List.getElem?_append_left (List.getElem?_eq_some_iff.mp hp).1, hp]
  · intro p entry hp
    rw [Nat.add_assoc]
    refine h (xs.length + p) entry ?_
    rw [List.getElem?_append_right (Nat.le_add_right _ _), Nat.add_sub_cancel_left, hp]

theorem holds_copy (b : TreeBuilder) (t : PathTree) :
    (b.copy t).1.Holds b.entries.length (t.listing b.entries.length) := by
  intro p entry hp
  change (b.entries ++ t.listing b.entries.length)[b.entries.length + p]? = _
  rw [List.getElem?_append_right (Nat.le_add_right _ _), Nat.add_sub_cancel_left, hp]

/-- A formed tree unfolds from the root of its nodes, wherever they stand. -/
theorem unfold_of_holds {k : Nat} (hformed : t.Formed) (h : b.Holds k (t.listing k)) :
    b.unfold (t.rootId k) = .ok t := by
  refine listing_induction
    (P := fun k t => t.Formed → b.Holds k (t.listing k) → b.unfold (t.rootId k) = .ok t)
    (Q := fun k ts => (∀ t ∈ ts, t.Formed) → b.Holds k (listingAll k ts) →
      List.Forall₂ (fun item u => item.index < k + sizeAll ts ∧ b.unfold item = .ok u)
        (rootIds k ts) ts)
    ?_ ?_ ?_ k t hformed h
  · exact fun _ _ _ => .nil
  · intro k t ts ht hts hformed hholds
    obtain ⟨hfirst, hrest⟩ := List.forall_mem_cons.mp hformed
    obtain ⟨hlisting, hbehind⟩ := holds_append hholds
    rw [length_listing] at hbehind
    have hsize : sizeAll (t :: ts) = t.before + 1 + sizeAll ts := rfl
    refine .cons ⟨?_, ht hfirst hlisting⟩ ((hts hrest hbehind).imp fun item u hu => ⟨?_, hu.2⟩)
    · change k + t.before < _
      omega
    · have hlt := hu.1
      rw [size] at hlt
      omega
  · intro k t hall hformed hholds
    obtain ⟨hfilled, hoperands⟩ := formed_iff.mp hformed
    rw [listing_eq] at hholds
    obtain ⟨hbefore, hroot⟩ := holds_append hholds
    rw [length_listingAll, ← before_eq] at hroot
    refine unfold_eq_ok_iff.mpr ⟨rootIds k t.operands, hroot 0 _ rfl,
      complete_rootEntry hfilled (length_rootIds k _), ?_⟩
    refine (hall hoperands hbefore).imp fun item u hu => ⟨?_, hu.2⟩
    rw [rootId, before_eq]
    exact hu.1

theorem unfold_copy (hformed : t.Formed) (c : TreeBuilder) :
    (c.copy t).1.unfold (c.copy t).2 = .ok t :=
  unfold_of_holds hformed (holds_copy c t)

theorem copyAll {f : NodeId → StateT TreeBuilder Option NodeId}
    {ids : List NodeId} {us : List PathTree}
    (h : List.Forall₂ (fun item u => ∀ c : TreeBuilder, f item c = some (c.copy u).swap) ids us)
    (c : TreeBuilder) : ids.mapM f c =
      some (rootIds c.entries.length us, ⟨c.entries ++ listingAll c.entries.length us⟩) := by
  induction h generalizing c with
  | nil =>
      rw [listingAll, List.append_nil]
      rfl
  | @cons item u items us hfirst _ ih =>
      rw [List.mapM_cons, bind_of_run_eq (hfirst c), bind_of_run_eq (ih (c.copy u).1)]
      have hlength : (c.copy u).1.entries.length = c.entries.length + u.size := by
        change (c.entries ++ u.listing c.entries.length).length = _
        rw [List.length_append, length_listing]
      rw [hlength, listingAll, ← List.append_assoc]
      rfl

/-- The copy of an item of a node. -/
def copyItem (nodes : List TreeEntry) (id item : NodeId) : StateT TreeBuilder Option NodeId :=
  if item.index < id.index then copyNode nodes item else fun _ => none

theorem copyNode_of_some {nodes : List TreeEntry} {entry : TreeEntry}
    (h : (TreeBuilder.mk nodes).node? id = some entry) :
    copyNode nodes id = (do
      let ids ← entry.items.mapM (copyItem nodes id)
      fun c => some (c.push (entry.withItems ids)).swap) := by
  change nodes[id.index]? = some entry at h
  rw [copyNode, h]
  rfl

/-- What unfolds from a node is copied node by node. -/
theorem copyNode_of_unfold {nodes : List TreeEntry} (h : (TreeBuilder.mk nodes).unfold id = .ok t)
    (c : TreeBuilder) : copyNode nodes id c = some (c.copy t).swap := by
  induction hn : id.index using Nat.strongRecOn generalizing id t c with
  | ind n ih =>
      obtain ⟨ids, hnode, _, hitems⟩ := unfold_eq_ok_iff.mp h
      have hitem (item : NodeId) (u : PathTree)
          (hu : item.index < id.index ∧ (TreeBuilder.mk nodes).unfold item = .ok u)
          (c : TreeBuilder) :
          copyItem nodes id item c = some (c.copy u).swap := by
        rw [copyItem, if_pos hu.1]
        exact ih item.index (hn ▸ hu.1) hu.2 c rfl
      have hcopies := copyAll (hitems.imp hitem) c
      rw [copyNode_of_some hnode, items_rootEntry hitems.length_eq,
        bind_of_run_eq hcopies, withItems_rootEntry, copy, listing_eq, rootId, before_eq,
        ← List.append_assoc, ← length_listingAll c.entries.length, ← List.length_append]
      rfl

end copy

/-- A tree unfolds exactly when there is the root and every node that is reached from it is complete
and comes after its items, and it is listed with a limit, or finished, when it is no larger than the
limit; all else is refused because of a malformed node. What is listed is the tree that unfolds from
the root, in post-order: the root comes last, and every other node is an item of exactly one node,
which comes later. The same tree unfolds from the listing, and a copy of the listing behind the
nodes of any builder is finished as the same listing. -/
theorem finishWithin_unfolding (b : TreeBuilder) (root : NodeId) (limit : Nat) :
    SucceedsIff (b.Sound root) (b.unfold root) ∧
    SucceedsIff (b.Sound root ∧ ∀ t, b.Unfolds root t → t.size ≤ limit)
      (b.finishWithin limit root) ∧
    SucceedsIff (b.Sound root ∧ ∀ t, b.Unfolds root t → t.size ≤ maxNodes) (b.finish root) ∧
    (∀ t, b.finish root = .ok t ↔ b.unfold root = .ok t ∧ t.size ≤ maxNodes) ∧
    ∀ id nodes, b.finishWithin limit root = .ok (id, nodes) →
      ∃ t, b.unfold root = .ok t ∧ b.Unfolds root t ∧ id = t.rootId 0 ∧ nodes = t.listing 0 ∧
        (TreeBuilder.mk nodes).TreeShaped id ∧ (TreeBuilder.mk nodes).Unfolds id t ∧
        ∀ c : TreeBuilder,
        ∃ c' copied, copyNode nodes id c = some (copied, c') ∧ c.copy t = (c', copied) ∧
          c'.unfold copied = .ok t ∧ c'.finishWithin limit copied = .ok (id, nodes) := by
  refine ⟨succeedsIff_unfold b root, succeedsIff_finishWithin b limit root,
    succeedsIff_finish b root, fun t => finish_eq_ok_iff, ?_⟩
  intro id nodes h
  obtain ⟨t, ht, hle, rfl, rfl⟩ := finishWithin_eq_ok_iff.mp h
  have hformed := formed_of_unfold ht
  have hunfold : (TreeBuilder.mk (t.listing 0)).unfold (t.rootId 0) = .ok t :=
    unfold_copy hformed empty
  refine ⟨t, ht, unfolds_of_unfold ht, rfl, rfl, treeShaped_listing t,
    unfolds_of_unfold hunfold, fun c => ?_⟩
  have hcopied := unfold_copy hformed c
  exact ⟨(c.copy t).1, (c.copy t).2, copyNode_of_unfold hunfold c, rfl, hcopied,
    finishWithin_eq_ok_iff.mpr ⟨t, hcopied, hle, rfl, rfl⟩⟩

/-- Of two edges, the second one repeated, with the first node used twice and another one not at
all, the first node is listed twice. A node that stands before its item is refused. -/
theorem finishWithin_unfolding_shared :
    let a : PropertySet := .forward ⟨"a"⟩
    let b : TreeBuilder :=
      ⟨[.property a, .property (.forward ⟨"b"⟩), .path (.closure .oneOrMore) [⟨0⟩],
       .path .sequence [⟨0⟩, ⟨2⟩]]⟩
    let nodes : List TreeEntry := [.property a, .property a, .path (.closure .oneOrMore) [⟨1⟩],
      .path .sequence [⟨0⟩, ⟨2⟩]]
    (b.finishWithin maxNodes ⟨3⟩ = .ok (⟨3⟩, nodes) ∧ (TreeBuilder.mk nodes).TreeShaped ⟨3⟩ ∧
      ∃ t, b.Unfolds ⟨3⟩ t ∧ empty.copy t = (⟨nodes⟩, ⟨3⟩)) ∧
    ∃ node malformation,
    (TreeBuilder.mk [.path .inverse [⟨1⟩], .property a]).finishWithin maxNodes ⟨0⟩ =
      .error (.malformedNode node malformation) := by
  intro a b nodes
  constructor
  · let t : PathTree := .sequence [.property a, .closure .oneOrMore (.property a)]
    have hleaf : b.unfold ⟨0⟩ = .ok (.property a) :=
      unfold_eq_ok_iff.mpr ⟨[], rfl, List.cons_ne_nil _ _, .nil⟩
    have hplus : b.unfold ⟨2⟩ = .ok (.closure .oneOrMore (.property a)) :=
      unfold_eq_ok_iff.mpr ⟨[⟨0⟩], rfl, ⟨List.cons_ne_nil _ _, fun _ => rfl⟩,
        .cons ⟨by decide, hleaf⟩ .nil⟩
    have hunfold : b.unfold ⟨3⟩ = .ok t :=
      unfold_eq_ok_iff.mpr ⟨[⟨0⟩, ⟨2⟩], rfl, ⟨List.cons_ne_nil _ _, nofun⟩,
        .cons ⟨by decide, hleaf⟩ (.cons ⟨by decide, hplus⟩ .nil)⟩
    have hlisted : b.finishWithin maxNodes ⟨3⟩ = .ok (⟨3⟩, nodes) :=
      finishWithin_eq_ok_iff.mpr ⟨t, hunfold, by decide, rfl, rfl⟩
    obtain ⟨u, hu, hunfolds, _, hnodes, hshaped, _⟩ :=
      (finishWithin_unfolding b ⟨3⟩ maxNodes).2.2.2.2 _ _ hlisted
    cases hu.symm.trans hunfold
    exact ⟨hlisted, hshaped, t, hunfolds, rfl⟩
  · refine (finishWithin_unfolding _ ⟨0⟩ maxNodes).2.1.malformed fun h => ?_
    have hlt := (h.1.inOrder ⟨0⟩ _ .refl rfl).2 ⟨1⟩ (List.mem_singleton_self _)
    exact absurd hlt (by decide)

end TreeBuilder

end PropertyPath
