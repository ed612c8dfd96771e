import Mathlib.Data.List.Dedup
import PropertyPath.Graph.Store

/-!
# Look-ups find what a scan would find

In whatever order its tables list their entries, a graph lists each of its triples once, and for
each key the triples that have it.
-/
namespace PropertyPath

theorem TableOrder.mem_arrange (order : TableOrder) {lookup : TripleLookup} {ts : List Triple}
    {t : Triple} : t ∈ order.arrange lookup ts ↔ t ∈ ts :=
  (order.perm lookup ts).mem_iff

theorem TableOrder.nodup_arrange (order : TableOrder) {lookup : TripleLookup} {ts : List Triple}
    (h : ts.Nodup) : (order.arrange lookup ts).Nodup :=
  (order.perm lookup ts).nodup_iff.mpr h

namespace TripleStore
variable {g : TripleStore} {s : Term} {p : Iri} {o : Term} {t u : Triple}

theorem mem_all : t ∈ g.all ↔ t ∈ g.triples := g.order.mem_arrange

theorem mem_withSubject : t ∈ g.withSubject s ↔ t ∈ g.triples ∧ t.subject.toTerm = s :=
  g.order.mem_arrange.trans ((g.lists_bySubject s).2 t)

theorem mem_withPredicate : t ∈ g.withPredicate p ↔ t ∈ g.triples ∧ t.predicate = p :=
  g.order.mem_arrange.trans ((g.lists_byPredicate p).2 t)

theorem mem_withObject : t ∈ g.withObject o ↔ t ∈ g.triples ∧ t.object = o :=
  g.order.mem_arrange.trans ((g.lists_byObject o).2 t)

theorem nodup_all : g.all.Nodup := g.order.nodup_arrange g.nodup

theorem nodup_withSubject : (g.withSubject s).Nodup := g.order.nodup_arrange (g.lists_bySubject s).1

theorem nodup_withPredicate : (g.withPredicate p).Nodup :=
  g.order.nodup_arrange (g.lists_byPredicate p).1

theorem nodup_withObject : (g.withObject o).Nodup := g.order.nodup_arrange (g.lists_byObject o).1

theorem mem_nodes {x : Term} :
    x ∈ g.nodes ↔ ∃ t ∈ g.triples, x = t.subject.toTerm ∨ x = t.object := by
  simp [nodes, List.mem_eraseDups]

theorem mem_insert : u ∈ (g.insert t).1.triples ↔ u ∈ g.triples ∨ u = t := by
  unfold TripleStore.insert
  by_cases hmem : t ∈ g.triples
  · rw [dif_pos (contains_iff.mpr hmem)]
    exact ⟨Or.inl, fun h => h.elim id fun heq => heq ▸ hmem⟩
  · rw [dif_neg fun hcontains => hmem (contains_iff.mp hcontains)]
    simp

theorem insert_isNew : (g.insert t).2 = !g.contains t := by
  unfold TripleStore.insert
  split
  · next h => rw [h]; rfl
  · next h => rw [Bool.eq_false_iff.mpr h]; rfl

theorem mem_extend {ts : List Triple} : u ∈ (g.extend ts).1.triples ↔ u ∈ g.triples ∨ u ∈ ts := by
  induction ts generalizing g with
  | nil => simp [TripleStore.extend]
  | cons t ts ih =>
      change u ∈ ((g.insert t).1.extend ts).1.triples ↔ _
      rw [ih, mem_insert, List.mem_cons, or_assoc]

theorem mem_arranged {order : TableOrder} {ts : List Triple} :
    u ∈ (arranged order ts).triples ↔ u ∈ ts := by
  rw [arranged, mem_extend]
  exact or_iff_right List.not_mem_nil

/-- Every list of triples is the content of a graph. -/
theorem setOf_ofTriples (ts : List Triple) : {t | t ∈ (ofTriples ts).triples} = {t | t ∈ ts} :=
  Set.ext fun _ => mem_arranged

end TripleStore

end PropertyPath
