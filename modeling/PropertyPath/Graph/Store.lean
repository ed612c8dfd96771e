import PropertyPath.Rdf.Term

/-!
# Graphs in memory

A graph is a set of triples that grows by insertion. Beside the triples themselves it keeps them by
subject, by predicate and by object, so that a look-up need not scan all of them. The indexes are
updated before the triple is added to the set.

All of these are hash tables, and each lists its entries in an order of its own.
-/
namespace PropertyPath

/-- What a table of a graph is asked for. -/
inductive TripleLookup where
  | all
  | subject (s : Term)
  | predicate (p : Iri)
  | object (o : Term)
  deriving DecidableEq, Repr

/-- The order in which the table behind a look-up lists its entries, given in the order in which
they have come. Nothing is known of it but that it leaves out no entry and repeats none. -/
structure TableOrder where
  arrange : TripleLookup → List Triple → List Triple
  perm (lookup : TripleLookup) (ts : List Triple) : (arrange lookup ts).Perm ts

/-- Every table lists its entries as they have come. -/
def TableOrder.arrival : TableOrder := ⟨fun _ ts => ts, fun _ ts => .refl ts⟩

/-- Triples by one of their parts, each key with the triples that have it as they have come. -/
structure TripleIndex (κ : Type) where
  buckets : List (κ × List Triple)
  deriving Repr

namespace TripleIndex

variable {κ : Type} [DecidableEq κ] {part : Triple → κ} {x : TripleIndex κ} {ts : List Triple}

def empty : TripleIndex κ := ⟨[]⟩

/-- The triples that have the given key. -/
def get (x : TripleIndex κ) (key : κ) : List Triple := (x.buckets.lookup key).getD []

def insertInto (key : κ) (t : Triple) : List (κ × List Triple) → List (κ × List Triple)
  | [] => [(key, [t])]
  | (k, ts) :: rest =>
      if k = key then (k, if ts.contains t then ts else ts ++ [t]) :: rest
      else (k, ts) :: insertInto key t rest

def insert (x : TripleIndex κ) (key : κ) (t : Triple) : TripleIndex κ :=
  ⟨insertInto key t x.buckets⟩

theorem lookup_insertInto (key other : κ) (t : Triple) (buckets : List (κ × List Triple)) :
    (insertInto key t buckets).lookup other =
      if other = key then
        let ts := (buckets.lookup key).getD []
        some (if ts.contains t then ts else ts ++ [t])
      else buckets.lookup other := by
  induction buckets with
  | nil =>
      by_cases h : other = key
      · simp [insertInto, h]
      · have h' : (other == key) = false := by simpa using h
        simp [insertInto, List.lookup_cons, h, h']
  | cons b rest ih =>
      obtain ⟨k, ts⟩ := b
      rw [insertInto]
      by_cases hk : k = key
      · subst hk
        by_cases h : other = k
        · simp [h]
        · have h' : (other == k) = false := by simpa using h
          simp [List.lookup_cons, h, h']
      · have hk' : (key == k) = false := by simpa using Ne.symm hk
        rw [if_neg hk]
        by_cases h : other = k
        · simp [h, hk]
        · have h' : (other == k) = false := by simpa using h
          simp only [List.lookup_cons, h', hk']
          exact ih

/-- Inserting changes the triples of its own key alone. -/
theorem get_insert (x : TripleIndex κ) (key other : κ) (t : Triple) :
    (x.insert key t).get other =
      if other = key then (if (x.get key).contains t then x.get key else x.get key ++ [t])
      else x.get other := by
  unfold get insert
  rw [lookup_insertInto]
  by_cases h : other = key <;> simp [h]

/-- The index holds the given triples by a part of them, each once. -/
def Lists (x : TripleIndex κ) (part : Triple → κ) (ts : List Triple) : Prop :=
  ∀ key, (x.get key).Nodup ∧ ∀ t, t ∈ x.get key ↔ t ∈ ts ∧ part t = key

theorem lists_empty (part : Triple → κ) : empty.Lists part [] := by
  intro key
  simp [get, empty]

theorem nodup_append_singleton {ts : List Triple} {t : Triple} (h : ts.Nodup) (ht : t ∉ ts) :
    (ts ++ [t]).Nodup := by
  refine List.nodup_append.mpr ⟨h, by simp, ?_⟩
  intro u hu v hv heq
  rw [List.mem_singleton.mp hv] at heq
  exact ht (heq ▸ hu)

/-- A new triple is put to those of its key. -/
theorem Lists.insert (h : x.Lists part ts) {t : Triple} (ht : t ∉ ts) :
    (x.insert (part t) t).Lists part (ts ++ [t]) := by
  intro key
  rw [get_insert]
  by_cases hkey : key = part t
  · obtain ⟨hnodup, hmem⟩ := h (part t)
    have hnot : t ∉ x.get (part t) := fun hin => ht ((hmem t).mp hin).1
    have hcontains : ¬ (x.get (part t)).contains t = true := by simpa using hnot
    rw [if_pos hkey, if_neg hcontains, hkey]
    refine ⟨nodup_append_singleton hnodup hnot, ?_⟩
    intro u
    rw [List.mem_append, List.mem_append, List.mem_singleton, hmem]
    constructor
    · rintro (⟨hu, hpart⟩ | rfl)
      · exact ⟨Or.inl hu, hpart⟩
      · exact ⟨Or.inr rfl, rfl⟩
    · rintro ⟨hu | rfl, hpart⟩
      · exact Or.inl ⟨hu, hpart⟩
      · exact Or.inr rfl
  · obtain ⟨hnodup, hmem⟩ := h key
    rw [if_neg hkey]
    refine ⟨hnodup, ?_⟩
    intro u
    rw [hmem, List.mem_append, List.mem_singleton]
    constructor
    · exact fun ⟨hu, hpart⟩ => ⟨Or.inl hu, hpart⟩
    · rintro ⟨hu | rfl, hpart⟩
      · exact ⟨hu, hpart⟩
      · exact absurd hpart.symm hkey

end TripleIndex

/-- The triples as they have come, none of them twice, and the indexes that hold the same
triples. -/
structure TripleStore where
  order : TableOrder
  triples : List Triple
  bySubject : TripleIndex Term
  byPredicate : TripleIndex Iri
  byObject : TripleIndex Term
  size : Nat
  nodup : triples.Nodup
  size_eq : size = triples.length
  lists_bySubject : bySubject.Lists (fun t => t.subject.toTerm) triples
  lists_byPredicate : byPredicate.Lists Triple.predicate triples
  lists_byObject : byObject.Lists Triple.object triples

namespace TripleStore

def empty (order : TableOrder) : TripleStore where
  order := order
  triples := []
  bySubject := .empty
  byPredicate := .empty
  byObject := .empty
  size := 0
  nodup := List.nodup_nil
  size_eq := rfl
  lists_bySubject := TripleIndex.lists_empty _
  lists_byPredicate := TripleIndex.lists_empty _
  lists_byObject := TripleIndex.lists_empty _

instance : Inhabited TripleStore := ⟨empty .arrival⟩

def contains (g : TripleStore) (t : Triple) : Bool := List.contains g.triples t

theorem contains_iff {g : TripleStore} {t : Triple} : g.contains t = true ↔ t ∈ g.triples :=
  List.contains_iff_mem

def isEmpty (g : TripleStore) : Bool := g.size == 0

/-- Adds a triple and tells whether it is new. -/
def insert (g : TripleStore) (t : Triple) : TripleStore × Bool :=
  if h : g.contains t = true then (g, false)
  else
    have ht : t ∉ g.triples := fun hmem => h (contains_iff.mpr hmem)
    ({ order := g.order
       triples := g.triples ++ [t]
       bySubject := g.bySubject.insert t.subject.toTerm t
       byPredicate := g.byPredicate.insert t.predicate t
       byObject := g.byObject.insert t.object t
       size := g.size + 1
       nodup := TripleIndex.nodup_append_singleton g.nodup ht
       size_eq := by rw [g.size_eq, List.length_append, List.length_singleton]
       lists_bySubject := g.lists_bySubject.insert ht
       lists_byPredicate := g.lists_byPredicate.insert ht
       lists_byObject := g.lists_byObject.insert ht }, true)

/-- Adds triples one after the other and tells how many of them are new when it is their turn. -/
def extend (g : TripleStore) : List Triple → TripleStore × Nat
  | [] => (g, 0)
  | t :: ts =>
      let (g', new) := g.insert t
      let (g'', count) := extend g' ts
      (g'', if new then count + 1 else count)

/-- The graph of the given triples, whose tables have the given order. -/
def arranged (order : TableOrder) (ts : List Triple) : TripleStore := ((empty order).extend ts).1

def ofTriples (ts : List Triple) : TripleStore := arranged .arrival ts

def all (g : TripleStore) : List Triple := g.order.arrange .all g.triples

def withSubject (g : TripleStore) (s : Term) : List Triple :=
  g.order.arrange (.subject s) (g.bySubject.get s)

def withPredicate (g : TripleStore) (p : Iri) : List Triple :=
  g.order.arrange (.predicate p) (g.byPredicate.get p)

def withObject (g : TripleStore) (o : Term) : List Triple :=
  g.order.arrange (.object o) (g.byObject.get o)

/-- The subjects and objects, each once. -/
def nodes (g : TripleStore) : List Term :=
  (g.triples.flatMap fun t => [t.subject.toTerm, t.object]).eraseDups

end TripleStore

end PropertyPath
