import Mathlib.Data.Finset.Card
import Mathlib.Data.List.FinRange
import PropertyPath.Graph.Pool
import PropertyPath.Proofs.Graph.Store

/-!
# Graphs that share their content record what is inserted

The history of a pool tells by the operations alone which graphs share a content and what has been
inserted into each content, repeats included. Every run of operations returns what the history says,
and leaves each content with exactly the triples that its history names, in the set as in every
index.
-/
namespace PropertyPath

namespace TripleStore
variable {g : TripleStore} {ts : List Triple}

/-- The graph counts and finds each of the given triples once, and its look-ups find what a scan
finds. -/
structure Holds (g : TripleStore) (ts : List Triple) : Prop where
  size : g.size = ts.toFinset.card
  contains : ∀ t, g.contains t = true ↔ t ∈ ts
  scan : g.all.Nodup ∧ ∀ t, t ∈ g.all ↔ t ∈ ts
  withSubject : ∀ s, (g.withSubject s).Nodup ∧
    ∀ t, t ∈ g.withSubject s ↔ t ∈ g.all ∧ t.subject.toTerm = s
  withPredicate : ∀ p, (g.withPredicate p).Nodup ∧
    ∀ t, t ∈ g.withPredicate p ↔ t ∈ g.all ∧ t.predicate = p
  withObject : ∀ o, (g.withObject o).Nodup ∧
    ∀ t, t ∈ g.withObject o ↔ t ∈ g.all ∧ t.object = o

/-- The triples of the graph are the given ones, which may be given more than once. -/
def Keeps (g : TripleStore) (ts : List Triple) : Prop := ∀ t, t ∈ g.triples ↔ t ∈ ts

theorem Keeps.size_eq (h : g.Keeps ts) : g.size = ts.toFinset.card := by
  have hset : g.triples.toFinset = ts.toFinset := by
    ext t
    rw [List.mem_toFinset, List.mem_toFinset, h]
  rw [g.size_eq, ← hset, List.toFinset_card_of_nodup g.nodup]

theorem Keeps.holds (h : g.Keeps ts) : g.Holds ts where
  size := h.size_eq
  contains t := contains_iff.trans (h t)
  scan := ⟨nodup_all, fun t => mem_all.trans (h t)⟩
  withSubject s := ⟨nodup_withSubject, fun t => by rw [mem_withSubject, mem_all]⟩
  withPredicate p := ⟨nodup_withPredicate, fun t => by rw [mem_withPredicate, mem_all]⟩
  withObject o := ⟨nodup_withObject, fun t => by rw [mem_withObject, mem_all]⟩

theorem Keeps.extend (h : g.Keeps ts) (us : List Triple) : (g.extend us).1.Keeps (ts ++ us) := by
  intro t
  rw [mem_extend, h, List.mem_append]

theorem Keeps.insert (h : g.Keeps ts) (t : Triple) : (g.insert t).1.Keeps (ts ++ [t]) :=
  h.extend [t]

/-- A triple is new when it is inserted for the first time. -/
theorem Keeps.insert_isNew (h : g.Keeps ts) (t : Triple) : (g.insert t).2 = decide (t ∉ ts) := by
  have hcontains : g.contains t = decide (t ∈ ts) := by
    rw [Bool.eq_iff_iff, contains_iff, h, decide_eq_true_iff]
  rw [TripleStore.insert_isNew, hcontains, decide_not]

/-- How many of the second triples are new when they are reached: neither among the first ones nor
among those that come before. -/
def newcomers (before ts : List Triple) : Nat :=
  (List.finRange ts.length).countP fun i : Fin ts.length => ts[i] ∉ before ++ ts.take i

theorem newcomers_cons (before : List Triple) (t : Triple) (ts : List Triple) :
    newcomers before (t :: ts) =
      newcomers (before ++ [t]) ts + if t ∉ before then 1 else 0 := by
  unfold newcomers
  change (List.finRange (ts.length + 1)).countP _ = _
  rw [List.finRange_succ, List.countP_cons, List.countP_map]
  simp [Function.comp_def]

theorem extend_cons_count (g : TripleStore) (t : Triple) (ts : List Triple) :
    (g.extend (t :: ts)).2 =
      if (g.insert t).2 then ((g.insert t).1.extend ts).2 + 1
        else ((g.insert t).1.extend ts).2 := rfl

/-- The triples of an extension are counted that are new when they are reached. -/
theorem Keeps.extend_count (h : g.Keeps ts) (us : List Triple) :
    (g.extend us).2 = newcomers ts us := by
  induction us generalizing g ts with
  | nil => rfl
  | cons u us ih =>
      rw [newcomers_cons, ← ih (h.insert u), extend_cons_count, h.insert_isNew]
      by_cases hu : u ∈ ts <;> simp [hu]

end TripleStore

namespace GraphPool

/-- What is done to a pool: a triple or several are inserted into one of its graphs, a graph is
cloned, or a graph is made from triples. -/
inductive Operation where
  | insert (graph : Nat) (t : Triple)
  | extend (graph : Nat) (ts : List Triple)
  | clone (graph : Nat)
  | fromTriples (ts : List Triple)
  deriving DecidableEq, Repr

/-- What an operation returns: whether a triple is new, how many triples are, or the new graph. -/
inductive Reply where
  | isNew (new : Bool)
  | count (new : Nat)
  | graph (graph : Nat)
  deriving DecidableEq, Repr

/-- The graph that an operation is applied to. -/
def Operation.graph? : Operation → Option Nat
  | insert graph _ => some graph
  | extend graph _ => some graph
  | clone graph => some graph
  | fromTriples _ => none

/-- The pool after an operation and what the operation returns; nothing if there is no such
graph. -/
def perform (p : GraphPool) : Operation → Option (GraphPool × Reply)
  | .insert graph t => (p.insert graph t).map fun r => (r.1, .isNew r.2)
  | .extend graph ts => (p.extend graph ts).map fun r => (r.1, .count r.2)
  | .clone graph => (p.clone graph).map fun r => (r.1, .graph r.2)
  | .fromTriples ts => some ((p.fromTriples ts).1, .graph (p.fromTriples ts).2)

/-- The pool after several operations and what each of them returns. -/
def performAll (p : GraphPool) : List Operation → Option (GraphPool × List Reply)
  | [] => some (p, [])
  | op :: ops => do
      let (p', reply) ← p.perform op
      let (p'', replies) ← p'.performAll ops
      return (p'', reply :: replies)

/-- What the operations on a pool have been: `owners` tells for each graph which content it has, and
`inserted` for each content what has been inserted into it, repeats included. -/
structure History where
  owners : List Nat
  inserted : List (List Triple)
  deriving DecidableEq, Repr

namespace History

/-- One graph, and nothing inserted yet. -/
def start : History := ⟨[0], [[]]⟩

/-- The content of a graph. -/
def ownerOf (h : History) (graph : Nat) : Nat := h.owners.getD graph 0

/-- What has been inserted into the content of a graph, through this graph or another. -/
def insertedInto (h : History) (graph : Nat) : List Triple := h.inserted.getD (h.ownerOf graph) []

/-- More triples are inserted into the content of a graph. -/
def more (h : History) (graph : Nat) (ts : List Triple) : History :=
  { h with inserted := h.inserted.modify (h.ownerOf graph) (· ++ ts) }

/-- A clone has the content of its graph, a graph made from triples has a content of its own. -/
def after (h : History) : Operation → History
  | .insert graph t => h.more graph [t]
  | .extend graph ts => h.more graph ts
  | .clone graph => { h with owners := h.owners ++ [h.ownerOf graph] }
  | .fromTriples ts => ⟨h.owners ++ [h.inserted.length], h.inserted ++ [ts]⟩

/-- The content that an operation inserts into. -/
def changed? (h : History) : Operation → Option Nat
  | .insert graph _ => some (h.ownerOf graph)
  | .extend graph _ => some (h.ownerOf graph)
  | .clone _ => none
  | .fromTriples _ => none

/-- What an operation returns: a triple is new if it has not been inserted before. -/
def reply (h : History) : Operation → Reply
  | .insert graph t => .isNew (t ∉ h.insertedInto graph)
  | .extend graph ts => .count (TripleStore.newcomers (h.insertedInto graph) ts)
  | .clone _ => .graph h.owners.length
  | .fromTriples _ => .graph h.owners.length

def afterAll (h : History) (ops : List Operation) : History := ops.foldl after h

def replies (h : History) : List Operation → List Reply
  | [] => []
  | op :: ops => h.reply op :: (h.after op).replies ops

/-- The operation is applied to a graph that there is. -/
def admits (h : History) (op : Operation) : Bool := op.graph?.all (· < h.owners.length)

/-- Each operation is applied to a graph that there is when it is its turn. -/
def admitsAll (h : History) : List Operation → Bool
  | [] => true
  | op :: ops => h.admits op && (h.after op).admitsAll ops

end History

/-- The invariant of a run: the pool shares its contents as its history tells, and each content
keeps what has been inserted into it. -/
structure Records (p : GraphPool) (h : History) : Prop where
  handles : p.handles = h.owners
  owned : ∀ i ∈ h.owners, i < h.inserted.length
  length : p.contents.length = h.inserted.length
  keeps : ∀ (i : Nat) (g : TripleStore) (ts : List Triple), p.contents[i]? = some g →
    h.inserted[i]? = some ts → g.Keeps ts

variable {p p' : GraphPool} {h : History} {graph : Nat}

theorem records_start (order : TableOrder) : (start order).Records .start where
  handles := rfl
  owned := by simp [History.start]
  length := rfl
  keeps i g ts hg hts := by
    cases i with
    | zero =>
        cases hg
        cases hts
        exact fun _ => Iff.rfl
    | succ i => cases hg

/-- A graph that there is has a content, and the content keeps what has been inserted. -/
theorem Records.exists_content (hr : p.Records h) (hgraph : graph < h.owners.length) :
    ∃ g, p.handles[graph]? = some (h.ownerOf graph) ∧
      p.contents[h.ownerOf graph]? = some g ∧
      h.inserted[h.ownerOf graph]? = some (h.insertedInto graph) ∧
      g.Keeps (h.insertedInto graph) := by
  have howner : h.owners[graph]? = some (h.ownerOf graph) := by
    simp [History.ownerOf, List.getD_eq_getElem?_getD, hgraph]
  have hlt := hr.owned _ (List.mem_of_getElem? howner)
  have hts : h.inserted[h.ownerOf graph]? = some (h.insertedInto graph) := by
    simp [History.insertedInto, List.getD_eq_getElem?_getD, hlt]
  have hg := List.getElem?_eq_getElem (hr.length ▸ hlt)
  exact ⟨_, hr.handles ▸ howner, hg, hts, hr.keeps _ _ _ hg hts⟩

/-- No graph has got another content, and no content is another but the given one. -/
def Spares (changed : Option Nat) (p p' : GraphPool) : Prop :=
  ∀ graph i : Nat, p.handles[graph]? = some i → p'.handles[graph]? = some i ∧
    ∀ g, p.contents[i]? = some g → changed ≠ some i → p'.contents[i]? = some g

/-- A change of one content records what it inserts, and it returns what it returns of a graph that
keeps what has been inserted before. -/
theorem Records.update {α : Type} {us : List Triple} (hr : p.Records h)
    (hgraph : graph < h.owners.length) (change : TripleStore → TripleStore × α)
    (hchange : ∀ g ts, g.Keeps ts → (change g).1.Keeps (ts ++ us)) :
    ∃ p' g, g.Keeps (h.insertedInto graph) ∧ p.update graph change = some (p', (change g).2) ∧
      p'.Records (h.more graph us) ∧ Spares (some (h.ownerOf graph)) p p' := by
  obtain ⟨g, hhandle, hg, hts, hgts⟩ := hr.exists_content hgraph
  refine ⟨{ p with contents := p.contents.set (h.ownerOf graph) (change g).1 }, g, hgts, ?_, ?_, ?_⟩
  · simp [GraphPool.update, hhandle, hg]
  · refine ⟨hr.handles, ?_, ?_, ?_⟩
    · simpa [History.more] using hr.owned
    · simpa [History.more] using hr.length
    · intro i g' ts' hg' hts'
      change (h.inserted.modify (h.ownerOf graph) (· ++ us))[i]? = some ts' at hts'
      by_cases hi : h.ownerOf graph = i
      · subst hi
        rw [List.getElem?_set_self (List.getElem?_eq_some_iff.mp hg).1] at hg'
        rw [List.getElem?_modify_eq, hts] at hts'
        cases hg'
        cases hts'
        exact hchange g _ hgts
      · rw [List.getElem?_set_ne hi] at hg'
        rw [List.getElem?_modify_ne _ _ hi] at hts'
        exact hr.keeps i g' ts' hg' hts'
  · intro other i hother
    refine ⟨hother, ?_⟩
    intro g' hg' hne
    have hi : h.ownerOf graph ≠ i := fun heq => hne (congrArg some heq)
    rw [← hg']
    exact List.getElem?_set_ne hi

theorem getElem?_append_of_eq_some {α : Type} {as : List α} {i : Nat} {a : α} (h : as[i]? = some a)
    (bs : List α) : (as ++ bs)[i]? = some a := by
  rw [List.getElem?_append_left (List.getElem?_eq_some_iff.mp h).1, h]

/-- A handle and contents that come last change nothing for the graphs that there are. -/
theorem spares_append (contents : List TripleStore) (handles : List Nat) (changed : Option Nat) :
    Spares changed p ⟨p.order, p.contents ++ contents, p.handles ++ handles⟩ := fun _ _ hhandle =>
  ⟨getElem?_append_of_eq_some hhandle handles, fun _ hg _ => getElem?_append_of_eq_some hg contents⟩

/-- A clone has the content of its graph, so every content keeps what it kept. -/
theorem Records.clone (hr : p.Records h) (hgraph : graph < h.owners.length) :
    ∃ p', p.clone graph = some (p', h.owners.length) ∧ p'.Records (h.after (.clone graph)) ∧
      Spares none p p' := by
  obtain ⟨_, hhandle, _, hts, _⟩ := hr.exists_content hgraph
  have hlt := (List.getElem?_eq_some_iff.mp hts).1
  have hspares := spares_append (p := p) [] [h.ownerOf graph] none
  rw [List.append_nil] at hspares
  refine ⟨⟨p.order, p.contents, p.handles ++ [h.ownerOf graph]⟩, ?_, ?_, hspares⟩
  · simp [GraphPool.clone, hhandle, ← hr.handles]
  · refine ⟨congrArg (· ++ [h.ownerOf graph]) hr.handles, ?_, hr.length, hr.keeps⟩
    intro i hi
    rcases List.mem_append.mp hi with hi | hi
    · exact hr.owned i hi
    · rw [List.mem_singleton.mp hi]
      exact hlt

/-- A graph made from triples keeps them in a content that no other graph has. -/
theorem Records.fromTriples (hr : p.Records h) (ts : List Triple) :
    (p.fromTriples ts).1.Records (h.after (.fromTriples ts)) where
  handles := by
    change p.handles ++ [p.contents.length] = h.owners ++ [h.inserted.length]
    rw [hr.handles, hr.length]
  owned i hi := by
    change i < (h.inserted ++ [ts]).length
    rw [List.length_append, List.length_singleton]
    rcases List.mem_append.mp hi with hi | hi
    · exact Nat.lt_succ_of_lt (hr.owned i hi)
    · rw [List.mem_singleton.mp hi]
      exact Nat.lt_succ_self _
  length := by
    change (p.contents ++ [_]).length = (h.inserted ++ [ts]).length
    rw [List.length_append, List.length_append, hr.length, List.length_singleton,
      List.length_singleton]
  keeps i g us hg hus := by
    change (p.contents ++ [.arranged p.order ts])[i]? = some g at hg
    change (h.inserted ++ [ts])[i]? = some us at hus
    by_cases hi : i < p.contents.length
    · rw [List.getElem?_append_left hi] at hg
      rw [List.getElem?_append_left (hr.length ▸ hi)] at hus
      exact hr.keeps i g us hg hus
    · have hi' : p.contents.length ≤ i := Nat.le_of_not_lt hi
      rw [List.getElem?_append_right hi', List.getElem?_singleton] at hg
      rw [List.getElem?_append_right (hr.length ▸ hi'), List.getElem?_singleton, ← hr.length] at hus
      split at hg
      · next hlast =>
          rw [if_pos hlast] at hus
          cases hg
          cases hus
          exact fun _ => TripleStore.mem_arranged
      · cases hg

/-- One operation returns what its history says, and the pool goes on as the history does. -/
theorem Records.perform (hr : p.Records h) {op : Operation} (hop : h.admits op = true) :
    ∃ p', p.perform op = some (p', h.reply op) ∧ p'.Records (h.after op) ∧
      Spares (h.changed? op) p p' := by
  cases op with
  | insert graph t =>
      have hgraph : graph < h.owners.length := by simpa [History.admits, Operation.graph?] using hop
      obtain ⟨p', g, hg, hrun, hrecords, hspares⟩ :=
        hr.update hgraph (·.insert t) fun _ _ hkeeps => hkeeps.insert t
      refine ⟨p', ?_, hrecords, hspares⟩
      rw [GraphPool.perform, GraphPool.insert, hrun, History.reply, ← hg.insert_isNew]
      rfl
  | extend graph ts =>
      have hgraph : graph < h.owners.length := by simpa [History.admits, Operation.graph?] using hop
      obtain ⟨p', g, hg, hrun, hrecords, hspares⟩ :=
        hr.update hgraph (·.extend ts) fun _ _ hkeeps => hkeeps.extend ts
      refine ⟨p', ?_, hrecords, hspares⟩
      rw [GraphPool.perform, GraphPool.extend, hrun, History.reply, ← hg.extend_count]
      rfl
  | clone graph =>
      have hgraph : graph < h.owners.length := by simpa [History.admits, Operation.graph?] using hop
      obtain ⟨p', hrun, hrecords, hspares⟩ := hr.clone hgraph
      refine ⟨p', ?_, hrecords, hspares⟩
      rw [GraphPool.perform, hrun]
      rfl
  | fromTriples ts =>
      refine ⟨(p.fromTriples ts).1, ?_, hr.fromTriples ts, spares_append _ _ none⟩
      rw [GraphPool.perform, History.reply, ← hr.handles]
      rfl

/-- A run returns what its history says and ends in a pool that records the history. -/
theorem Records.performAll (hr : p.Records h) {ops : List Operation}
    (hops : h.admitsAll ops = true) :
    ∃ p', p.performAll ops = some (p', h.replies ops) ∧ p'.Records (h.afterAll ops) := by
  induction ops generalizing p h with
  | nil => exact ⟨p, rfl, hr⟩
  | cons op ops ih =>
      rw [History.admitsAll, Bool.and_eq_true] at hops
      obtain ⟨p', hrun, hrecords, _⟩ := hr.perform hops.1
      obtain ⟨p'', hruns, hrecords'⟩ := ih hrecords hops.2
      refine ⟨p'', ?_, hrecords'⟩
      rw [GraphPool.performAll, hrun]
      simp [hruns, History.replies]

/-- In whatever order the tables list their entries, and however one graph is inserted into,
extended and cloned, together with its clones and with graphs made from triples: every operation
returns what has been inserted before lets it return, every graph has one of the contents so far, so
that the next content is new, every graph counts, contains and looks up what has been inserted into
its content, and no operation that comes next changes any other content than its own. -/
theorem performAll_start (order : TableOrder) (ops : List Operation)
    (hops : History.start.admitsAll ops = true) :
    let h := History.start.afterAll ops
    ∃ p, (start order).performAll ops = some (p, History.start.replies ops) ∧ p.handles = h.owners ∧
      (∀ i ∈ h.owners, i < h.inserted.length) ∧
      (∀ graph < h.owners.length,
        ∃ g, p.content? graph = some g ∧ g.Holds (h.insertedInto graph)) ∧
      ∀ op, h.admits op = true → ∃ p', p.perform op = some (p', h.reply op) ∧
        ∀ graph < h.owners.length, h.changed? op ≠ some (h.ownerOf graph) →
          p'.content? graph = p.content? graph := by
  intro h
  obtain ⟨p, hrun, hrecords⟩ := (records_start order).performAll hops
  refine ⟨p, hrun, hrecords.handles, hrecords.owned, ?_, ?_⟩
  · intro graph hgraph
    obtain ⟨g, hhandle, hg, _, hkeeps⟩ := hrecords.exists_content hgraph
    exact ⟨g, by simp [content?, hhandle, hg], hkeeps.holds⟩
  · intro op hop
    obtain ⟨p', hperform, _, hspares⟩ := hrecords.perform hop
    refine ⟨p', hperform, ?_⟩
    intro graph hgraph hne
    obtain ⟨g, hhandle, hg, _⟩ := hrecords.exists_content hgraph
    obtain ⟨hhandle', hsame⟩ := hspares graph _ hhandle
    simp [content?, hhandle, hhandle', hg, hsame g hg hne]

/-- A triple that is inserted twice, once through a clone, and again into a graph of its own. -/
theorem performAll_start_clone_and_own :
    let t : Triple := ⟨.iri ⟨"a"⟩, ⟨"p"⟩, .iri ⟨"b"⟩⟩
    let u : Triple := ⟨.iri ⟨"b"⟩, ⟨"p"⟩, .iri ⟨"b"⟩⟩
    let ops : List Operation := [.insert 0 t, .clone 0, .insert 1 t, .extend 1 [u, t, u],
      .fromTriples [u, u], .insert 2 t]
    History.start.admitsAll ops = true ∧
    ∃ p, single.performAll ops = some (p, [.isNew true, .graph 1, .isNew false, .count 1, .graph 2,
        .isNew true]) ∧
      (∃ g, p.content? 0 = some g ∧ g.Holds [t, t, u, t, u]) ∧
      (∃ g, p.content? 1 = some g ∧ g.Holds [t, t, u, t, u]) ∧
      (∃ g, p.content? 2 = some g ∧ g.Holds [u, u, t]) ∧
      ∃ p', p.perform (.insert 2 t) = some (p', .isNew false) ∧ p'.content? 0 = p.content? 0 := by
  intro t u ops
  have hops : History.start.admitsAll ops = true := by decide
  obtain ⟨p, hrun, _, _, hholds, hnext⟩ := performAll_start .arrival ops hops
  obtain ⟨p', hperform, hsame⟩ := hnext (.insert 2 t) (by decide)
  exact ⟨hops, p, hrun, hholds 0 (by decide), hholds 1 (by decide),
    hholds 2 (by decide), p', hperform,
    hsame 0 (by decide) (by decide)⟩

end GraphPool

end PropertyPath
