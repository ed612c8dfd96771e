import Mathlib.Data.List.Nodup
import PropertyPath.Proofs.Graph.Answers

/-!
# Every solution is one row

A join by nested loops has no row too many and no row twice: matching a pattern binds the variables
that occur in it and no others, so all rows bind the same variables, and what a row binds determines
the row and the triple that it has been made from. Rows are compared as maps from variables to
terms, whatever the order in which the variables have been bound.
-/
namespace PropertyPath

namespace Bindings
variable {b c d : Bindings} {v : Variable}

def Binds (b : Bindings) (v : Variable) : Prop := ∃ t, b.get? v = some t

/-- A valuation that gives the bound variables what they are bound to. -/
def valuation (d : Bindings) : Valuation := fun v => (d.get? v).getD default

theorem Extends.agrees (h : d.Extends b) : b.Agrees d.valuation := by
  intro v t hv
  rw [valuation, h v t hv]
  rfl

/-- Bindings of the same variables are the same map when one extends the other. -/
theorem Extends.get?_eq (h : d.Extends b) (hdomain : ∀ v, d.Binds v → b.Binds v) :
    b.get? = d.get? := by
  funext v
  cases hd : d.get? v with
  | some t =>
      obtain ⟨u, hu⟩ := hdomain v ⟨t, hd⟩
      have hdu := h v u hu
      rw [hd] at hdu
      rw [hu, hdu]
  | none =>
      cases hb : b.get? v with
      | none => rfl
      | some t =>
          have hdt := h v t hb
          rw [hd] at hdt
          cases hdt

/-- What is bound among the same variables is what an extension binds there. -/
theorem get?_eq_of_extends {b' : Bindings} (h : c.Extends b) (h' : c.Extends b')
    (hdomain : ∀ v, b.Binds v ↔ b'.Binds v) : b.get? = b'.get? := by
  have hsub : b'.Extends b := by
    intro v t hv
    obtain ⟨u, hu⟩ := (hdomain v).mp ⟨t, hv⟩
    have hct := h v t hv
    rw [h' v u hu] at hct
    rw [hu, hct]
  exact hsub.get?_eq fun v => (hdomain v).mpr

end Bindings

namespace Endpoint
variable {b c d : Bindings} {e : Endpoint} {t : Term} {v : Variable}

theorem value_valuation (h : e.resolve d = some t) : e.value d.valuation = t := by
  cases e with
  | term u => exact Option.some.inj h
  | var v =>
      have hget : d.get? v = some t := h
      change (d.get? v).getD default = t
      rw [hget]
      rfl

/-- Making an end the given term binds its variable, if it is one, and nothing else. -/
theorem binds_unify (h : e.unify t b = some c) : c.Binds v ↔ b.Binds v ∨ e = .var v := by
  cases e with
  | term u =>
      rw [unify] at h
      split at h
      · cases h
        simp
      · cases h
  | var w =>
      have hget := Bindings.get?_bind? (w := v) h
      unfold Bindings.Binds
      rw [hget, Endpoint.var.injEq]
      by_cases hvw : v = w
      · simp [hvw]
      · simp [hvw, Ne.symm hvw]

end Endpoint

namespace TriplePattern
variable {b c d : Bindings} {p : TriplePattern} {t u : Triple} {v : Variable}

theorem mem_occurrences : v ∈ p.occurrences ↔
    p.subject = .var v ∨ p.predicate.toEndpoint = .var v ∨ p.object = .var v := by
  have hend : ∀ e : Endpoint, v ∈ e.toVariable?.toList ↔ e = .var v := by
    intro e
    cases e <;> simp [Endpoint.toVariable?, eq_comm]
  unfold occurrences
  rw [List.mem_append, List.mem_append, hend, hend, or_assoc]
  cases p.predicate <;> simp [PredicatePattern.toEndpoint, eq_comm]

theorem mem_variablesOf {ps : List TriplePattern} :
    v ∈ variablesOf ps ↔ ∃ p ∈ ps, v ∈ p.occurrences := by
  rw [variablesOf, List.mem_eraseDups, List.mem_flatMap]

/-- Matching a pattern binds the variables that occur in it, and no others. -/
theorem binds_unify (h : p.unify t b = some c) : c.Binds v ↔ b.Binds v ∨ v ∈ p.occurrences := by
  simp only [unify, PredicatePattern.unify_eq, Option.bind_eq_bind, Option.bind_eq_some_iff] at h
  obtain ⟨b₁, hsubject, b₂, hpredicate, hobject⟩ := h
  rw [Endpoint.binds_unify hobject, Endpoint.binds_unify hpredicate, Endpoint.binds_unify hsubject,
    mem_occurrences, or_assoc, or_assoc]

/-- The bindings under which a pattern is a triple determine the triple. -/
theorem Fits.unique (h : p.Fits b t) (h' : p.Fits b u) : t = u := by
  have hsubject := Option.some.inj (h.subject.symm.trans h'.subject)
  have hpredicate := Option.some.inj (h.predicate.symm.trans h'.predicate)
  have hobject := Option.some.inj (h.object.symm.trans h'.object)
  cases t
  cases u
  simp only [Triple.mk.injEq]
  exact ⟨Resource.toTerm_inj.mp hsubject, Term.iri.inj hpredicate, hobject⟩

theorem Fits.congr (hbc : b.get? = c.get?) (h : p.Fits b t) : p.Fits c t :=
  h.mono fun _ _ hv => hbc ▸ hv

theorem Fits.holds (h : p.Fits d t) : p.Holds d.valuation t :=
  ⟨Endpoint.value_valuation h.subject, Endpoint.value_valuation h.predicate,
    Endpoint.value_valuation h.object⟩

theorem Fits.binds (h : p.Fits d t) (hv : v ∈ p.occurrences) : d.Binds v := by
  rcases mem_occurrences.mp hv with heq | heq | heq
  · exact ⟨_, heq ▸ h.subject⟩
  · exact ⟨_, heq ▸ h.predicate⟩
  · exact ⟨_, heq ▸ h.object⟩

/-- Bindings that make the pattern a triple extend a match of the pattern with that triple. -/
theorem Fits.exists_unify (h : p.Fits d t) (hb : d.Extends b) :
    ∃ c, p.unify t b = some c ∧ d.Extends c := by
  obtain ⟨c, hunify, hagrees⟩ := TriplePattern.exists_unify hb.agrees h.holds
  refine ⟨c, hunify, ?_⟩
  intro v u hv
  have hbinds : d.Binds v := by
    rcases (binds_unify hunify).mp ⟨u, hv⟩ with ⟨w, hw⟩ | hoccurs
    · exact ⟨w, hb v w hw⟩
    · exact h.binds hoccurs
  obtain ⟨w, hw⟩ := hbinds
  have hvalue := hagrees v u hv
  rw [Bindings.valuation, hw] at hvalue
  rw [hw]
  exact congrArg some hvalue

end TriplePattern

/-- The bindings that a query asks for: those of its variables that make every pattern a triple of
the graph and give no variable a term that one of the filters refuses. -/
structure ConjunctiveQuery.Asks (q : ConjunctiveQuery) (G : Set Triple) (b : Bindings) : Prop where
  domain : ∀ v, b.Binds v ↔ v ∈ TriplePattern.variablesOf q.patterns
  patterns : ∀ p ∈ q.patterns, ∃ t ∈ G, p.Fits b t
  filters : ∀ f ∈ q.filters, ∀ t, b.get? f.var = some t → f.accepts t = true

theorem PredicateFilter.passes_iff {f : PredicateFilter} {b : Bindings} :
    f.passes b = true ↔ ∀ t, b.get? f.var = some t → f.accepts t = true := by
  rw [passes]
  cases b.get? f.var with
  | none => simp
  | some t => simp

theorem ConjunctiveQuery.Asks.congr {q : ConjunctiveQuery} {G : Set Triple} {b c : Bindings}
    (hbc : b.get? = c.get?) (h : q.Asks G b) : q.Asks G c where
  domain v := by
    unfold Bindings.Binds
    rw [← hbc]
    exact h.domain v
  patterns p hp := by
    obtain ⟨t, ht, hfits⟩ := h.patterns p hp
    exact ⟨t, ht, hfits.congr hbc⟩
  filters f hf t ht := h.filters f hf t (hbc ▸ ht)

/-- In which order patterns and filters are given has no bearing on what is asked. -/
theorem ConjunctiveQuery.Asks.perm {q r : ConjunctiveQuery} (hpatterns : q.patterns.Perm r.patterns)
    (hfilters : q.filters.Perm r.filters) {G : Set Triple} {b : Bindings} (h : q.Asks G b) :
    r.Asks G b where
  domain v := by
    rw [h.domain, TriplePattern.mem_variablesOf, TriplePattern.mem_variablesOf]
    simp only [hpatterns.mem_iff]
  patterns p hp := h.patterns p (hpatterns.mem_iff.mpr hp)
  filters f hf := h.filters f (hfilters.mem_iff.mpr hf)

namespace TripleStore
variable {g : TripleStore} {b c d : Bindings} {p : TriplePattern} {ps : List TriplePattern}
  {filters : List PredicateFilter} {rows : List Bindings}

theorem nodup_candidates (g : TripleStore) (p : TriplePattern) (b : Bindings) :
    (g.candidates p b).Nodup := by
  unfold candidates
  split
  · exact nodup_withSubject
  · exact nodup_withObject
  · split
    · exact nodup_withPredicate
    · split
      · exact nodup_withPredicate
      · exact List.nodup_nil
      · exact nodup_all

/-- All rows bind the same variables, and no two of them are the same map. -/
structure Tabular (V : Variable → Prop) (rows : List Bindings) : Prop where
  domain : ∀ b ∈ rows, ∀ v, b.Binds v ↔ V v
  distinct : rows.Pairwise fun b c => b.get? ≠ c.get?

/-- Rows that are made from different rows, or from different triples, are different. -/
theorem Tabular.matchPattern (g : TripleStore) {V : Variable → Prop} (h : Tabular V rows)
    (filters : List PredicateFilter) (p : TriplePattern) :
    Tabular (fun v => V v ∨ v ∈ p.occurrences) (g.matchPattern filters p rows) where
  domain c hc v := by
    obtain ⟨⟨b, hb, t, _, hunify⟩, _⟩ := mem_matchPattern.mp hc
    rw [TriplePattern.binds_unify hunify, h.domain b hb]
  distinct := by
    refine List.Pairwise.filter _ (List.pairwise_flatMap.mpr ⟨?_, ?_⟩)
    · intro b _
      refine List.pairwise_filterMap.mpr ((nodup_candidates g p b).imp ?_)
      intro t u htu c hc c' hc' heq
      have ht := (TriplePattern.unify_sound hc).2
      have hu := (TriplePattern.unify_sound hc').2
      exact htu ((ht.congr heq).unique hu)
    · refine h.distinct.imp_of_mem ?_
      intro b b' hb hb' hne c hc c' hc' heq
      obtain ⟨t, _, hunify⟩ := List.mem_filterMap.mp hc
      obtain ⟨t', _, hunify'⟩ := List.mem_filterMap.mp hc'
      have hextends := (TriplePattern.unify_sound hunify).1
      have hextends' : c.Extends b' := by
        intro v u hv
        rw [heq]
        exact (TriplePattern.unify_sound hunify').1 v u hv
      refine hne (Bindings.get?_eq_of_extends hextends hextends' ?_)
      intro v
      rw [h.domain b hb, h.domain b' hb']

theorem Tabular.matchPatterns (g : TripleStore) {V : Variable → Prop} (h : Tabular V rows)
    (filters : List PredicateFilter) (ps : List TriplePattern) :
    Tabular (fun v => V v ∨ ∃ p ∈ ps, v ∈ p.occurrences) (g.matchPatterns filters ps rows) := by
  induction ps generalizing rows V with
  | nil =>
      refine ⟨?_, h.distinct⟩
      intro b hb v
      rw [h.domain b hb]
      simp
  | cons p ps ih =>
      rw [matchPatterns_cons]
      have hrest := ih (h.matchPattern g filters p)
      refine ⟨?_, hrest.distinct⟩
      intro b hb v
      rw [hrest.domain b hb, List.exists_mem_cons_iff, or_assoc]

/-- Bindings that solve all patterns, and that no filter refuses, extend a row. -/
theorem exists_row (ps : List TriplePattern)
    (hps : ∀ p ∈ ps, ∃ t ∈ g.triples, p.Fits d t)
    (hfilters : ∀ f ∈ filters, ∀ t, d.get? f.var = some t → f.accepts t = true)
    (hb : ∃ b ∈ rows, d.Extends b) : ∃ c ∈ g.matchPatterns filters ps rows, d.Extends c := by
  induction ps generalizing rows with
  | nil => exact hb
  | cons p ps ih =>
      rw [List.forall_mem_cons] at hps
      obtain ⟨⟨t, ht, hfits⟩, hrest⟩ := hps
      obtain ⟨b, hb, hextends⟩ := hb
      obtain ⟨c, hunify, hc⟩ := hfits.exists_unify hextends
      have hmem := mem_candidates hextends.agrees ht hfits.holds
      rw [matchPatterns_cons]
      refine ih hrest ⟨c, mem_matchPattern.mpr ⟨⟨b, hb, t, hmem, hunify⟩, ?_⟩, hc⟩
      intro f hf
      exact PredicateFilter.passes_iff.mpr fun u hu => hfilters f hf u (hc f.var u hu)

theorem tabular_solutions (g : TripleStore) (q : ConjunctiveQuery) :
    Tabular (· ∈ TriplePattern.variablesOf q.patterns) (g.solutions q) := by
  have hempty : Tabular (fun _ => False) [Bindings.empty] := by
    refine ⟨?_, List.pairwise_singleton _ _⟩
    intro b hb v
    rw [List.mem_singleton.mp hb]
    simp [Bindings.Binds]
  have hrows := hempty.matchPatterns g q.filters q.patterns
  refine ⟨?_, hrows.distinct⟩
  intro b hb v
  rw [hrows.domain b hb, TriplePattern.mem_variablesOf, false_or]

/-- The rows are the bindings that the query asks for. -/
theorem get?_mem_solutions (q : ConjunctiveQuery) :
    b.get? ∈ (g.solutions q).map Bindings.get? ↔ q.Asks {t | t ∈ g.triples} b := by
  have hrows := tabular_solutions g q
  rw [List.mem_map]
  constructor
  · intro h
    obtain ⟨c, hc, hcb⟩ := h
    have hsolved := (answered_solutions g q).sound c hc
    have hasks : q.Asks {t | t ∈ g.triples} c :=
      ⟨hrows.domain c hc, hsolved.patterns,
        fun f hf => PredicateFilter.passes_iff.mp (hsolved.filters f hf)⟩
    exact hasks.congr hcb
  · intro h
    have hstart : ∃ e ∈ [Bindings.empty], b.Extends e :=
      ⟨.empty, List.mem_singleton_self _, nofun⟩
    obtain ⟨c, hc, hextends⟩ := exists_row q.patterns h.patterns h.filters hstart
    refine ⟨c, hc, hextends.get?_eq ?_⟩
    intro v hv
    exact (hrows.domain c hc v).mpr ((h.domain v).mp hv)

theorem nodup_solutions (g : TripleStore) (q : ConjunctiveQuery) :
    ((g.solutions q).map Bindings.get?).Nodup :=
  List.pairwise_map.mpr (tabular_solutions g q).distinct

/-- Queries with the same patterns and the same filters have the same rows, in some order. -/
theorem perm_solutions (g : TripleStore) {q r : ConjunctiveQuery}
    (hpatterns : q.patterns.Perm r.patterns) (hfilters : q.filters.Perm r.filters) :
    ((g.solutions q).map Bindings.get?).Perm ((g.solutions r).map Bindings.get?) := by
  refine (List.perm_ext_iff_of_nodup (nodup_solutions g q) (nodup_solutions g r)).mpr ?_
  intro row
  have hgiven : ∀ {q' r' : ConjunctiveQuery}, q'.patterns.Perm r'.patterns →
      q'.filters.Perm r'.filters → row ∈ (g.solutions q').map Bindings.get? →
        row ∈ (g.solutions r').map Bindings.get? := by
    intro q' r' hp hf hrow
    obtain ⟨b, _, rfl⟩ := List.mem_map.mp hrow
    exact (get?_mem_solutions r').mpr (((get?_mem_solutions q').mp hrow).perm hp hf)
  exact ⟨hgiven hpatterns hfilters, hgiven hpatterns.symm hfilters.symm⟩

/-- A graph in memory answers a query with the bindings that the query asks for, each of them once
and none besides. Without a pattern that is the empty one, the order of patterns and filters orders
the rows alone, and a basic graph pattern is a query without filters. -/
theorem answer_toService (g : TripleStore) (k : Nat) (context : CallContext)
    (q : ConjunctiveQuery) :
    ∃ rows, g.toService.answer k (.query q) context = .ok rows ∧
      (rows.map Bindings.get?).Nodup ∧
      (∀ b : Bindings, b.get? ∈ rows.map Bindings.get? ↔ q.Asks {t | t ∈ g.triples} b) ∧
      (q.patterns = [] → rows = [.empty]) ∧
      (∀ r : ConjunctiveQuery, q.patterns.Perm r.patterns → q.filters.Perm r.filters →
        ∃ rows', g.toService.answer k (.query r) context = .ok rows' ∧
          (rows.map Bindings.get?).Perm (rows'.map Bindings.get?)) ∧
      g.toService.answer k (.bgp q.patterns) context =
        g.toService.answer k (.query ⟨q.patterns, []⟩) context := by
  refine ⟨g.solutions q, rfl, nodup_solutions g q, ?_, ?_, ?_, rfl⟩
  · exact fun b => get?_mem_solutions q
  · intro hnone
    rw [solutions, hnone]
    rfl
  · intro r hpatterns hfilters
    exact ⟨g.solutions r, rfl, perm_solutions g hpatterns hfilters⟩

/-- A variable that stands twice in one pattern and again in another, a predicate that is a variable
and filtered, in both orders, and a query without patterns. -/
theorem answer_toService_repeated_variable :
    let ts : List Triple :=
      [⟨.iri ⟨"a"⟩, ⟨"p"⟩, .iri ⟨"a"⟩⟩, ⟨.iri ⟨"a"⟩, ⟨"q"⟩, .iri ⟨"b"⟩⟩]
    let x : Endpoint := .var ⟨"x"⟩
    let loop : TriplePattern := ⟨x, .var ⟨"p"⟩, x⟩
    let edge : TriplePattern := ⟨x, .iri ⟨"q"⟩, .var ⟨"y"⟩⟩
    let filters : List PredicateFilter := [⟨⟨"p"⟩, [⟨"q"⟩], .noneOf⟩]
    let q : ConjunctiveQuery := ⟨[loop, edge], filters⟩
    let r : ConjunctiveQuery := ⟨[edge, loop], filters⟩
    let g := (ofTriples ts).toService
    (∃ rows, g.answer 0 (.query q) .default = .ok rows ∧ (rows.map Bindings.get?).Nodup ∧
      (∀ b : Bindings, b.get? ∈ rows.map Bindings.get? ↔ q.Asks {t | t ∈ ts} b) ∧
      q.patterns.Perm r.patterns ∧ q.filters.Perm r.filters ∧
      ∃ rows', g.answer 0 (.query r) .default = .ok rows' ∧
        (rows.map Bindings.get?).Perm (rows'.map Bindings.get?)) ∧
    g.answer 0 (.query ⟨[], filters⟩) .default = .ok [.empty] := by
  intro ts x loop edge filters q r g
  have hpatterns : q.patterns.Perm r.patterns := List.Perm.swap edge loop []
  have hfilters : q.filters.Perm r.filters := List.Perm.refl filters
  obtain ⟨rows, hrows, hnodup, hasks, _, hperm, _⟩ := answer_toService (ofTriples ts) 0 .default q
  obtain ⟨none, hnone, _, _, hempty, _⟩ := answer_toService (ofTriples ts) 0 .default ⟨[], filters⟩
  rw [hempty rfl] at hnone
  rw [setOf_ofTriples] at hasks
  exact ⟨⟨rows, hrows, hnodup, hasks, hpatterns, hfilters, hperm r hpatterns hfilters⟩, hnone⟩

end TripleStore

end PropertyPath
