import Mathlib.Data.Set.Basic
import PropertyPath.Graph.Service
import PropertyPath.Proofs.Graph.Store

/-!
# What the answers to a query mean

A valuation gives every variable a term. The answers to a query are right when each of them makes
all patterns triples of the graph, and when each valuation that does so agrees with one of them.
Matching one pattern after the other keeps both, since an index never leaves out a triple that the
pattern can still match.
-/
namespace PropertyPath

abbrev Valuation := Variable → Term

/-- Nothing is bound to another term than the valuation gives it. -/
def Bindings.Agrees (b : Bindings) (σ : Valuation) : Prop := ∀ v t, b.get? v = some t → σ v = t

/-- Everything that is bound stays bound. -/
def Bindings.Extends (c b : Bindings) : Prop := ∀ v t, b.get? v = some t → c.get? v = some t

namespace Endpoint
variable {b c : Bindings} {σ : Valuation} {e : Endpoint} {t : Term}

def value (σ : Valuation) : Endpoint → Term
  | term t => t
  | var v => σ v

/-- The end is a variable or the given term. -/
def Admits (e : Endpoint) (x : Term) : Prop := ∀ t, e = term t → x = t

@[simp] theorem admits_term {x : Term} : (term t).Admits x ↔ x = t :=
  ⟨fun h => h t rfl, fun h _ heq => h.trans (term.inj heq)⟩

@[simp] theorem admits_var {v : Variable} {x : Term} : (var v).Admits x := nofun

theorem resolve_mono (h : c.Extends b) (he : e.resolve b = some t) : e.resolve c = some t := by
  cases e with
  | term u => exact he
  | var v => exact h v t he

theorem value_of_resolve (h : b.Agrees σ) (he : e.resolve b = some t) : e.value σ = t := by
  cases e with
  | term u => exact Option.some.inj he
  | var v => exact h v t he

theorem unify_sound (h : e.unify t b = some c) : c.Extends b ∧ e.resolve c = some t := by
  cases e with
  | term u =>
      rw [unify] at h
      split at h
      · next heq =>
          cases h
          exact ⟨fun _ _ h => h, congrArg some heq⟩
      · cases h
  | var v =>
      have hget (w : Variable) := Bindings.get?_bind? (w := w) h
      refine ⟨?_, ?_⟩
      · intro w u hw
        rw [hget]
        by_cases hwv : w = v
        · subst hwv
          rw [if_pos rfl]
          by_cases htu : u = t
          · rw [htu]
          · have hnone := Bindings.bind?_eq_none_iff.mpr ⟨u, hw, htu⟩
            have hsome : b.bind? w t = some c := h
            rw [hnone] at hsome
            cases hsome
        · rw [if_neg hwv, hw]
      · change c.get? v = some t
        rw [hget, if_pos rfl]

theorem exists_unify (hb : b.Agrees σ) (he : e.value σ = t) :
    ∃ c, e.unify t b = some c ∧ c.Agrees σ := by
  cases e with
  | term u => exact ⟨b, if_pos he, hb⟩
  | var v =>
      cases h : b.bind? v t with
      | none =>
          obtain ⟨u, hu, hne⟩ := Bindings.bind?_eq_none_iff.mp h
          exact absurd ((hb v u hu).symm.trans he) hne
      | some c =>
          refine ⟨c, h, ?_⟩
          intro w u hw
          rw [Bindings.get?_bind? h] at hw
          split at hw
          · next hwv =>
              cases hw
              rw [hwv]
              exact he
          · exact hb w u hw

end Endpoint

namespace PredicatePattern

def toEndpoint : PredicatePattern → Endpoint
  | iri i => .term (.iri i)
  | var v => .var v

theorem unify_eq (p : PredicatePattern) (i : Iri) (b : Bindings) :
    p.unify i b = p.toEndpoint.unify (.iri i) b := by
  cases p with
  | iri expected => simp [unify, toEndpoint, Endpoint.unify]
  | var v => rfl

end PredicatePattern

namespace TriplePattern
variable {b c : Bindings} {σ : Valuation} {p : TriplePattern} {t : Triple}

/-- The bindings make the pattern the given triple. -/
structure Fits (p : TriplePattern) (b : Bindings) (t : Triple) : Prop where
  subject : p.subject.resolve b = some t.subject.toTerm
  predicate : p.predicate.toEndpoint.resolve b = some (.iri t.predicate)
  object : p.object.resolve b = some t.object

/-- The valuation makes the pattern the given triple. -/
structure Holds (p : TriplePattern) (σ : Valuation) (t : Triple) : Prop where
  subject : p.subject.value σ = t.subject.toTerm
  predicate : p.predicate.toEndpoint.value σ = .iri t.predicate
  object : p.object.value σ = t.object

theorem Fits.mono (hp : p.Fits b t) (h : c.Extends b) : p.Fits c t :=
  ⟨Endpoint.resolve_mono h hp.subject, Endpoint.resolve_mono h hp.predicate,
    Endpoint.resolve_mono h hp.object⟩

theorem unify_sound (h : p.unify t b = some c) : c.Extends b ∧ p.Fits c t := by
  simp only [unify, PredicatePattern.unify_eq, Option.bind_eq_bind, Option.bind_eq_some_iff] at h
  obtain ⟨b₁, hsubject, b₂, hpredicate, hobject⟩ := h
  obtain ⟨hext₁, hs⟩ := Endpoint.unify_sound hsubject
  obtain ⟨hext₂, hp⟩ := Endpoint.unify_sound hpredicate
  obtain ⟨hext₃, ho⟩ := Endpoint.unify_sound hobject
  refine ⟨fun v u hv => hext₃ v u (hext₂ v u (hext₁ v u hv)), ?_, ?_, ho⟩
  · exact Endpoint.resolve_mono hext₃ (Endpoint.resolve_mono hext₂ hs)
  · exact Endpoint.resolve_mono hext₃ hp

theorem exists_unify (hb : b.Agrees σ) (h : p.Holds σ t) :
    ∃ c, p.unify t b = some c ∧ c.Agrees σ := by
  obtain ⟨b₁, hsubject, hb₁⟩ := Endpoint.exists_unify hb h.subject
  obtain ⟨b₂, hpredicate, hb₂⟩ := Endpoint.exists_unify hb₁ h.predicate
  obtain ⟨c, hobject, hc⟩ := Endpoint.exists_unify hb₂ h.object
  refine ⟨c, ?_, hc⟩
  rw [unify, hsubject]
  change (p.predicate.unify t.predicate b₁ >>= _) = _
  rw [PredicatePattern.unify_eq, hpredicate]
  exact hobject

end TriplePattern

section query
variable {G : Set Triple} {b c : Bindings} {σ : Valuation}

/-- Every pattern is a triple of the graph, and no filter refuses the value of its variable. -/
structure ConjunctiveQuery.Solved (q : ConjunctiveQuery) (G : Set Triple) (b : Bindings) :
    Prop where
  patterns : ∀ p ∈ q.patterns, ∃ t ∈ G, p.Fits b t
  filters : ∀ f ∈ q.filters, f.passes b = true

structure ConjunctiveQuery.Holds (q : ConjunctiveQuery) (G : Set Triple) (σ : Valuation) :
    Prop where
  patterns : ∀ p ∈ q.patterns, ∃ t ∈ G, p.Holds σ t
  filters : ∀ f ∈ q.filters, f.accepts (σ f.var) = true

/-- Nothing wrong is answered, and nothing is left out. -/
structure ConjunctiveQuery.Answered (q : ConjunctiveQuery) (G : Set Triple) (bs : List Bindings) :
    Prop where
  sound : ∀ b ∈ bs, q.Solved G b
  complete : ∀ σ, q.Holds G σ → ∃ b ∈ bs, b.Agrees σ

theorem PredicateFilter.passes_of_agrees {f : PredicateFilter} (hb : b.Agrees σ)
    (h : f.accepts (σ f.var) = true) : f.passes b = true := by
  rw [passes]
  cases hget : b.get? f.var with
  | none => rfl
  | some t =>
      rw [hb f.var t hget] at h
      exact h

end query

namespace TripleStore
variable {g : TripleStore} {b : Bindings} {σ : Valuation} {p : TriplePattern}
  {filters : List PredicateFilter}

theorem candidates_subset {t : Triple} (h : t ∈ g.candidates p b) :
    t ∈ g.triples := by
  unfold candidates at h
  split at h
  · exact (mem_withSubject.mp h).1
  · exact (mem_withObject.mp h).1
  · split at h
    · exact (mem_withPredicate.mp h).1
    · split at h
      · exact (mem_withPredicate.mp h).1
      · cases h
      · exact mem_all.mp h

/-- No look-up leaves out a triple that a pattern can be. -/
theorem mem_candidates (hb : b.Agrees σ) {t : Triple} (ht : t ∈ g.triples)
    (h : p.Holds σ t) : t ∈ g.candidates p b := by
  have hpredicate := h.predicate
  unfold candidates
  split
  · next s _ hs =>
      rw [mem_withSubject, ← h.subject, Endpoint.value_of_resolve hb hs]
      exact ⟨ht, rfl⟩
  · next o _ ho =>
      rw [mem_withObject, ← h.object, Endpoint.value_of_resolve hb ho]
      exact ⟨ht, rfl⟩
  · split
    · next i hi =>
        rw [hi] at hpredicate
        exact mem_withPredicate.mpr ⟨ht, (Term.iri.inj hpredicate).symm⟩
    · next v hv =>
        rw [hv] at hpredicate
        split
        · next i hget =>
            have hvalue := (hb v _ hget).symm.trans hpredicate
            exact mem_withPredicate.mpr ⟨ht, (Term.iri.inj hvalue).symm⟩
        · next u hnot hget =>
            have hvalue := (hb v _ hget).symm.trans hpredicate
            exact absurd hvalue (hnot t.predicate)
        · exact mem_all.mpr ht

theorem mem_matchPattern {solutions : List Bindings} {c : Bindings} :
    c ∈ g.matchPattern filters p solutions ↔
      (∃ b ∈ solutions, ∃ t ∈ g.candidates p b, p.unify t b = some c) ∧
        ∀ f ∈ filters, f.passes c = true := by
  simp [matchPattern]

theorem matchPatterns_nil (ps : List TriplePattern) : g.matchPatterns filters ps [] = [] := by
  cases ps with
  | nil => rfl
  | cons p ps => rfl

theorem matchPatterns_cons (p : TriplePattern) (ps : List TriplePattern)
    (solutions : List Bindings) :
    g.matchPatterns filters (p :: ps) solutions =
      g.matchPatterns filters ps (g.matchPattern filters p solutions) := by
  rw [matchPatterns]
  split
  · next hnil => rw [hnil, matchPatterns_nil]
  · rfl

/-- What all solutions so far satisfy, all solutions satisfy at the end, together with the
patterns. -/
theorem matchPatterns_sound (ps : List TriplePattern) {solutions : List Bindings}
    (hpass : ∀ b ∈ solutions, ∀ f ∈ filters, f.passes b = true) {c : Bindings}
    (hc : c ∈ g.matchPatterns filters ps solutions) :
    (∃ b ∈ solutions, c.Extends b) ∧ (∀ p ∈ ps, ∃ t ∈ g.triples, p.Fits c t) ∧
      ∀ f ∈ filters, f.passes c = true := by
  induction ps generalizing solutions with
  | nil => exact ⟨⟨c, hc, fun _ _ h => h⟩, nofun, hpass c hc⟩
  | cons p ps ih =>
      rw [matchPatterns_cons] at hc
      obtain ⟨⟨b₁, hb₁, hext₁⟩, hps, hfilters⟩ :=
        ih (fun b hb => (mem_matchPattern.mp hb).2) hc
      obtain ⟨⟨b, hb, t, ht, hunify⟩, _⟩ := mem_matchPattern.mp hb₁
      obtain ⟨hext, hfits⟩ := TriplePattern.unify_sound hunify
      refine ⟨⟨b, hb, fun v u hv => hext₁ v u (hext v u hv)⟩, ?_, hfilters⟩
      rw [List.forall_mem_cons]
      exact ⟨⟨t, candidates_subset ht, hfits.mono hext₁⟩, hps⟩

theorem matchPatterns_complete (ps : List TriplePattern) {solutions : List Bindings}
    (hfilters : ∀ f ∈ filters, f.accepts (σ f.var) = true)
    (hps : ∀ p ∈ ps, ∃ t ∈ g.triples, p.Holds σ t) (hb : ∃ b ∈ solutions, b.Agrees σ) :
    ∃ c ∈ g.matchPatterns filters ps solutions, c.Agrees σ := by
  induction ps generalizing solutions with
  | nil => exact hb
  | cons p ps ih =>
      rw [List.forall_mem_cons] at hps
      obtain ⟨⟨t, ht, hholds⟩, hrest⟩ := hps
      obtain ⟨b, hb, hagrees⟩ := hb
      obtain ⟨c, hunify, hc⟩ := TriplePattern.exists_unify hagrees hholds
      rw [matchPatterns_cons]
      refine ih hrest ⟨c, mem_matchPattern.mpr ⟨?_, ?_⟩, hc⟩
      · exact ⟨b, hb, t, mem_candidates hagrees ht hholds, hunify⟩
      · exact fun f hf => PredicateFilter.passes_of_agrees hc (hfilters f hf)

/-- A graph in memory answers queries rightly. -/
theorem answered_solutions (g : TripleStore) (q : ConjunctiveQuery) :
    q.Answered {t | t ∈ g.triples} (g.solutions q) where
  sound b hb := by
    have hpass : ∀ b ∈ [Bindings.empty], ∀ f ∈ q.filters, f.passes b = true := by
      intro b hb f _
      rw [List.mem_singleton.mp hb]
      rfl
    obtain ⟨_, hpatterns, hfilters⟩ := matchPatterns_sound q.patterns hpass hb
    exact ⟨hpatterns, hfilters⟩
  complete σ h :=
    matchPatterns_complete q.patterns h.filters h.patterns ⟨.empty, List.mem_cons_self, nofun⟩

end TripleStore

end PropertyPath
