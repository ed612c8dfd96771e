import Mathlib.Logic.Function.Basic
import PropertyPath.Proofs.Automaton.Relation
import PropertyPath.Proofs.Graph.Answers
import PropertyPath.Proofs.Outcome
import PropertyPath.Proofs.Search.Yields
import PropertyPath.Search.Hop
import Std.Data.String.ToNat

/-!
# A hop joins what its chain relates

A solution of the query of a hop tells the nodes on the way, so its ends are related by the chain.
For ends that are related the nodes on the way make a solution; that they can be chosen one after
the other rests on the variables of a query being different ones.
-/
namespace PropertyPath
open Relation (Comp)

/-- A graph that answers every call, rightly, and has announced no fewer nodes than it has. -/
structure GraphService.Serves (g : GraphService) (G : Set Triple) : Prop where
  query : ∀ k q context, ∃ bs, g.answer k (.query q) context = .ok bs ∧ q.Answered G bs
  bgp : ∀ k ps context, ∃ bs, g.answer k (.bgp ps) context = .ok bs ∧
    ConjunctiveQuery.Answered ⟨ps, []⟩ G bs
  bound : ∃ nodes : List Term, nodes.length ≤ g.nodeBound ∧ ∀ x ∈ nodesOf G, x ∈ nodes

theorem TripleStore.serves (g : TripleStore) : g.toService.Serves {t | t ∈ g.triples} where
  query _ q _ := ⟨g.solutions q, rfl, answered_solutions g q⟩
  bgp _ ps _ := ⟨g.solutions ⟨ps, []⟩, rfl, answered_solutions g ⟨ps, []⟩⟩
  bound := ⟨g.nodes, Nat.le_refl _, fun _ hx => mem_nodes.mpr hx⟩

namespace Variable

/-- The variables that may still be made when `k` have been made. -/
def IsFresh (k : Nat) (v : Variable) : Prop :=
  ∃ letter j, letter.length = 1 ∧ k ≤ j ∧ v = fresh letter j

theorem IsFresh.mono {j k : Nat} {v : Variable} (h : IsFresh k v) (hle : j ≤ k) : IsFresh j v := by
  obtain ⟨letter, i, hletter, hi, hv⟩ := h
  exact ⟨letter, i, hletter, by omega, hv⟩

/-- Letters are of one length, so equal names have the same number. -/
theorem eq_of_fresh_eq {letter letter' : String} {j k : Nat} (hletter : letter.length = 1)
    (hletter' : letter'.length = 1) (h : fresh letter j = fresh letter' k) : j = k := by
  have hname := congrArg (fun v => v.name.toList) h
  simp only [fresh, String.toList_append] at hname
  rw [List.append_assoc, List.append_assoc, List.append_cancel_left_eq] at hname
  have hlength : letter.toList.length = letter'.toList.length := by
    rw [String.length_toList, String.length_toList, hletter, hletter']
  have hrepr := String.toList_inj.mp (List.append_inj hname hlength).2
  exact Nat.repr_injective hrepr

theorem not_isFresh_fresh {letter : String} {j k : Nat} (hletter : letter.length = 1) (h : j < k) :
    ¬ IsFresh k (fresh letter j) := by
  intro hpick
  rcases hpick with ⟨letter', i, hletter', hi, heq⟩
  have hji := eq_of_fresh_eq hletter hletter' heq
  omega

/-- A name of an underscore and one more character has no number, so it is never made. -/
theorem not_isFresh_of_length {v : Variable} (h : v.name.length ≤ 2) (k : Nat) : ¬ v.IsFresh k := by
  intro hpick
  rcases hpick with ⟨letter, j, hletter, _, rfl⟩
  have hpos := Nat.length_repr_pos (n := j)
  have hlength : (fresh letter j).name.length = 1 + letter.length + j.repr.length := by
    simp only [fresh, String.length_append]
    rfl
  omega

end Variable

namespace Instruction

theorem admits_of_single {i : Instruction} {property : Iri}
    (h : i.single? = some property) (p : Iri) :
    i.admits p = true ↔ p = property := by
  unfold single? at h
  split at h
  · next q hlist =>
      split at h
      · cases h
      · next hnegation =>
          cases h
          have hmem : p ∈ i.properties ↔ p ∈ [property] := hlist ▸ Iff.rfl
          rw [List.mem_singleton] at hmem
          simp [PropertySet.admits, hnegation, hmem]
  · cases h

end Instruction

namespace Hop
variable {G : Set Triple}

/-- The predicate of the pattern of an instruction. -/
def predicateOf (k : Nat) (i : Instruction) : PredicatePattern :=
  match i.single? with
  | some property => .iri property
  | none => .var (Variable.fresh "p" k)

/-- The filters that go with the pattern of an instruction. -/
def filtersOf (k : Nat) (i : Instruction) : List PredicateFilter :=
  match i.single? with
  | some _ => []
  | none => [filterOf (Variable.fresh "p" k) i]

/-- How many variables have been made after the pattern of an instruction. -/
def afterwards (k : Nat) (i : Instruction) : Nat :=
  match i.single? with
  | some _ => k
  | none => k + 1

theorem chainFrom_single (finish : Variable) (k : Nat) (source : Endpoint) (i : Instruction) :
    chainFrom finish k source [i] =
      ⟨[edge i source (predicateOf k i) (.var finish)], filtersOf k i⟩ := by
  unfold predicateOf filtersOf
  rw [chainFrom]
  cases i.single? <;> rfl

theorem chainFrom_cons (finish : Variable) (k : Nat) (source : Endpoint) (i j : Instruction)
    (is : List Instruction) :
    chainFrom finish k source (i :: j :: is) =
      let node := Variable.fresh "n" k
      let q := chainFrom finish (afterwards (k + 1) i) (.var node) (j :: is)
      ⟨edge i source (predicateOf (k + 1) i) (.var node) :: q.patterns,
        filtersOf (k + 1) i ++ q.filters⟩ := by
  unfold predicateOf filtersOf afterwards
  rw [chainFrom]
  cases i.single? <;> rfl

theorem le_afterwards (k : Nat) (i : Instruction) : k ≤ afterwards k i := by
  rw [afterwards]
  split <;> omega

theorem accepts_filterOf (v : Variable) (i : Instruction) (p : Iri) :
    (filterOf v i).accepts (.iri p) = i.admits p := by
  have hlisted :
      (i.properties.toList.any fun q => Term.iri p == Term.iri q) = decide (p ∈ i.properties) := by
    rw [Bool.eq_iff_iff, List.any_eq_true, decide_eq_true_iff]
    constructor
    · intro h
      rcases h with ⟨q, hq, heq⟩
      rw [Term.iri.inj (eq_of_beq heq)]
      exact hq
    · intro hp
      exact ⟨p, hp, beq_self_eq_true _⟩
  unfold filterOf PredicateFilter.accepts PropertySet.admits
  cases i.negation <;> simp [hlisted]

section sound
variable {b : Bindings} {k : Nat} {i : Instruction} {source target : Endpoint}

theorem admits_of_passes {t : Triple}
    (hfits : (predicateOf k i).toEndpoint.resolve b = some (.iri t.predicate))
    (hpasses : ∀ f ∈ filtersOf k i, f.passes b = true) : i.admits t.predicate = true := by
  cases hsingle : i.single? with
  | some property =>
      rw [predicateOf, hsingle] at hfits
      rw [Instruction.admits_of_single hsingle]
      exact (Term.iri.inj (Option.some.inj hfits)).symm
  | none =>
      rw [predicateOf, hsingle] at hfits
      rw [filtersOf, hsingle] at hpasses
      have hget : b.get? (Variable.fresh "p" k) = some (.iri t.predicate) := hfits
      have hfilter := hpasses _ List.mem_cons_self
      rw [PredicateFilter.passes, filterOf, hget] at hfilter
      rw [← accepts_filterOf (Variable.fresh "p" k)]
      exact hfilter

/-- A solution of one pattern crosses an edge that the instruction takes. -/
theorem crosses_of_fits {t : Triple} (ht : t ∈ G)
    (hfits : (edge i source (predicateOf k i) target).Fits b t)
    (hpasses : ∀ f ∈ filtersOf k i, f.passes b = true) :
    ∃ x y, source.resolve b = some x ∧ target.resolve b = some y ∧
      Crosses G i.toPropertySet.Takes x y := by
  have hpredicate : (edge i source (predicateOf k i) target).predicate = predicateOf k i := by
    unfold edge
    split <;> rfl
  have hadmits := admits_of_passes (hpredicate ▸ hfits.predicate) hpasses
  cases hinverse : i.inverse with
  | false =>
      rw [edge, hinverse] at hfits
      exact ⟨_, _, hfits.subject, hfits.object, ⟨t, false⟩, ht, ⟨hinverse.symm, hadmits⟩, rfl, rfl⟩
  | true =>
      rw [edge, hinverse] at hfits
      exact ⟨_, _, hfits.object, hfits.subject, ⟨t, true⟩, ht, ⟨hinverse.symm, hadmits⟩, rfl, rfl⟩

/-- A solution of the patterns of a chain tells two ends that the chain relates. -/
theorem relation_of_solved {finish : Variable} {is : List Instruction} (hne : is ≠ [])
    (h : (chainFrom finish k source is).Solved G b) :
    ∃ x y, source.resolve b = some x ∧ b.get? finish = some y ∧ chainRelation G is x y := by
  induction is generalizing k source with
  | nil => exact absurd rfl hne
  | cons i is ih =>
      cases is with
      | nil =>
          rw [chainFrom_single] at h
          obtain ⟨t, ht, hfits⟩ := h.patterns _ List.mem_cons_self
          obtain ⟨x, y, hx, hy, hcross⟩ := crosses_of_fits ht hfits h.filters
          exact ⟨x, y, hx, hy, y, hcross, rfl⟩
      | cons j is =>
          rw [chainFrom_cons] at h
          obtain ⟨t, ht, hfits⟩ := h.patterns _ List.mem_cons_self
          have hfilters := fun f hf => h.filters f (List.mem_append_left _ hf)
          obtain ⟨x, z, hx, hz, hcross⟩ := crosses_of_fits ht hfits hfilters
          have hrest := ih (List.cons_ne_nil j is)
            ⟨fun p hp => h.patterns p (List.mem_cons_of_mem _ hp),
              fun f hf => h.filters f (List.mem_append_right _ hf)⟩
          obtain ⟨z', y, hz', hy, hchain⟩ := hrest
          obtain rfl := Option.some.inj (hz.symm.trans hz')
          exact ⟨x, y, hx, hy, z, hcross, hchain⟩

end sound

section complete
variable {σ τ : Valuation} {k : Nat} {i : Instruction} {source target : Endpoint}

/-- The two valuations give the same terms to all variables that have been made. -/
def SameBefore (k : Nat) (τ σ : Valuation) : Prop := ∀ v, ¬ v.IsFresh k → τ v = σ v

theorem SameBefore.value (h : SameBefore k τ σ) (hsource : ∀ v, source = .var v → ¬ v.IsFresh k) :
    source.value τ = source.value σ := by
  cases source with
  | term t => rfl
  | var v => exact h v (hsource v rfl)

theorem SameBefore.trans {ρ : Valuation} {j : Nat} (h : SameBefore k τ σ) (h' : SameBefore j σ ρ)
    (hle : j ≤ k) : SameBefore j τ ρ := by
  intro v hv
  rw [h v (fun hfresh => hv (hfresh.mono hle)), h' v hv]

theorem sameBefore_update {v : Variable} (hv : v.IsFresh k) (t : Term) :
    SameBefore k (Function.update σ v t) σ := by
  intro w hw
  have hne : w ≠ v := fun heq => hw (heq ▸ hv)
  exact Function.update_of_ne hne t σ

/-- An edge that the instruction takes solves its pattern. -/
theorem holds_of_crosses (k : Nat) (target : Endpoint) {x y : Term}
    (hcross : Crosses G i.toPropertySet.Takes x y) :
    ∃ p : Iri, ∀ τ : Valuation, (i.single? = none → τ (Variable.fresh "p" k) = .iri p) →
      source.value τ = x → target.value τ = y →
        (∃ t ∈ G, (edge i source (predicateOf k i) target).Holds τ t) ∧
          ∀ f ∈ filtersOf k i, f.accepts (τ f.var) = true := by
  obtain ⟨⟨t, inverse⟩, ht, ⟨hinverse, hadmits⟩, rfl, rfl⟩ := hcross
  refine ⟨t.predicate, fun τ hp hx hy => ⟨⟨t, ht, ?_⟩, ?_⟩⟩
  · have hpredicate : (predicateOf k i).toEndpoint.value τ = .iri t.predicate := by
      rw [predicateOf]
      split
      · next property hsingle =>
          rw [(Instruction.admits_of_single hsingle t.predicate).mp hadmits]
          rfl
      · next hsingle => exact hp hsingle
    cases inverse with
    | false =>
        rw [edge, ← hinverse]
        exact ⟨hx, hpredicate, hy⟩
    | true =>
        rw [edge, ← hinverse]
        exact ⟨hy, hpredicate, hx⟩
  · intro f hf
    rw [filtersOf] at hf
    split at hf
    · cases hf
    · next hsingle =>
        obtain rfl := List.mem_singleton.mp hf
        change (filterOf _ i).accepts (τ (Variable.fresh "p" k)) = true
        rw [hp hsingle, accepts_filterOf]
        exact hadmits

/-- The next node and the predicate of the edge to it can be chosen. -/
theorem exists_sameBefore (σ : Valuation) (k : Nat) (z : Term) (p : Iri) :
    ∃ τ, SameBefore k τ σ ∧ τ (Variable.fresh "n" k) = z ∧
      τ (Variable.fresh "p" (k + 1)) = .iri p := by
  let ρ := Function.update σ (Variable.fresh "n" k) z
  let τ := Function.update ρ (Variable.fresh "p" (k + 1)) (.iri p)
  have hρ : SameBefore k ρ σ := sameBefore_update ⟨"n", k, rfl, Nat.le_refl k, rfl⟩ z
  have hτ : SameBefore (k + 1) τ ρ :=
    sameBefore_update ⟨"p", k + 1, rfl, Nat.le_refl _, rfl⟩ (.iri p)
  refine ⟨τ, hτ.trans hρ (by omega), ?_, Function.update_self _ _ _⟩
  rw [hτ _ (Variable.not_isFresh_fresh rfl (by omega))]
  exact Function.update_self _ _ _

/-- Ends that the chain relates belong to a solution, which leaves alone what is bound before. -/
theorem holds_of_chainRelation {finish : Variable} {is : List Instruction} (hne : is ≠ [])
    (hsource : ∀ v, source = .var v → ¬ v.IsFresh k) (hfinish : ¬ finish.IsFresh k)
    (h : chainRelation G is (source.value σ) (σ finish)) :
    ∃ τ, (chainFrom finish k source is).Holds G τ ∧ SameBefore k τ σ := by
  induction is generalizing k source σ with
  | nil => exact absurd rfl hne
  | cons i is ih =>
      obtain ⟨z, hcross, hrest⟩ := h
      cases is with
      | nil =>
          have hz : z = σ finish := hrest
          obtain ⟨p, hp⟩ := holds_of_crosses k (.var finish) hcross
          let τ := Function.update σ (Variable.fresh "p" k) (.iri p)
          have hsame : SameBefore k τ σ :=
            sameBefore_update ⟨"p", k, rfl, Nat.le_refl k, rfl⟩ (.iri p)
          have htarget : τ finish = z := (hsame finish hfinish).trans hz.symm
          have hedge := hp τ (fun _ => Function.update_self _ _ _) (hsame.value hsource) htarget
          refine ⟨τ, ?_, hsame⟩
          rw [chainFrom_single]
          refine ⟨?_, hedge.2⟩
          intro q hq
          rw [List.mem_singleton.mp hq]
          exact hedge.1
      | cons j is =>
          let node := Variable.fresh "n" k
          let next := afterwards (k + 1) i
          have hnext : k < next := le_afterwards (k + 1) i
          obtain ⟨p, hp⟩ := holds_of_crosses (k + 1) (.var node) hcross
          -- The node and the predicate of the edge are chosen before the rest of the chain.
          obtain ⟨ρ, hρ, hnode, hchosen⟩ := exists_sameBefore σ k z p
          have hchain : chainRelation G (j :: is) ((Endpoint.var node).value ρ) (ρ finish) := by
            change chainRelation G (j :: is) (ρ node) (ρ finish)
            rw [hnode, hρ finish hfinish]
            exact hrest
          have hnodeFresh : ∀ v, Endpoint.var node = .var v → ¬ v.IsFresh next := by
            intro v hv
            rw [← Endpoint.var.inj hv]
            exact Variable.not_isFresh_fresh rfl hnext
          have hfinish' : ¬ finish.IsFresh next :=
            fun hfresh => hfinish (hfresh.mono (by omega))
          obtain ⟨τ, hτ, hsame⟩ := ih (List.cons_ne_nil j is) hnodeFresh hfinish' hchain
          have hsame' : SameBefore k τ σ := hsame.trans hρ (by omega)
          have hpredicate : i.single? = none → τ (Variable.fresh "p" (k + 1)) = .iri p := by
            intro hsingle
            have hlt : k + 1 < next := by
              change k + 1 < afterwards (k + 1) i
              rw [afterwards, hsingle]
              exact Nat.lt_succ_self _
            rw [hsame _ (Variable.not_isFresh_fresh rfl hlt)]
            exact hchosen
          have htarget : τ node = z := (hsame.value hnodeFresh).trans hnode
          have hedge := hp τ hpredicate (hsame'.value hsource) htarget
          refine ⟨τ, ?_, hsame'⟩
          rw [chainFrom_cons]
          refine ⟨List.forall_mem_cons.mpr ⟨hedge.1, hτ.patterns⟩, ?_⟩
          intro f hf
          rcases List.mem_append.mp hf with hf | hf
          · exact hedge.2 f hf
          · exact hτ.filters f hf

end complete

section pairs
variable {g : GraphService} {context : CallContext} {start : Endpoint}

theorem mem_ends {h : Hop} {b : Bindings} {x y : Term} :
    h.ends b = .ok (x, y) ↔ h.start.resolve b = some x ∧ b.get? h.finish = some y := by
  rw [ends]
  split
  · next s t hs ht =>
      rw [hs, ht]
      simp
  · next hnone =>
      constructor
      · exact nofun
      · intro hsome
        exact absurd hsome.2 (hnone x y hsome.1)

/-- The end of a hop is a variable of its own, so the two ends can be chosen freely. -/
theorem exists_valuation (hstart : ∀ v, start = .var v → ¬ v.IsFresh 0) {x : Term}
    (hx : start.Admits x) (y : Term) :
    ∃ σ : Valuation, start.value σ = x ∧ σ (Variable.fresh "o" 0) = y := by
  refine ⟨Function.update (fun _ => x) (Variable.fresh "o" 0) y, ?_, Function.update_self _ _ _⟩
  cases start with
  | term t => exact (hx t rfl).symm
  | var v =>
      have hv : v ≠ Variable.fresh "o" 0 := by
        intro heq
        subst heq
        exact hstart _ rfl ⟨"o", 0, rfl, Nat.le_refl 0, rfl⟩
      exact Function.update_of_ne hv y (fun _ => x)

/-- Every right answer to the query of a hop binds both of its ends, and the chain relates them. -/
theorem exists_ends {is : List Instruction} (hne : is ≠ []) {bs : List Bindings}
    (hbs : (ofChain start is).query.Answered G bs) :
    ∀ b ∈ bs, ∃ x y, (ofChain start is).ends b = .ok (x, y) ∧ chainRelation G is x y := by
  intro b hb
  obtain ⟨x, y, hx, hy, hchain⟩ := relation_of_solved hne (hbs.sound b hb)
  exact ⟨x, y, mem_ends.mpr ⟨hx, hy⟩, hchain⟩

/-- Right answers to the query of a hop have the ends that its chain relates. -/
theorem exists_pairs (hstart : ∀ v, start = .var v → ¬ v.IsFresh 0) {is : List Instruction}
    (hne : is ≠ []) {bs : List Bindings} (hbs : (ofChain start is).query.Answered G bs) :
    ∃ pairs, bs.mapM (ofChain start is).ends = .ok pairs ∧
      ∀ x y, (x, y) ∈ pairs ↔ chainRelation G is x y ∧ start.Admits x := by
  have hfinish : ¬ (Variable.fresh "o" 0).IsFresh 1 :=
    Variable.not_isFresh_fresh rfl Nat.zero_lt_one
  have hstart' : ∀ v, start = .var v → ¬ v.IsFresh 1 :=
    fun v hv hfresh => hstart v hv (hfresh.mono (by omega))
  have hsolved := exists_ends hne hbs
  have hends : ∀ b ∈ bs, ∃ pair, (ofChain start is).ends b = .ok pair := by
    intro b hb
    obtain ⟨x, y, hends, _⟩ := hsolved b hb
    exact ⟨(x, y), hends⟩
  obtain ⟨pairs, hpairs⟩ := exists_mapM hends
  refine ⟨pairs, hpairs, ?_⟩
  intro x y
  rw [mem_mapM hpairs]
  constructor
  · intro h
    rcases h with ⟨b, hb, hxy⟩
    obtain ⟨x', y', hxy', hchain⟩ := hsolved b hb
    obtain ⟨rfl, rfl⟩ := Prod.mk.inj (Except.ok.inj (hxy.symm.trans hxy'))
    refine ⟨hchain, ?_⟩
    intro t heq
    subst heq
    have hx : some t = some x := (mem_ends.mp hxy).1
    exact (Option.some.inj hx).symm
  · intro h
    rcases h with ⟨hchain, hadmits⟩
    obtain ⟨σ, rfl, rfl⟩ := exists_valuation hstart hadmits y
    obtain ⟨τ, hτ, hsame⟩ := holds_of_chainRelation hne hstart' hfinish hchain
    obtain ⟨b, hb, hagrees⟩ := hbs.complete τ hτ
    obtain ⟨x', y', hxy, _⟩ := hsolved b hb
    obtain ⟨hx', hy'⟩ := mem_ends.mp hxy
    have hx : start.value σ = x' := by
      rw [← hsame.value hstart']
      exact Endpoint.value_of_resolve hagrees hx'
    have hy : σ (Variable.fresh "o" 0) = y' := by
      rw [← hsame _ hfinish]
      exact hagrees _ _ hy'
    refine ⟨b, hb, ?_⟩
    rw [hxy, hx, hy]

/-- The pairs of a hop are those that its chain relates. -/
theorem returns_execute (hg : g.Serves G) (hstart : ∀ v, start = .var v → ¬ v.IsFresh 0)
    {is : List Instruction} (hempty : is = [] → ∃ t, start = .term t) :
    ((ofChain start is).execute g context).Returns fun pairs =>
      ∀ x y, (x, y) ∈ pairs ↔ chainRelation G is x y ∧ start.Admits x := by
  cases is with
  | nil =>
      obtain ⟨t, rfl⟩ := hempty rfl
      refine Evaluation.returns_pure ?_
      intro x y
      rw [Endpoint.admits_term, List.mem_singleton, Prod.mk.injEq, chainRelation]
      constructor
      · intro h
        rcases h with ⟨rfl, rfl⟩
        exact ⟨rfl, rfl⟩
      · intro h
        rcases h with ⟨rfl, rfl⟩
        exact ⟨rfl, rfl⟩
  | cons i is =>
      have hne : i :: is ≠ [] := List.cons_ne_nil i is
      have hasked : (ofChain start (i :: is)).query.isEmpty = false := by
        change (chainFrom _ 1 start (i :: is)).patterns.isEmpty = false
        cases is with
        | nil => rw [chainFrom_single]; rfl
        | cons j is => rw [chainFrom_cons]; rfl
      rw [execute, hasked, if_neg Bool.false_ne_true]
      refine Evaluation.Returns.bind (Evaluation.returns_ask fun k => hg.query k _ context) ?_
      intro bs hbs
      obtain ⟨pairs, hpairs, hmem⟩ := exists_pairs hstart hne hbs
      have hends :
          (Evaluation.ofExcept (bs.mapM (ofChain start (i :: is)).ends)).Returns (· = pairs) :=
        Evaluation.returns_ofExcept hpairs rfl
      refine Evaluation.Returns.bind hends ?_
      intro _ heq
      subst heq
      refine Evaluation.returns_pure ?_
      intro x y
      rw [List.mem_eraseDups, hmem]

end pairs

end Hop

section branches
variable {G : Set Triple} {g : GraphService} {context : CallContext} {start : Endpoint}

theorem returns_pairsByChain (hg : g.Serves G) (hstart : ∀ v, start = .var v → ¬ v.IsFresh 0)
    {branches : List (List Instruction)} (hempty : [] ∈ branches → ∃ t, start = .term t) :
    (pairsByChain g context start branches).Returns fun pairs =>
      ∀ x y, (x, y) ∈ pairs ↔ (∃ is ∈ branches, chainRelation G is x y) ∧ start.Admits x := by
  induction branches with
  | nil =>
      refine Evaluation.returns_pure ?_
      intro x y
      simp
  | cons is branches ih =>
      rw [pairsByChain]
      have hfirst : is = [] → ∃ t, start = .term t :=
        fun heq => hempty (heq ▸ List.mem_cons_self)
      refine Evaluation.Returns.bind (Hop.returns_execute hg hstart hfirst) ?_
      intro pairs hpairs
      refine Evaluation.Returns.bind (ih fun hmem => hempty (List.mem_cons_of_mem is hmem)) ?_
      intro more hmore
      refine Evaluation.returns_pure ?_
      intro x y
      simp only [List.mem_append, hpairs, hmore, ← or_and_right, List.mem_cons, exists_eq_or_imp]

/-- The pairs that are joined by one of several chains are those that one of them relates. -/
theorem returns_joinedPairs (hg : g.Serves G) (hstart : ∀ v, start = .var v → ¬ v.IsFresh 0)
    {branches : List (List Instruction)} (hempty : [] ∈ branches → ∃ t, start = .term t) :
    (joinedPairs g context start branches).Returns fun pairs =>
      ∀ x y, (x, y) ∈ pairs ↔ (∃ is ∈ branches, chainRelation G is x y) ∧ start.Admits x := by
  refine Evaluation.Returns.bind (returns_pairsByChain hg hstart hempty) ?_
  intro pairs hpairs
  refine Evaluation.returns_pure ?_
  intro x y
  rw [List.mem_eraseDups, hpairs]

end branches

end PropertyPath
