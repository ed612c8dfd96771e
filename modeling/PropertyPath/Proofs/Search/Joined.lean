import PropertyPath.Proofs.Repeats
import PropertyPath.Proofs.Search.Origins

/-!
# A hop composes the relations of its instructions

An instruction connects the two ends of an edge that it takes, and a chain connects the two ends of
a line of nodes in which every instruction connects the next two. The pairs of a hop are those that
one of its chains connects, each once. A chain without instructions connects every term with itself,
so it can be asked for at a known term only.
-/
namespace PropertyPath

/-- An edge of the graph leads from `x` to `y`, or from `y` to `x` if the instruction is inverse,
and its predicate is listed, or is not listed if the instruction is negated. -/
def Instruction.Connects (G : Set Triple) (i : Instruction) (x y : Term) : Prop :=
  ∃ t ∈ G, (t.predicate ∈ i.properties ↔ i.negation = false) ∧
    if i.inverse then t.object = x ∧ t.subject.toTerm = y else t.subject.toTerm = x ∧ t.object = y

/-- There is a line of nodes from `x` to `y` along which the instructions connect one node with the
next. -/
def ChainConnects (G : Set Triple) (is : List Instruction) (x y : Term) : Prop :=
  ∃ nodes : Nat → Term, nodes 0 = x ∧ nodes is.length = y ∧
    ∀ j (h : j < is.length), is[j].Connects G (nodes j) (nodes (j + 1))

section
variable {G : Set Triple}

theorem Instruction.connects_iff {i : Instruction} {x y : Term} :
    i.Connects G x y ↔ Crosses G i.toPropertySet.Takes x y := by
  constructor
  · intro h
    obtain ⟨t, ht, hadmits, hends⟩ := h
    refine ⟨⟨t, i.inverse⟩, ht, ⟨rfl, PropertySet.admits_iff.mpr hadmits⟩, ?_⟩
    cases hinverse : i.inverse <;> simpa [hinverse, Step.source, Step.target] using hends
  · intro h
    obtain ⟨⟨t, inverse⟩, ht, ⟨hinverse, hadmits⟩, hx, hy⟩ := h
    refine ⟨t, ht, PropertySet.admits_iff.mp hadmits, ?_⟩
    change inverse = i.inverse at hinverse
    subst hinverse
    cases hinverse : i.inverse <;> simp_all [Step.source, Step.target]

theorem chainConnects_nil {x y : Term} : ChainConnects G [] x y ↔ x = y := by
  constructor
  · intro h
    obtain ⟨nodes, hx, hy, _⟩ := h
    exact hx.symm.trans hy
  · intro heq
    exact ⟨fun _ => x, rfl, heq, nofun⟩

/-- The first instruction leads to the node at which the rest of the chain begins. -/
theorem chainConnects_cons {i : Instruction} {is : List Instruction} {x y : Term} :
    ChainConnects G (i :: is) x y ↔ ∃ z, i.Connects G x z ∧ ChainConnects G is z y := by
  constructor
  · intro h
    obtain ⟨nodes, rfl, hy, hsteps⟩ := h
    have hfirst : i.Connects G (nodes 0) (nodes 1) := hsteps 0 (Nat.succ_pos _)
    refine ⟨nodes 1, hfirst, fun j => nodes (j + 1), rfl, hy, ?_⟩
    intro j hj
    exact hsteps (j + 1) (Nat.succ_lt_succ hj)
  · intro h
    obtain ⟨_, hfirst, nodes, rfl, hy, hsteps⟩ := h
    refine ⟨fun j => j.casesOn x nodes, rfl, hy, ?_⟩
    intro j hj
    cases j with
    | zero => exact hfirst
    | succ j => exact hsteps j (Nat.lt_of_succ_lt_succ hj)

theorem chainConnects_iff {is : List Instruction} {x y : Term} :
    ChainConnects G is x y ↔ chainRelation G is x y := by
  induction is generalizing x with
  | nil => exact chainConnects_nil
  | cons i is ih =>
      rw [chainConnects_cons]
      simp only [Instruction.connects_iff, ih]
      rfl

end

section pairs
variable {G : Set Triple} {g : GraphService} {context : CallContext} {start : Endpoint}
variable {branches : List (List Instruction)}

theorem not_isFresh_of_var_eq {v : Variable} {k : Nat} (hv : ¬ v.IsFresh k) :
    ∀ w, Endpoint.var v = .var w → ¬ w.IsFresh k := by
  intro w heq
  rw [← Endpoint.var.inj heq]
  exact hv

/-- The pairs are told once each, and they are those that one of the chains connects. -/
theorem returns_distinct_joinedPairs (hg : g.Serves G)
    (hstart : ∀ v, start = .var v → ¬ v.IsFresh 0) (hempty : [] ∈ branches → ∃ t, start = .term t) :
    (joinedPairs g context start branches).Returns fun pairs => pairs.Nodup ∧
      ∀ x y, (x, y) ∈ pairs ↔ start.Admits x ∧ ∃ is ∈ branches, ChainConnects G is x y := by
  refine Evaluation.Returns.bind (returns_pairsByChain hg hstart hempty) ?_
  intro pairs hpairs
  refine Evaluation.returns_pure ⟨nodup_eraseDups pairs, ?_⟩
  intro x y
  simp only [List.mem_eraseDups, hpairs, chainConnects_iff]
  exact and_comm

/-- An empty chain fails from a variable, and the chains before it end with their pairs. -/
theorem result_pairsByChain_var (hg : g.Serves G) {v : Variable} (hv : ¬ v.IsFresh 0)
    (hempty : [] ∈ branches) (k : Nat) :
    (pairsByChain g context (.var v) branches k).result = .error (.fault .emptyHop) := by
  induction branches generalizing k with
  | nil => cases hempty
  | cons is branches ih =>
      rw [pairsByChain]
      cases is with
      | nil => exact Evaluation.result_bind_of_error rfl
      | cons i is =>
          have hrest : [] ∈ branches := by simpa using hempty
          have hfirst : ((Hop.ofChain (.var v) (i :: is)).execute g context).Returns _ :=
            Hop.returns_execute hg (not_isFresh_of_var_eq hv) fun heq =>
              absurd heq (List.cons_ne_nil i is)
          revert k
          refine hfirst.bind_finishes (Q := fun _ r => r = .error (.fault .emptyHop)) ?_
          intro pairs _ k
          exact Evaluation.result_bind_of_error (ih hrest k)

end pairs

namespace Search
open Evaluation

/-- Over a graph in memory the pairs of several chains are those that one of them connects, each
once: from a term the pairs that begin with it, from the variable of the origins all of them. From
that variable an empty chain is refused. -/
theorem result_joinedPairs (g : TripleStore) (context : CallContext)
    (branches : List (List Instruction)) (k : Nat) :
    let pairsFrom (start : Endpoint) :=
      (joinedPairs g.toService context start branches k).result
    let Connected (x y : Term) := ∃ is ∈ branches, ChainConnects {t | t ∈ g.triples} is x y
    (∀ t, ∃ pairs, pairsFrom (.term t) = .ok pairs ∧ pairs.Nodup ∧
      ∀ x y, (x, y) ∈ pairs ↔ x = t ∧ Connected x y) ∧
    ([] ∉ branches → ∃ pairs, pairsFrom (.var originVariable) = .ok pairs ∧ pairs.Nodup ∧
      ∀ x y, (x, y) ∈ pairs ↔ Connected x y) ∧
    ([] ∈ branches → pairsFrom (.var originVariable) = .error (.fault .emptyHop)) := by
  intro pairsFrom Connected
  have hg := g.serves
  refine ⟨?_, ?_, ?_⟩
  · intro t
    have hreturns : (joinedPairs g.toService context (.term t) branches).Returns _ :=
      returns_distinct_joinedPairs hg nofun fun _ => ⟨t, rfl⟩
    obtain ⟨pairs, hresult, _, hnodup, hmem⟩ := hreturns k
    exact ⟨pairs, hresult, hnodup, by simpa using hmem⟩
  · intro hne
    have hstart := not_isFresh_of_var_eq (not_isFresh_originVariable 0)
    have hreturns : (joinedPairs g.toService context (.var originVariable) branches).Returns _ :=
      returns_distinct_joinedPairs hg hstart fun hempty => absurd hempty hne
    obtain ⟨pairs, hresult, _, hnodup, hmem⟩ := hreturns k
    exact ⟨pairs, hresult, hnodup, by simpa using hmem⟩
  · intro hempty
    exact result_bind_of_error (result_pairsByChain_var hg (not_isFresh_originVariable 0) hempty k)

/-- An edge and then, against its direction, one of another predicate; from a term also the empty
chain, which is refused from the variable. -/
theorem result_joinedPairs_inverse_negation :
    let a : Term := .iri ⟨"a"⟩
    let c : Term := .iri ⟨"c"⟩
    let ts : List Triple := [⟨.iri ⟨"a"⟩, ⟨"p"⟩, .iri ⟨"b"⟩⟩, ⟨.iri ⟨"c"⟩, ⟨"q"⟩, .iri ⟨"b"⟩⟩]
    let chain : List Instruction := [.forward ⟨"p"⟩, ⟨⟨.ofList [⟨"p"⟩], true, true⟩, nofun⟩]
    let g := TripleStore.ofTriples ts
    let pairsFrom (start : Endpoint) (branches : List (List Instruction)) :=
      (joinedPairs g.toService .default start branches 0).result
    (∃ pairs, pairsFrom (.term a) [chain, []] = .ok pairs ∧ pairs.Nodup ∧ (a, c) ∈ pairs ∧
      (a, a) ∈ pairs) ∧
    ([] ∉ [chain] ∧ ∃ pairs, pairsFrom (.var originVariable) [chain] = .ok pairs ∧ pairs.Nodup ∧
      (a, c) ∈ pairs) ∧
    [] ∈ [chain, []] ∧
    pairsFrom (.var originVariable) [chain, []] = .error (.fault .emptyHop) := by
  intro a c ts chain g pairsFrom
  let i : Instruction := .forward ⟨"p"⟩
  let j : Instruction := ⟨⟨.ofList [⟨"p"⟩], true, true⟩, nofun⟩
  have hi : i.Connects {t | t ∈ g.triples} a (.iri ⟨"b"⟩) :=
    ⟨⟨.iri ⟨"a"⟩, ⟨"p"⟩, .iri ⟨"b"⟩⟩, TripleStore.mem_arranged.mpr (by simp [ts]), by decide, rfl,
      rfl⟩
  have hj : j.Connects {t | t ∈ g.triples} (.iri ⟨"b"⟩) c :=
    ⟨⟨.iri ⟨"c"⟩, ⟨"q"⟩, .iri ⟨"b"⟩⟩, TripleStore.mem_arranged.mpr (by simp [ts]), by decide, rfl,
      rfl⟩
  have hchain : ChainConnects {t | t ∈ g.triples} chain a c :=
    chainConnects_cons.mpr ⟨_, hi, chainConnects_cons.mpr ⟨_, hj, chainConnects_nil.mpr rfl⟩⟩
  obtain ⟨hterm, _, hrefused⟩ := result_joinedPairs g .default [chain, []] 0
  obtain ⟨pairs, hresult, hnodup, hmem⟩ := hterm a
  have hne : [] ∉ [chain] := by simp [chain]
  obtain ⟨all, hall, hallNodup, hmemAll⟩ := (result_joinedPairs g .default [chain] 0).2.1 hne
  refine ⟨⟨pairs, hresult, hnodup, ?_, ?_⟩, ⟨hne, all, hall, hallNodup, ?_⟩, by simp,
    hrefused (by simp)⟩
  · exact (hmem a c).mpr ⟨rfl, chain, by simp, hchain⟩
  · exact (hmem a a).mpr ⟨rfl, [], by simp, chainConnects_nil.mpr rfl⟩
  · exact (hmemAll a c).mpr ⟨chain, by simp, hchain⟩

end Search

end PropertyPath
