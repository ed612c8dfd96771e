import Mathlib.Data.List.Destutter
import Mathlib.Data.Set.Finite.Basic
import PropertyPath.Proofs.Search.Joined

/-!
# Equal instructions are equal rules

Whether two instructions are the same can be told from graphs of a single edge. An edge whose
predicate the one takes shows the direction of both. No finite set holds all IRIs, so some predicate
is listed by neither of them, and an edge with this predicate shows whether the lists are those of
what is taken or of what is not. The edges with the other predicates show the lists.
-/
namespace PropertyPath

instance : Infinite Iri := Infinite.of_injective Iri.mk fun _ _ h => congrArg Iri.value h

namespace IriSet

theorem exists_not_mem (s : IriSet) : ∃ p, p ∉ s := by
  obtain ⟨p, hp⟩ := Infinite.exists_notMem_finset s.toList.toFinset
  exact ⟨p, fun hmem => hp (List.mem_toFinset.mpr hmem)⟩

theorem ofList_eq_iff {xs ys : List Iri} : ofList xs = ofList ys ↔ ∀ p, p ∈ xs ↔ p ∈ ys := by
  constructor
  · intro heq p
    rw [← mem_ofList, heq, mem_ofList]
  · intro h
    refine ext fun p => ?_
    rw [mem_ofList, mem_ofList]
    exact h p

theorem ofList_toList (s : IriSet) : ofList s.toList = s := ext fun _ => mem_ofList

/-- The listing of a set comes from any listing of its members by order, when every one that follows
its equal is dropped. -/
theorem toList_ofList_eq_destutter {xs sorted : List Iri} (hperm : sorted.Perm xs)
    (hsorted : sorted.Pairwise fun p q => ¬ q < p) :
    (ofList xs).toList = sorted.destutter (· ≠ ·) := by
  have hantisymm : Std.Antisymm fun p q : Iri => ¬ q < p :=
    ⟨fun p q hqp hpq => by_contra fun hne => hqp (Iri.lt_of_not_lt_of_ne hpq hne)⟩
  rw [hsorted.destutter_eq_dedup]
  refine eq_of_ascending (ofList xs).ascending ?_ fun p => ?_
  · refine ((hsorted.sublist (List.dedup_sublist sorted)).and (List.nodup_dedup sorted)).imp ?_
    rintro p q ⟨hnot, hne⟩
    exact Iri.lt_of_not_lt_of_ne hnot hne.symm
  · rw [List.mem_dedup, hperm.mem_iff]
    exact mem_ofList

end IriSet

theorem PropertySet.ext {s t : PropertySet} (hproperties : s.properties = t.properties)
    (hinverse : s.inverse = t.inverse) (hnegation : s.negation = t.negation) : s = t := by
  cases s
  cases t
  rw [PropertySet.mk.injEq]
  exact ⟨hproperties, hinverse, hnegation⟩

namespace Instruction
variable {i j : Instruction} {p : Iri} {x y : Term}

theorem ofList_eq_ok_iff {ps : List Iri} {inverse negation : Bool} :
    ofList ps inverse negation = .ok i ↔ i.toPropertySet = ⟨.ofList ps, inverse, negation⟩ :=
      ofSet_eq_ok_iff

theorem eq_iff : i = j ↔ i.toPropertySet = j.toPropertySet := by
  cases i
  cases j
  rw [Instruction.mk.injEq]

/-- Every instruction takes some edge. -/
theorem exists_admits (i : Instruction) : ∃ p, i.admits p = true := by
  cases hnegation : i.negation with
  | false =>
      obtain ⟨p, hp⟩ := List.exists_mem_of_ne_nil _ i.nonempty
      exact ⟨p, PropertySet.admits_iff.mpr (iff_of_true hp hnegation)⟩
  | true =>
      obtain ⟨p, hp⟩ := i.properties.exists_not_mem
      exact ⟨p, PropertySet.admits_iff.mpr (iff_of_false hp (by simp [hnegation]))⟩

/-- The predicates that are taken and the direction are all there is to an instruction. -/
theorem eq_of_admits (hinverse : i.inverse = j.inverse)
    (h : ∀ p, i.admits p = true ↔ j.admits p = true) :
    i = j := by
  simp only [PropertySet.admits_iff] at h
  have hnegation : i.negation = j.negation := by
    -- Of two lists with different signs, what is in neither is taken once.
    obtain ⟨p, hp⟩ := (IriSet.ofList (i.properties.toList ++ j.properties.toList)).exists_not_mem
    rw [IriSet.mem_ofList, List.mem_append, not_or] at hp
    have hi : p ∉ i.properties := hp.1
    have hj : p ∉ j.properties := hp.2
    have hsign := h p
    rw [iff_false_left hi, iff_false_left hj, Bool.not_eq_false, Bool.not_eq_false] at hsign
    exact Bool.eq_iff_iff.mpr hsign
  have hproperties : i.properties = j.properties := by
    refine IriSet.ext fun p => ?_
    have hp := h p
    rw [hnegation] at hp
    cases hj : j.negation
    · simpa [hj] using hp
    · simpa [hj, not_iff_not] using hp
  exact eq_iff.mpr (PropertySet.ext hproperties hinverse hnegation)

/-- An edge between two nodes. -/
def edge (p : Iri) : Triple := ⟨.blank "a", p, .blank "b"⟩

/-- From where to where the edge is taken. -/
def edgeEnds : Bool → Term × Term
  | false => (.blank "a", .blank "b")
  | true => (.blank "b", .blank "a")

theorem edgeEnds_injective : Function.Injective edgeEnds := by decide

theorem connects_edge :
    i.Connects {t | t ∈ [edge p]} x y ↔ i.admits p = true ∧ edgeEnds i.inverse = (x, y) := by
  rw [PropertySet.admits_iff]
  constructor
  · rintro ⟨t, ht, hadmits, hends⟩
    obtain rfl := List.mem_singleton.mp ht
    refine ⟨hadmits, ?_⟩
    cases hinverse : i.inverse <;> rw [hinverse] at hends <;> exact Prod.ext hends.1 hends.2
  · rintro ⟨hadmits, hends⟩
    refine ⟨edge p, List.mem_singleton_self _, hadmits, ?_⟩
    cases hinverse : i.inverse <;> rw [hinverse] at hends <;> cases hends <;> exact ⟨rfl, rfl⟩

/-- Instructions that connect the same nodes in every graph of one edge are the same. -/
theorem eq_of_connects
    (h : ∀ p x y, i.Connects {t | t ∈ [edge p]} x y ↔ j.Connects {t | t ∈ [edge p]} x y) :
    i = j := by
  simp only [connects_edge] at h
  have hinverse : i.inverse = j.inverse := by
    -- Any edge that is taken shows the direction, as its ends are different nodes.
    obtain ⟨p, hp⟩ := i.exists_admits
    have hends := ((h p _ _).mp ⟨hp, rfl⟩).2
    exact edgeEnds_injective hends.symm
  refine eq_of_admits hinverse fun p => ?_
  have hp := h p (edgeEnds i.inverse).1 (edgeEnds i.inverse).2
  rw [hinverse] at hp
  simpa using hp

theorem single?_eq_some_iff :
    i.single? = some p ↔ i.toPropertySet = ⟨.ofList [p], i.inverse, false⟩ := by
  constructor
  · intro h
    rw [single?] at h
    split at h
    · next q hlist =>
        split at h
        · cases h
        · next hnegation =>
            cases h
            rw [← hlist, IriSet.ofList_toList, ← Bool.eq_false_of_not_eq_true hnegation]
    · cases h
  · intro h
    have hproperties := congrArg PropertySet.properties h
    have hnegation := congrArg PropertySet.negation h
    rw [single?, hproperties, hnegation]
    rfl

/-- An instruction has a single property exactly when it takes the edges of this predicate, in its
direction, and no others. -/
theorem single?_eq_some_iff_connects : i.single? = some p ↔
    ∀ (ts : List Triple) x y, i.Connects {t | t ∈ ts} x y ↔ ∃ t ∈ ts, t.predicate = p ∧
      if i.inverse then t.object = x ∧ t.subject.toTerm = y
        else t.subject.toTerm = x ∧ t.object = y := by
  -- The rule on the right is that of another instruction.
  let j : Instruction := ⟨⟨.ofList [p], i.inverse, false⟩, List.cons_ne_nil _ _⟩
  have hrule (ts : List Triple) (x y : Term) :
      j.Connects {t | t ∈ ts} x y ↔ ∃ t ∈ ts, t.predicate = p ∧
      if i.inverse then t.object = x ∧ t.subject.toTerm = y
        else t.subject.toTerm = x ∧ t.object = y := by
    simp [j, Connects]
  rw [single?_eq_some_iff]
  constructor
  · intro h ts x y
    rw [← hrule, eq_iff.mpr (show i.toPropertySet = j.toPropertySet from h)]
  · intro h
    have hij : i = j := eq_of_connects fun q x y => (h [edge q] x y).trans (hrule [edge q] x y).symm
    exact congrArg toPropertySet hij

/-- The pairs of a hop of one instruction are those that the instruction connects. -/
theorem result_joinedPairs_single (g : TripleStore) (context : CallContext)
    (i : Instruction) (k : Nat) :
    let hop := joinedPairs g.toService context (.var Search.originVariable) [[i]]
    ∃ pairs, (hop k).result = .ok pairs ∧
      ∀ x y, (x, y) ∈ pairs ↔ i.Connects {t | t ∈ g.triples} x y := by
  intro hop
  have hreturns : hop.Returns _ :=
    returns_distinct_joinedPairs g.serves
      (not_isFresh_of_var_eq (Search.not_isFresh_originVariable 0)) (by simp)
  obtain ⟨pairs, hresult, _, _, hmem⟩ := hreturns k
  refine ⟨pairs, hresult, fun x y => ?_⟩
  rw [hmem]
  simp [chainConnects_cons, chainConnects_nil]

/-- Two lists with flags make the same instruction exactly when the instructions connect the same
nodes in every graph, and exactly when the flags are the same and the lists have the same members.
The instruction is that of the property set of the list, too, and its listing is any ordered listing
without what is repeated. It has a single property exactly when it takes the edges of one predicate,
in its direction. A hop over it tells the nodes that it connects. -/
theorem ofList_canonical {ps qs : List Iri}
    {inverse inverse' negation negation' : Bool} {i j : Instruction}
    (hi : ofList ps inverse negation = .ok i) (hj : ofList qs inverse' negation' = .ok j) :
    (i = j ↔ ∀ (ts : List Triple) x y, i.Connects {t | t ∈ ts} x y ↔ j.Connects {t | t ∈ ts} x y) ∧
    (i = j ↔ inverse = inverse' ∧ negation = negation' ∧ ∀ p, p ∈ ps ↔ p ∈ qs) ∧
    (ofSet ⟨.ofList ps, inverse, negation⟩ = .ok i ∧
      ofList (IriSet.ofList ps).toList inverse negation = .ok i ∧
      ∀ sorted : List Iri, sorted.Perm ps → (sorted.Pairwise fun p q => ¬ q < p) →
        i.properties.toList = sorted.destutter (· ≠ ·)) ∧
    (∀ p, i.single? = some p ↔ ∀ (ts : List Triple) x y, i.Connects {t | t ∈ ts} x y ↔
      ∃ t ∈ ts, t.predicate = p ∧
        if inverse then t.object = x ∧ t.subject.toTerm = y
          else t.subject.toTerm = x ∧ t.object = y) ∧
    ∀ (g : TripleStore) context k,
      let hop := joinedPairs g.toService context (.var Search.originVariable) [[i]]
      ∃ pairs, (hop k).result = .ok pairs ∧
        ∀ x y, (x, y) ∈ pairs ↔ i.Connects {t | t ∈ g.triples} x y := by
  have hiset := ofList_eq_ok_iff.mp hi
  have hjset := ofList_eq_ok_iff.mp hj
  refine ⟨⟨?_, fun h => eq_of_connects fun p => h [edge p]⟩, ?_, ⟨hi, ?_, ?_⟩, ?_, ?_⟩
  · rintro rfl ts x y
    exact Iff.rfl
  · rw [eq_iff, hiset, hjset, PropertySet.mk.injEq, IriSet.ofList_eq_iff]
    exact ⟨fun ⟨hmem, hflags⟩ => ⟨hflags.1, hflags.2, hmem⟩, fun ⟨hinverse, hnegation, hmem⟩ =>
      ⟨hmem, hinverse, hnegation⟩⟩
  · rw [ofList, IriSet.ofList_toList]
    exact hi
  · intro sorted hperm hsorted
    rw [hiset]
    exact IriSet.toList_ofList_eq_destutter hperm hsorted
  · have hinverse : i.inverse = inverse := congrArg PropertySet.inverse hiset
    rw [← hinverse]
    exact fun p => single?_eq_some_iff_connects
  · exact fun g context => result_joinedPairs_single g context i

/-- Order and repetition make no other instruction, one predicate less does, and some graph shows
it. -/
theorem ofList_canonical_reordered :
    ∃ i j, ofList [⟨"p"⟩, ⟨"q"⟩, ⟨"p"⟩] true true = .ok i ∧
    ofList [⟨"q"⟩, ⟨"p"⟩] true true = .ok i ∧
      ofList [⟨"p"⟩] true true = .ok j ∧
      ∃ (ts : List Triple) (x y : Term), ¬ (i.Connects {t | t ∈ ts} x y ↔
        j.Connects {t | t ∈ ts} x y) := by
  let i : Instruction :=
    ⟨⟨.ofList [⟨"p"⟩, ⟨"q"⟩, ⟨"p"⟩], true, true⟩, IriSet.toList_ofList_ne_nil nofun⟩
  let i' : Instruction := ⟨⟨.ofList [⟨"q"⟩, ⟨"p"⟩], true, true⟩, IriSet.toList_ofList_ne_nil nofun⟩
  let j : Instruction := ⟨⟨.ofList [⟨"p"⟩], true, true⟩, List.cons_ne_nil _ _⟩
  have hi : ofList [⟨"p"⟩, ⟨"q"⟩, ⟨"p"⟩] true true = .ok i := ofList_eq_ok_iff.mpr rfl
  have hi' : ofList [⟨"q"⟩, ⟨"p"⟩] true true = .ok i' := ofList_eq_ok_iff.mpr rfl
  have hj : ofList [⟨"p"⟩] true true = .ok j := ofList_eq_ok_iff.mpr rfl
  have hsame : i = i' := (ofList_canonical hi hi').2.1.mpr ⟨rfl, rfl, fun p => by simp [or_comm]⟩
  have hother : i ≠ j := by
    rw [Ne, (ofList_canonical hi hj).2.1]
    rintro ⟨_, _, hmem⟩
    exact absurd ((hmem ⟨"q"⟩).mp (by simp)) (by simp)
  rw [Ne, (ofList_canonical hi hj).1] at hother
  simp only [not_forall] at hother
  exact ⟨i, j, hi, hsame ▸ hi', hj, hother⟩

end Instruction

end PropertyPath
