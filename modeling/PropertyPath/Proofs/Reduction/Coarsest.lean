import Mathlib.Logic.Function.Iterate
import PropertyPath.Proofs.Reduction.Bisimulation

/-!
# The blocks are the classes of bisimilar states

No bisimulation relates states that a round of the refinement keeps apart, and the last round leaves
blocks whose states are related by a bisimulation. So states are merged exactly if they are
bisimilar. A bisimulation between merged states is one between the states that they stand for, and
there is nothing left to merge.
-/
namespace PropertyPath

namespace Partition
variable {states : List State} {p q : Partition} {related : State → State → Bool}

/-- Each state is listed with a state of the smallest name in its block. -/
def Least (states : List State) (p : Partition) : Prop :=
  ∀ s ∈ states, ∀ t ∈ states, p.first s.name = p.first t.name → p.first s.name ≤ t.name

theorem least_ofRelation (hstates : State.Proper states)
    (h : Equivalence fun s t => related s t = true) : (ofRelation states related).Least states := by
  intro s hs t ht hst
  obtain ⟨r, _, hfirst, hfind, _⟩ := related_first hstates h hs
  obtain ⟨_, before, after, hsplit, hbefore⟩ := List.find?_eq_some_iff_append.mp hfind
  have hrelated := (first_eq_iff hstates h hs ht).mp hst
  have hascending := hstates.ascending
  rw [hsplit, List.pairwise_append, List.pairwise_cons] at hascending
  rw [hsplit] at ht
  rw [hfirst]
  rcases List.mem_append.mp ht with ht | ht
  · have hnot := hbefore t ht
    rw [hrelated] at hnot
    cases hnot
  · rcases List.mem_cons.mp ht with rfl | ht
    · exact Nat.le_refl _
    · exact Nat.le_of_lt (hascending.2.1.1 t ht)

/-- States that are related are not kept apart. -/
def Respects (states : List State) (p : Partition) (R : StateName → StateName → Prop) : Prop :=
  ∀ s ∈ states, ∀ t ∈ states, R s.name t.name → p.first s.name = p.first t.name

end Partition

namespace Automaton
variable {a : Automaton} {R : StateName → StateName → Prop}

/-- States that are related agree on being initial and on being final, and each of them answers
every transition of the other one by a transition with the same label into a state that is
related. -/
structure IsBisimulation (a : Automaton) (R : StateName → StateName → Prop) : Prop where
  flags : ∀ s ∈ a.states, ∀ t ∈ a.states, R s.name t.name →
    s.isInitial = t.isInitial ∧ s.isFinal = t.isFinal
  forth :
      ∀ p q, R p q → ∀ u ∈ a.outgoing p, ∃ v ∈ a.outgoing q, v.label = u.label ∧ R u.target v.target
  back :
      ∀ p q, R p q → ∀ v ∈ a.outgoing q, ∃ u ∈ a.outgoing p, u.label = v.label ∧ R u.target v.target

def Bisimilar (a : Automaton) (s t : State) : Prop := ∃ R, a.IsBisimulation R ∧ R s.name t.name

section respects
variable (h : a.validate = .ok ()) (hR : a.IsBisimulation R)
include h hR

theorem IsBisimulation.respects_flags :
    (Partition.ofRelation a.states State.sameFlags).Respects a.states R := by
  intro s hs t ht hst
  have hstates := (validate_eq_ok_iff.mp h).1
  apply (Partition.first_eq_iff hstates State.sameFlags_equivalence hs ht).mpr
  exact State.sameFlags_iff.mpr (hR.flags s hs t ht hst)

/-- What a bisimulation relates cannot be told apart by one step more. -/
theorem IsBisimulation.respects_refine {p : Partition} (hp : p.Respects a.states R) :
    (a.refine p).Respects a.states R := by
  intro s hs t ht hst
  obtain ⟨hstates, htransitions⟩ := validate_eq_ok_iff.mp h
  have hsame {u v : Transition} (hu : u ∈ a.transitions) (hv : v ∈ a.transitions)
      (huv : R u.target v.target) : p.first u.target = p.first v.target := by
    obtain ⟨x, hx, hxname⟩ := (htransitions u hu).target
    obtain ⟨y, hy, hyname⟩ := (htransitions v hv).target
    rw [← hxname, ← hyname] at huv ⊢
    exact hp x hx y hy huv
  apply (Partition.first_eq_iff hstates alike_equivalence hs ht).mpr
  refine alike_iff.mpr ⟨hp s hs t ht hst, answered_iff.mpr ?_, answered_iff.mpr ?_⟩
  · intro u hu hsource
    obtain ⟨v, hv, hlabel, huv⟩ := hR.forth _ _ hst u (mem_outgoing.mpr ⟨hu, hsource⟩)
    obtain ⟨hv, hsource'⟩ := mem_outgoing.mp hv
    exact ⟨v, hv, hsource', hlabel.symm, hsame hu hv huv⟩
  · intro v hv hsource
    obtain ⟨u, hu, hlabel, huv⟩ := hR.back _ _ hst v (mem_outgoing.mpr ⟨hv, hsource⟩)
    obtain ⟨hu, hsource'⟩ := mem_outgoing.mp hu
    exact ⟨u, hu, hsource', hlabel.symm, (hsame hu hv huv).symm⟩

theorem IsBisimulation.respects_refineFor (rounds : Nat) {p : Partition}
    (hp : p.Respects a.states R) :
    (a.refineFor rounds p).Respects a.states R := by
  induction rounds generalizing p with
  | zero => exact hp
  | succ rounds ih =>
      have hq := hR.respects_refine h hp
      rw [refineFor]
      split
      · exact hq
      · exact ih hq

end respects

theorem least_refineFor (h : a.validate = .ok ()) (rounds : Nat) {p : Partition}
    (hp : p.Least a.states) :
    (a.refineFor rounds p).Least a.states := by
  induction rounds generalizing p with
  | zero => exact hp
  | succ rounds ih =>
      have hq : (a.refine p).Least a.states :=
        Partition.least_ofRelation (validate_eq_ok_iff.mp h).1 alike_equivalence
      rw [refineFor]
      split
      · exact hq
      · exact ih hq

section blocks
variable (h : a.validate = .ok ())
include h

/-- Being in one block is a bisimulation. -/
theorem isBisimulation_blocks : a.IsBisimulation fun p q =>
    ∃ s ∈ a.states, ∃ t ∈ a.states, s.name = p ∧ t.name = q ∧
    a.blocks.first p = a.blocks.first q := by
  obtain ⟨hstates, htransitions⟩ := validate_eq_ok_iff.mp h
  obtain ⟨hstable, hflags⟩ := blocks_spec h
  have hanswers {s t : State} (hs : s ∈ a.states) (ht : t ∈ a.states)
      (hst : a.blocks.first s.name = a.blocks.first t.name) {u : Transition}
      (hu : u ∈ a.outgoing s.name) : ∃ v ∈ a.outgoing t.name, v.label = u.label ∧
        ∃ x ∈ a.states, ∃ y ∈ a.states, x.name = u.target ∧ y.name = v.target ∧
          a.blocks.first u.target = a.blocks.first v.target := by
    obtain ⟨hu, hsource⟩ := mem_outgoing.mp hu
    obtain ⟨v, hv, hsource', hlabel, hfirst⟩ :=
      answered_iff.mp (hstable.answers s hs t ht hst) u hu hsource
    obtain ⟨x, hx, hxname⟩ := (htransitions u hu).target
    obtain ⟨y, hy, hyname⟩ := (htransitions v hv).target
    exact ⟨v, mem_outgoing.mpr ⟨hv, hsource'⟩, hlabel.symm, x, hx, y, hy, hxname, hyname, hfirst⟩
  constructor
  · rintro s hs t ht ⟨_, _, _, _, _, _, hst⟩
    exact State.sameFlags_iff.mp (hflags s hs t ht hst)
  · rintro _ _ ⟨s, hs, t, ht, rfl, rfl, hst⟩ u hu
    exact hanswers hs ht hst hu
  · rintro _ _ ⟨s, hs, t, ht, rfl, rfl, hst⟩ v hv
    obtain ⟨u, hu, hlabel, y, hy, x, hx, hyname, hxname, hfirst⟩ := hanswers ht hs hst.symm hv
    exact ⟨u, hu, hlabel, x, hx, y, hy, hxname, hyname, hfirst.symm⟩

/-- Two states are in one block exactly if they are bisimilar. -/
theorem first_eq_iff_bisimilar {s t : State} (hs : s ∈ a.states) (ht : t ∈ a.states) :
    a.blocks.first s.name = a.blocks.first t.name ↔ a.Bisimilar s t := by
  constructor
  · intro hst
    exact ⟨_, isBisimulation_blocks h, s, hs, t, ht, rfl, rfl, hst⟩
  · rintro ⟨R, hR, hst⟩
    exact hR.respects_refineFor h a.states.length (hR.respects_flags h) s hs t ht hst

/-- Bisimilar states are merged into the one that has the smallest name. -/
theorem exists_representative {s : State} (hs : s ∈ a.states) :
    ∃ r ∈ a.quotient.states, r.name = a.blocks.first s.name ∧ a.Bisimilar s r ∧
      ∀ t ∈ a.states, a.Bisimilar s t → r.name ≤ t.name := by
  have hstates := (validate_eq_ok_iff.mp h).1
  obtain ⟨r, hr, hname, _⟩ := first_spec h hs
  obtain ⟨hmem, hfirst⟩ := mem_quotient_states.mp hr
  have hleast : a.blocks.Least a.states :=
    least_refineFor h a.states.length
      (Partition.least_ofRelation hstates State.sameFlags_equivalence)
  refine ⟨r, hr, hname, (first_eq_iff_bisimilar h hs hmem).mp (hname.symm.trans hfirst.symm), ?_⟩
  intro t ht hst
  rw [hname]
  exact hleast s hs t ht ((first_eq_iff_bisimilar h hs ht).mpr hst)

theorem exists_image_of_outgoing {s : State} (hs : s ∈ a.states) {u : Transition}
    (hu : u ∈ a.quotient.outgoing (a.blocks.first s.name)) :
    ∃ v ∈ a.outgoing s.name, v.label = u.label ∧ a.blocks.first v.target = u.target := by
  obtain ⟨hstable, _⟩ := blocks_spec h
  obtain ⟨hu, hsource⟩ := mem_outgoing.mp hu
  obtain ⟨t, ht, rfl⟩ := mem_quotient_transitions.mp hu
  obtain ⟨r, hr, hname⟩ := ((validate_eq_ok_iff.mp h).2 t ht).source
  have hsame : a.blocks.first r.name = a.blocks.first s.name := hname ▸ hsource
  obtain ⟨v, hv, hsource', hlabel, hfirst⟩ :=
    answered_iff.mp (hstable.answers r hr s hs hsame) t ht hname.symm
  exact ⟨v, mem_outgoing.mpr ⟨hv, hsource'⟩, hlabel.symm, hfirst.symm⟩

/-- A bisimulation between merged states relates the states that they stand for. -/
theorem IsBisimulation.of_quotient (hR : a.quotient.IsBisimulation R) : a.IsBisimulation fun p q =>
    ∃ s ∈ a.states, ∃ t ∈ a.states, s.name = p ∧ t.name = q ∧
    R (a.blocks.first p) (a.blocks.first q) := by
  have htransitions := (validate_eq_ok_iff.mp h).2
  have himage {s : State} {u : Transition} (hu : u ∈ a.outgoing s.name) :
      Partition.image a.blocks u ∈ a.quotient.outgoing (a.blocks.first s.name) := by
    obtain ⟨hu, hsource⟩ := mem_outgoing.mp hu
    exact mem_outgoing.mpr ⟨mem_quotient_transitions.mpr ⟨u, hu, rfl⟩,
      congrArg a.blocks.first hsource⟩
  have htarget {s : State} {u : Transition} (hu : u ∈ a.outgoing s.name) :
      ∃ x ∈ a.states, x.name = u.target := (htransitions u (mem_outgoing.mp hu).1).target
  constructor
  · rintro s hs t ht ⟨_, _, _, _, _, _, hst⟩
    obtain ⟨x, hx, hxname, hxflags⟩ := first_spec h hs
    obtain ⟨y, hy, hyname, hyflags⟩ := first_spec h ht
    rw [← hxname, ← hyname] at hst
    obtain ⟨hinitial, hfinal⟩ := hR.flags x hx y hy hst
    obtain ⟨hxinitial, hxfinal⟩ := State.sameFlags_iff.mp hxflags
    obtain ⟨hyinitial, hyfinal⟩ := State.sameFlags_iff.mp hyflags
    exact ⟨(hxinitial.trans hinitial).trans hyinitial.symm,
      (hxfinal.trans hfinal).trans hyfinal.symm⟩
  · rintro _ _ ⟨s, hs, t, ht, rfl, rfl, hst⟩ u hu
    obtain ⟨w, hw, hlabel, huw⟩ := hR.forth _ _ hst _ (himage hu)
    obtain ⟨v, hv, hlabel', hfirst⟩ := exists_image_of_outgoing h ht hw
    obtain ⟨x, hx, hxname⟩ := htarget hu
    obtain ⟨y, hy, hyname⟩ := htarget hv
    exact ⟨v, hv, hlabel'.trans hlabel, x, hx, y, hy, hxname, hyname, hfirst ▸ huw⟩
  · rintro _ _ ⟨s, hs, t, ht, rfl, rfl, hst⟩ v hv
    obtain ⟨w, hw, hlabel, hwv⟩ := hR.back _ _ hst _ (himage hv)
    obtain ⟨u, hu, hlabel', hfirst⟩ := exists_image_of_outgoing h hs hw
    obtain ⟨x, hx, hxname⟩ := htarget hu
    obtain ⟨y, hy, hyname⟩ := htarget hv
    exact ⟨u, hu, hlabel'.trans hlabel, x, hx, y, hy, hxname, hyname, hfirst ▸ hwv⟩

/-- When states have been merged, no two of those that are left are bisimilar. -/
theorem eq_of_bisimilar_quotient {s t : State} (hs : s ∈ a.quotient.states)
    (ht : t ∈ a.quotient.states)
    (hst : a.quotient.Bisimilar s t) : s = t := by
  obtain ⟨hs, hsfirst⟩ := mem_quotient_states.mp hs
  obtain ⟨ht, htfirst⟩ := mem_quotient_states.mp ht
  obtain ⟨R, hR, hst⟩ := hst
  rw [← hsfirst, ← htfirst] at hst
  have hbisimilar : a.Bisimilar s t := ⟨_, hR.of_quotient h, s, hs, t, ht, rfl, rfl, hst⟩
  have hfirst := (first_eq_iff_bisimilar h hs ht).mpr hbisimilar
  rw [hsfirst, htfirst] at hfirst
  exact (validate_eq_ok_iff.mp h).1.name_inj hs ht hfirst

end blocks

section rounds

/-- When a partition is refined, the number of blocks changes in each of the first `n` rounds, and
stays the same in the round after them. -/
structure StopsAfter (a : Automaton) (p : Partition) (n : Nat) : Prop where
  changes : ∀ k < n, (a.refine^[k + 1] p).count ≠ (a.refine^[k] p).count
  stays : (a.refine^[n + 1] p).count = (a.refine^[n] p).count

theorem exists_stopsAfter (h : a.validate = .ok ()) (rounds : Nat) {p : Partition}
    (hp : p.Sorts a.states) (hrounds : a.states.length < rounds + p.count) :
    ∃ n < rounds, a.StopsAfter p n ∧ a.refineFor rounds p = a.refine^[n + 1] p := by
  induction rounds generalizing p with
  | zero =>
      have hle := hp.count_le
      omega
  | succ rounds ih =>
      have hq : (a.refine p).Sorts a.states :=
        Partition.sorts_ofRelation (validate_eq_ok_iff.mp h).1 alike_equivalence
      rw [refineFor]
      split
      · next hcount =>
          exact ⟨0, Nat.succ_pos rounds, ⟨fun _ hk => absurd hk (Nat.not_lt_zero _), hcount⟩, rfl⟩
      · next hcount =>
          have hle := Partition.count_le_of_refines hp hq (refine_refines h)
          obtain ⟨n, hn, ⟨hchanges, hstays⟩, heq⟩ := ih hq (by omega)
          refine ⟨n + 1, Nat.succ_lt_succ hn, ⟨?_, hstays⟩, heq⟩
          intro k hk
          cases k with
          | zero => exact hcount
          | succ k => exact hchanges k (Nat.lt_of_succ_lt_succ hk)

end rounds

/-- States of a valid automaton are merged exactly if they are bisimilar, into the one with the
smallest name, and no two bisimilar states are left. The transitions are moved to the merged states,
and each of them is listed once, where it appears first. The refinement takes no more rounds than
there are states. -/
theorem mergeStates_bisimilar {states : List State} {ts : List Transition} {a : Automaton}
    (h : make states ts = .ok a) :
    ∃ b, a.mergeStates = .ok b ∧
      (∀ s ∈ a.states, ∀ t ∈ a.states,
        a.blocks.first s.name = a.blocks.first t.name ↔ a.Bisimilar s t) ∧
      (∀ r, r ∈ b.states ↔ r ∈ a.states ∧ a.blocks.first r.name = r.name) ∧
      (∀ s ∈ a.states, ∃ r ∈ b.states, r.name = a.blocks.first s.name ∧ a.Bisimilar s r ∧
        ∀ t ∈ a.states, a.Bisimilar s t → r.name ≤ t.name) ∧
      (∀ s ∈ b.states, ∀ t ∈ b.states, b.Bisimilar s t → s = t) ∧
      FirstAppearances b.transitions (a.transitions.map fun t =>
        t.between (a.blocks.first t.source) (a.blocks.first t.target)) ∧
      let p := Partition.ofRelation a.states State.sameFlags
      ∃ n < a.states.length, a.StopsAfter p n ∧ a.blocks = a.refine^[n + 1] p := by
  have hvalid := validate_of_make h
  have hstates := (validate_eq_ok_iff.mp hvalid).1
  refine ⟨a.quotient, (mergeStates_reduct hvalid).1, ?_,
    fun r => mem_quotient_states, ?_, ?_, ?_, ?_⟩
  · exact fun s hs t ht => first_eq_iff_bisimilar hvalid hs ht
  · exact fun s hs => exists_representative hvalid hs
  · exact fun s hs t ht => eq_of_bisimilar_quotient hvalid hs ht
  · exact firstAppearances_eraseDups _
  · intro p
    have hp : p.Sorts a.states := Partition.sorts_ofRelation hstates State.sameFlags_equivalence
    obtain ⟨s, hs, _⟩ := hstates.mem_start
    have hpos := hp.count_pos hs
    exact exists_stopsAfter hvalid a.states.length hp (by omega)

/-- Two states go round in a circle over a closure and an edge, and a third one goes round alone.
The closure of another kind keeps a fourth one apart. -/
theorem mergeStates_bisimilar_of_circles :
    let p : Instruction := .forward ⟨"p"⟩
    let nested : Automaton := ⟨[⟨0, true, false⟩, ⟨1, false, true⟩], [⟨0, 1, .property p⟩]⟩
    let states : List State :=
      [⟨0, true, false⟩, ⟨1, false, true⟩, ⟨2, false, true⟩, ⟨3, false, true⟩, ⟨5, false, true⟩]
    let ts : List Transition := [⟨0, 1, .property p⟩, ⟨0, 3, .property p⟩, ⟨0, 5, .sequence [p]⟩,
      ⟨1, 2, .closure .oneOrMore nested⟩, ⟨2, 1, .closure .oneOrMore nested⟩,
      ⟨3, 3, .closure .oneOrMore nested⟩, ⟨5, 3, .closure .zeroOrMore nested⟩]
    let a : Automaton := ⟨states, ts⟩
    make states ts = .ok a ∧ a.blocks = [(0, 0), (1, 1), (2, 1), (3, 1), (5, 5)] ∧
      ∃ b, a.mergeStates = .ok b ∧
        (∀ s ∈ a.states, ∀ t ∈ a.states,
          a.blocks.first s.name = a.blocks.first t.name ↔ a.Bisimilar s t) ∧
        (∀ r, r ∈ b.states ↔ r ∈ a.states ∧ a.blocks.first r.name = r.name) ∧
        (∀ s ∈ a.states, ∃ r ∈ b.states, r.name = a.blocks.first s.name ∧ a.Bisimilar s r ∧
          ∀ t ∈ a.states, a.Bisimilar s t → r.name ≤ t.name) ∧
        (∀ s ∈ b.states, ∀ t ∈ b.states, b.Bisimilar s t → s = t) ∧
        FirstAppearances b.transitions (a.transitions.map fun t =>
          t.between (a.blocks.first t.source) (a.blocks.first t.target)) ∧
        let q := Partition.ofRelation a.states State.sameFlags
        ∃ n < a.states.length, a.StopsAfter q n ∧ a.blocks = a.refine^[n + 1] q := by
  intro p nested states ts a
  have h : make states ts = .ok a := rfl
  exact ⟨h, by decide +kernel, mergeStates_bisimilar h⟩

end Automaton

end PropertyPath
