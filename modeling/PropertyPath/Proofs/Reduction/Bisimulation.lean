import Mathlib.Data.Finset.Card
import Mathlib.Data.Finset.Dedup
import PropertyPath.Proofs.Automaton.Condensed
import PropertyPath.Proofs.Reduction.Reduct
import PropertyPath.Proofs.Repeats
import PropertyPath.Reduction.Bisimulation

/-!
# Merging states alike keeps the relation

A refinement that adds no block tells no more states apart than the partition before it, and then
every block answers for all of its states. Each refinement but the last adds a block, so there are
enough rounds to get there. In a partition of that kind a run can be followed from any state of the
block that it starts in.
-/
namespace PropertyPath

namespace Partition
variable {states : List State} {p q : Partition} {related : State → State → Bool}

/-- The first states of the blocks, by name. -/
def firsts (states : List State) (p : Partition) : Finset StateName :=
  (states.map fun s => p.first s.name).toFinset

theorem mem_firsts {n : StateName} :
    n ∈ p.firsts states ↔ ∃ s ∈ states, p.first s.name = n := by
  rw [firsts, List.mem_toFinset, List.mem_map]

/-- Each state is listed with a state of its own block, and the blocks are counted. -/
structure Sorts (states : List State) (p : Partition) : Prop where
  first : ∀ s ∈ states, ∃ t ∈ states, t.name = p.first s.name ∧ p.first t.name = p.first s.name
  count : p.count = (p.firsts states).card

theorem Sorts.count_le (h : p.Sorts states) : p.count ≤ states.length := by
  rw [h.count, ← List.length_map fun s => p.first s.name]
  exact List.toFinset_card_le _

theorem Sorts.count_pos (h : p.Sorts states) {s : State} (hs : s ∈ states) : 0 < p.count := by
  rw [h.count]
  exact Finset.card_pos.mpr ⟨p.first s.name, mem_firsts.mpr ⟨s, hs, rfl⟩⟩

/-- What `p` keeps apart `q` keeps apart as well. -/
def Refines (states : List State) (q p : Partition) : Prop :=
  ∀ s ∈ states, ∀ t ∈ states, q.first s.name = q.first t.name → p.first s.name = p.first t.name

theorem image_firsts (hq : q.Sorts states) (h : q.Refines states p) :
    (q.firsts states).image p.first = p.firsts states := by
  ext n
  simp only [Finset.mem_image, mem_firsts, exists_exists_and_eq_and]
  apply exists_congr
  intro s
  apply and_congr_right
  intro hs
  obtain ⟨t, ht, hname, hfirst⟩ := hq.first s hs
  rw [← hname, h t ht s hs hfirst]

theorem count_le_of_refines (hp : p.Sorts states) (hq : q.Sorts states)
    (h : q.Refines states p) : p.count ≤ q.count := by
  rw [hp.count, hq.count, ← image_firsts hq h]
  exact Finset.card_image_le

/-- A refinement with no more blocks keeps no more apart. -/
theorem refines_of_count_eq (hp : p.Sorts states) (hq : q.Sorts states)
    (h : q.Refines states p) (hcount : q.count = p.count) : p.Refines states q := by
  have hinj : Set.InjOn p.first (q.firsts states) := by
    apply Finset.injOn_of_card_image_eq
    rw [image_firsts hq h, ← hp.count, ← hq.count, hcount]
  intro s hs t ht hst
  obtain ⟨s', hs', hname, hfirst⟩ := hq.first s hs
  obtain ⟨t', ht', hname', hfirst'⟩ := hq.first t ht
  apply hinj (mem_firsts.mpr ⟨s, hs, rfl⟩) (mem_firsts.mpr ⟨t, ht, rfl⟩)
  rw [← hname, ← hname', h s' hs' s hs hfirst, h t' ht' t ht hfirst', hst]

theorem lookup_name {f : State → StateName} {s : State} (hs : s ∈ states)
    (hname : ∀ t ∈ states, t.name = s.name → t = s) :
    (states.map fun t => (t.name, f t)).lookup s.name = some (f s) := by
  induction states with
  | nil => cases hs
  | cons t ts ih =>
      rw [List.map_cons, List.lookup_cons]
      split
      · next heq =>
          rw [hname t List.mem_cons_self (beq_iff_eq.mp heq).symm]
      · next hne =>
          have hst : s ≠ t := fun hst => by simp [hst] at hne
          have hts := List.mem_of_ne_of_mem hst hs
          exact ih hts fun u hu => hname u (List.mem_cons_of_mem t hu)

section ofRelation
variable (hstates : State.Proper states) (h : Equivalence fun s t => related s t = true)
include hstates h

/-- A state is listed with a state that it is related to. -/
theorem related_first {s : State} (hs : s ∈ states) :
    ∃ t ∈ states, (ofRelation states related).first s.name = t.name ∧
      states.find? (related s) = some t ∧ related s t = true := by
  have hsome : (states.find? (related s)).isSome = true := by
    rw [List.find?_isSome]
    exact ⟨s, hs, h.refl s⟩
  obtain ⟨t, ht⟩ := Option.isSome_iff_exists.mp hsome
  refine ⟨t, List.mem_of_find?_eq_some ht, ?_, ht, List.find?_some ht⟩
  have hname : ∀ u ∈ states, u.name = s.name → u = s := fun u hu => hstates.name_inj hu hs
  rw [first, ofRelation, lookup_name hs hname, ht]
  rfl

theorem first_eq_iff {s t : State} (hs : s ∈ states) (ht : t ∈ states) :
    (ofRelation states related).first s.name = (ofRelation states related).first t.name ↔
      related s t = true := by
  obtain ⟨s', hs', hfirst, hfind, hrelated⟩ := related_first hstates h hs
  obtain ⟨t', ht', hfirst', hfind', hrelated'⟩ := related_first hstates h ht
  rw [hfirst, hfirst']
  constructor
  · intro hname
    rw [hstates.name_inj hs' ht' hname] at hrelated
    exact h.trans hrelated (h.symm hrelated')
  · intro hst
    have hsame : related s = related t := by
      funext u
      rw [Bool.eq_iff_iff]
      exact ⟨h.trans (h.symm hst), h.trans hst⟩
    rw [hsame, hfind'] at hfind
    rw [Option.some.inj hfind]

theorem sorts_ofRelation : (ofRelation states related).Sorts states where
  first s hs := by
    obtain ⟨t, ht, hfirst, _, hrelated⟩ := related_first hstates h hs
    exact ⟨t, ht, hfirst.symm, ((first_eq_iff hstates h hs ht).mpr hrelated).symm⟩
  count := by
    have hseconds : (ofRelation states related).map (·.2) =
        states.map fun s => (ofRelation states related).first s.name := by
      rw [ofRelation, List.map_map]
      apply List.map_congr_left
      intro s hs
      obtain ⟨t, _, hfirst, hfind, _⟩ := related_first hstates h hs
      rw [← ofRelation, hfirst]
      simp [hfind]
    rw [count, firsts, hseconds, ← List.toFinset_card_of_nodup (nodup_eraseDups _)]
    congr 1
    ext n
    simp [List.mem_eraseDups]

end ofRelation

end Partition

namespace State

theorem sameFlags_iff {s t : State} :
    s.sameFlags t = true ↔ s.isInitial = t.isInitial ∧ s.isFinal = t.isFinal := by
  simp [sameFlags]

theorem sameFlags_equivalence : Equivalence fun s t : State => s.sameFlags t = true := by
  simp only [sameFlags_iff]
  exact ⟨fun _ => ⟨rfl, rfl⟩, fun h => ⟨h.1.symm, h.2.symm⟩,
    fun h h' => ⟨h.1.trans h'.1, h.2.trans h'.2⟩⟩

end State

namespace Automaton
variable {a : Automaton} {p : Partition}

theorem answered_iff {s t : StateName} :
    a.answered p s t = true ↔ ∀ u ∈ a.transitions, u.source = s →
      ∃ v ∈ a.transitions, v.source = t ∧ u.label = v.label ∧
        p.first u.target = p.first v.target := by
  simp [answered, outgoing, imp_iff_not_or]

theorem answered_refl (s : StateName) : a.answered p s s = true :=
  answered_iff.mpr fun u hu hsource => ⟨u, hu, hsource, rfl, rfl⟩

theorem answered_trans {s t u : StateName} (h : a.answered p s t = true)
    (h' : a.answered p t u = true) : a.answered p s u = true := by
  rw [answered_iff] at h h' ⊢
  intro x hx hsource
  obtain ⟨y, hy, hsource', hlabel, hfirst⟩ := h x hx hsource
  obtain ⟨z, hz, hsource'', hlabel', hfirst'⟩ := h' y hy hsource'
  exact ⟨z, hz, hsource'', hlabel.trans hlabel', hfirst.trans hfirst'⟩

theorem alike_iff {s t : State} :
    a.alike p s t = true ↔ p.first s.name = p.first t.name ∧
      a.answered p s.name t.name = true ∧ a.answered p t.name s.name = true := by
  simp [alike, and_assoc]

theorem alike_equivalence : Equivalence fun s t : State => a.alike p s t = true := by
  simp only [alike_iff]
  exact ⟨fun s => ⟨rfl, answered_refl s.name, answered_refl s.name⟩,
    fun h => ⟨h.1.symm, h.2.2, h.2.1⟩,
    fun h h' => ⟨h.1.trans h'.1, answered_trans h.2.1 h'.2.1, answered_trans h'.2.2 h.2.2⟩⟩

theorem refine_refines (h : a.validate = .ok ()) : (a.refine p).Refines a.states p := by
  intro s hs t ht hst
  have hstates := (validate_eq_ok_iff.mp h).1
  exact (alike_iff.mp ((Partition.first_eq_iff hstates alike_equivalence hs ht).mp hst)).1

/-- Every block answers for all of its states. -/
structure Stable (a : Automaton) (p : Partition) : Prop where
  sorts : p.Sorts a.states
  answers : ∀ s ∈ a.states, ∀ t ∈ a.states, p.first s.name = p.first t.name →
    a.answered p s.name t.name = true

/-- A refinement without a new block is stable. -/
theorem stable_refine (h : a.validate = .ok ()) (hp : p.Sorts a.states)
    (hcount : (a.refine p).count = p.count) : a.Stable (a.refine p) := by
  obtain ⟨hstates, htransitions⟩ := validate_eq_ok_iff.mp h
  have hq : (a.refine p).Sorts a.states := Partition.sorts_ofRelation hstates alike_equivalence
  have hback := Partition.refines_of_count_eq hp hq (refine_refines h) hcount
  refine ⟨hq, ?_⟩
  intro s hs t ht hst
  have halike := (Partition.first_eq_iff hstates alike_equivalence hs ht).mp hst
  have hanswers := answered_iff.mp (alike_iff.mp halike).2.1
  apply answered_iff.mpr
  intro u hu hsource
  obtain ⟨v, hv, hsource', hlabel, hfirst⟩ := hanswers u hu hsource
  obtain ⟨x, hx, hxname⟩ := (htransitions u hu).target
  obtain ⟨y, hy, hyname⟩ := (htransitions v hv).target
  refine ⟨v, hv, hsource', hlabel, ?_⟩
  rw [← hxname, ← hyname] at hfirst ⊢
  exact hback x hx y hy hfirst

/-- Each round adds a block or is the last one, so the rounds are enough when there are more of them
than blocks to come. -/
theorem stable_refineFor (h : a.validate = .ok ()) (rounds : Nat) {p : Partition}
    (hp : p.Sorts a.states) (hrounds : a.states.length < rounds + p.count) :
    a.Stable (a.refineFor rounds p) ∧ (a.refineFor rounds p).Refines a.states p := by
  induction rounds generalizing p with
  | zero =>
      have hle := hp.count_le
      omega
  | succ rounds ih =>
      have hq : (a.refine p).Sorts a.states :=
        Partition.sorts_ofRelation (validate_eq_ok_iff.mp h).1 alike_equivalence
      rw [refineFor]
      split
      · next hcount => exact ⟨stable_refine h hp hcount, refine_refines h⟩
      · next hcount =>
          have hle := Partition.count_le_of_refines hp hq (refine_refines h)
          obtain ⟨hstable, hrefines⟩ := ih hq (by omega)
          refine ⟨hstable, ?_⟩
          intro s hs t ht hst
          exact refine_refines h s hs t ht (hrefines s hs t ht hst)

/-- The blocks are stable, and the states of a block have the same flags. -/
theorem blocks_spec (h : a.validate = .ok ()) :
    a.Stable a.blocks ∧ ∀ s ∈ a.states, ∀ t ∈ a.states,
      a.blocks.first s.name = a.blocks.first t.name → s.sameFlags t = true := by
  obtain ⟨hstates, _⟩ := validate_eq_ok_iff.mp h
  obtain ⟨s, hs, _⟩ := hstates.mem_start
  have hp : (Partition.ofRelation a.states State.sameFlags).Sorts a.states :=
    Partition.sorts_ofRelation hstates State.sameFlags_equivalence
  have hpos := hp.count_pos hs
  obtain ⟨hstable, hrefines⟩ := stable_refineFor h a.states.length hp (by omega)
  refine ⟨hstable, ?_⟩
  intro s hs t ht hst
  exact (Partition.first_eq_iff hstates State.sameFlags_equivalence hs ht).mp
    (hrefines s hs t ht hst)

/-- The first states of the blocks with the transitions between them. -/
def quotient (a : Automaton) : Automaton :=
  ⟨a.states.filter fun s => a.blocks.first s.name == s.name,
    (a.transitions.map (Partition.image a.blocks)).eraseDups⟩

theorem mem_quotient_states {s : State} :
    s ∈ a.quotient.states ↔ s ∈ a.states ∧ a.blocks.first s.name = s.name := by
  rw [quotient, List.mem_filter, beq_iff_eq]

theorem mem_quotient_transitions {u : Transition} :
    u ∈ a.quotient.transitions ↔ ∃ t ∈ a.transitions, Partition.image a.blocks t = u := by
  rw [quotient, List.mem_eraseDups, List.mem_map]

/-- The first state of a block has the flags of all states of the block. -/
theorem first_spec (h : a.validate = .ok ()) {s : State} (hs : s ∈ a.states) :
    ∃ t ∈ a.quotient.states, t.name = a.blocks.first s.name ∧ s.sameFlags t = true := by
  obtain ⟨hstable, hflags⟩ := blocks_spec h
  obtain ⟨t, ht, hname, hfirst⟩ := hstable.sorts.first s hs
  exact ⟨t, mem_quotient_states.mpr ⟨ht, hfirst.trans hname.symm⟩, hname,
    hflags s hs t ht hfirst.symm⟩

/-- The initial state is alone in its block. -/
theorem first_start (h : a.validate = .ok ()) : a.blocks.first start = start := by
  have hstates := (validate_eq_ok_iff.mp h).1
  obtain ⟨s, hs, hstart⟩ := hstates.mem_start
  obtain ⟨t, ht, hname, hflags⟩ := first_spec h hs
  have hinitial := (hstates.isInitial_iff hs).mpr hstart
  rw [(State.sameFlags_iff.mp hflags).1] at hinitial
  rw [← hstart, ← hname, hstart]
  exact (hstates.isInitial_iff (mem_quotient_states.mp ht).1).mp hinitial

theorem quotient_proper (h : a.validate = .ok ()) : State.Proper a.quotient.states := by
  apply (validate_eq_ok_iff.mp h).1.filter
  intro s _ hname
  rw [hname, first_start h, beq_iff_eq]

theorem isFinal_first (h : a.validate = .ok ()) {s : State} (hs : s ∈ a.states) :
    a.quotient.isFinal (a.blocks.first s.name) = a.isFinal s.name := by
  have hstates := (validate_eq_ok_iff.mp h).1
  obtain ⟨t, ht, hname, hflags⟩ := first_spec h hs
  have hfinal := (State.sameFlags_iff.mp hflags).2
  rw [Bool.eq_iff_iff, isFinal_iff (quotient_proper h), isFinal_iff hstates]
  constructor
  · intro hgiven
    rcases hgiven with ⟨u, hu, huname, hufinal⟩
    obtain rfl := (quotient_proper h).name_inj hu ht (huname.trans hname.symm)
    exact ⟨s, hs, rfl, hfinal.trans hufinal⟩
  · intro hgiven
    rcases hgiven with ⟨u, hu, huname, hufinal⟩
    obtain rfl := hstates.name_inj hu hs huname
    exact ⟨t, ht, hname, hfinal.symm.trans hufinal⟩

section relation
open Relation (ReflTransGen)
variable {G : Set Triple}

/-- A state and a term seen from the blocks. -/
def onBlocks (a : Automaton) (c : StateName × Term) : StateName × Term := (a.blocks.first c.1, c.2)

theorem moves_quotient {c d : StateName × Term} :
    a.quotient.Moves G c d ↔ ∃ t ∈ a.transitions, a.blocks.first t.source = c.1 ∧
      a.blocks.first t.target = d.1 ∧ t.label.relation G c.2 d.2 := by
  rw [Moves, Transition.moves_iff]
  simp only [mem_quotient_transitions, exists_exists_and_eq_and]
  rfl

/-- A run can be taken over the blocks, in the same steps. -/
theorem quotient_condenses (h : a.validate = .ok ()) : a.quotient.Condenses a := by
  have hfinal (q : StateName) (hq : a.isFinal q = true) :
      a.quotient.isFinal (a.blocks.first q) = true := by
    obtain ⟨s, hs, rfl, _⟩ := (isFinal_iff (validate_eq_ok_iff.mp h).1).mp hq
    exact (isFinal_first h hs).trans hq
  refine condenses_of_takes a.blocks.first (first_start h) hfinal ?_
  intro G s c d hstep
  obtain ⟨t, ht, hsource, htarget, htakes⟩ := Transition.takes_iff.mp hstep
  refine Transition.takes_iff.mpr ⟨_, mem_quotient_transitions.mpr ⟨t, ht, rfl⟩, ?_, ?_, htakes⟩
  · exact congrArg a.blocks.first hsource
  · exact congrArg a.blocks.first htarget

/-- A move between blocks can be made from every state of the block that it leaves. -/
theorem exists_moves (h : a.validate = .ok ()) {s : State} (hs : s ∈ a.states) {x : Term}
    {d : StateName × Term} (hmove : a.quotient.Moves G (a.onBlocks (s.name, x)) d) :
    ∃ t ∈ a.states, a.onBlocks (t.name, d.2) = d ∧ a.Moves G (s.name, x) (t.name, d.2) := by
  obtain ⟨hstable, _⟩ := blocks_spec h
  have htransitions := (validate_eq_ok_iff.mp h).2
  obtain ⟨u, hu, hsource, htarget, hrelation⟩ := moves_quotient.mp hmove
  obtain ⟨r, hr, hname⟩ := (htransitions u hu).source
  have hanswers := answered_iff.mp (hstable.answers r hr s hs (hname ▸ hsource))
  obtain ⟨v, hv, hsource', hlabel, hfirst⟩ := hanswers u hu hname.symm
  obtain ⟨t, ht, htname⟩ := (htransitions v hv).target
  refine ⟨t, ht, ?_, Transition.moves_iff.mpr ⟨v, hv, hsource', htname.symm, hlabel ▸ hrelation⟩⟩
  rw [onBlocks, htname, ← hfirst, htarget]

theorem exists_run (h : a.validate = .ok ()) {s : State} (hs : s ∈ a.states) {x : Term}
    {d : StateName × Term}
    (hrun : ReflTransGen (a.quotient.Moves G) (a.onBlocks (s.name, x)) d) :
    ∃ t ∈ a.states, a.onBlocks (t.name, d.2) = d ∧
      ReflTransGen (a.Moves G) (s.name, x) (t.name, d.2) := by
  induction hrun with
  | refl => exact ⟨s, hs, rfl, ReflTransGen.refl⟩
  | tail _ hmove ih =>
      obtain ⟨t, ht, hblock, hrun⟩ := ih
      rw [← hblock] at hmove
      obtain ⟨u, hu, hblock', hmove'⟩ := exists_moves h ht hmove
      exact ⟨u, hu, hblock', hrun.tail hmove'⟩

theorem relation_quotient (h : a.validate = .ok ()) : a.quotient.relation G = a.relation G := by
  obtain ⟨s, hs, hstart⟩ := (validate_eq_ok_iff.mp h).1.mem_start
  funext x y
  apply propext
  refine ⟨?_, (quotient_condenses h).relation⟩
  rw [relation_eq, relation_eq]
  intro hreach
  rcases hreach with ⟨q, hq, hrun⟩
  have hblock : a.onBlocks (start, x) = (start, x) := by
    rw [onBlocks, first_start h]
  rw [← hblock, ← hstart] at hrun
  obtain ⟨t, ht, hend, hrun'⟩ := exists_run h hs hrun
  have hname : a.blocks.first t.name = q := (Prod.mk.inj hend).1
  rw [← hname, isFinal_first h ht] at hq
  exact ⟨t.name, hq, hstart ▸ hrun'⟩

end relation

theorem quotient_comesFrom {u : Transition} (hu : u ∈ a.quotient.transitions) :
    u.label.ComesFrom a.transitions := by
  obtain ⟨t, ht, rfl⟩ := mem_quotient_transitions.mp hu
  exact .kept t ht rfl

theorem mergeStates_reduct (h : a.validate = .ok ()) :
    a.mergeStates = .ok a.quotient ∧ a.quotient.validate = .ok () ∧ a.quotient.IsReductOf a := by
  obtain ⟨hstates, htransitions⟩ := validate_eq_ok_iff.mp h
  have hnamed {n : StateName} (hn : ∃ s ∈ a.states, s.name = n) :
      ∃ t ∈ a.quotient.states, t.name = a.blocks.first n := by
    obtain ⟨s, hs, rfl⟩ := hn
    obtain ⟨t, ht, hname, _⟩ := first_spec h hs
    exact ⟨t, ht, hname⟩
  have hts : ∀ u ∈ a.quotient.transitions, u.Proper a.quotient.states := by
    intro u hu
    obtain ⟨t, ht, rfl⟩ := mem_quotient_transitions.mp hu
    have hproper := htransitions t ht
    exact ⟨hnamed hproper.source, hnamed hproper.target, hproper.label⟩
  obtain ⟨hmake, hvalid⟩ := make_of_proper (quotient_proper h) hts
  have hinitial : a.quotient.isFinal start = a.isFinal start := by
    obtain ⟨s, hs, hstart⟩ := hstates.mem_start
    have hfinal := isFinal_first h hs
    rwa [hstart, first_start h] at hfinal
  exact ⟨hmake, hvalid, .of_labels (fun G => relation_quotient h) hinitial
    fun u => quotient_comesFrom⟩

end Automaton

end PropertyPath
