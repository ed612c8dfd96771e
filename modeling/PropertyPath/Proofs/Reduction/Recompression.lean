import Mathlib.Data.List.Perm.Subperm
import PropertyPath.Proofs.Reduction.Pursuit
import PropertyPath.Proofs.Reduction.Shrinking

/-!
# Compressing what has been compressed

Compression looks at how often a state is entered and left, and counts all transitions, also those
that it drops because they are not reached. When no transition leads from a state that is not
reached into one that is, every state that is kept is entered and left as often as before, so no
chain can be grown further, and working off the queue a second time finds the same transitions in
the same order.
-/
namespace PropertyPath
namespace Automaton
open Relation (ReflTransGen)
variable {a : Automaton}

section found
variable (h : a.validate = .ok ())
include h

/-- The queue is worked off in the order in which the states are queued. -/
theorem keptFrom_eq_flatMap (room : Nat) {done queue : List StateName}
    (hsweep : a.Sweeping room (done ++ queue) queue) : ∃ rest, (done ++ rest).Nodup ∧
      a.keptFrom room (done ++ queue) queue = (done ++ rest, rest.flatMap a.compressedFrom) := by
  induction room generalizing done queue with
  | zero =>
      obtain ⟨_, hroom⟩ := hsweep.exists_room
      cases hroom
  | succ room ih =>
      cases queue with
      | nil => exact ⟨[], hsweep.distinct, rfl⟩
      | cons s queue =>
          obtain ⟨fresh, _, _, _, hsweep', heq⟩ := hsweep.step h
          have hknown : done ++ s :: queue ++ fresh = (done ++ [s]) ++ (queue ++ fresh) := by simp
          rw [hknown] at hsweep' heq
          obtain ⟨rest, hnodup, hrest⟩ := ih hsweep'
          rw [List.append_assoc] at hnodup
          exact ⟨s :: rest, hnodup, by rw [heq, hrest, List.append_assoc]; rfl⟩

theorem kept_eq_flatMap : a.kept.1.Nodup ∧ a.kept.2 = a.kept.1.flatMap a.compressedFrom := by
  have hsweep : a.Sweeping (a.states.length + 1) ([] ++ [start]) [start] := sweeping_start h
  obtain ⟨rest, hnodup, heq⟩ := keptFrom_eq_flatMap h (a.states.length + 1) hsweep
  have hkept : a.kept = (rest, rest.flatMap a.compressedFrom) := heq
  rw [hkept]
  exact ⟨hnodup, rfl⟩

/-- What leaves a kept state is what is kept of the transitions that leave it, in the same order. -/
theorem outgoing_keptAutomaton {s : StateName} (hs : s ∈ a.kept.1) :
    a.keptAutomaton.outgoing s = a.compressedFrom s := by
  obtain ⟨hnodup, hfound⟩ := kept_eq_flatMap h
  obtain ⟨before, after, hsplit⟩ := List.append_of_mem hs
  have hsource {k : StateName} {u : Transition} (hu : u ∈ a.compressedFrom k) : u.source = k := by
    obtain ⟨t, _, rfl, rfl⟩ := mem_compressedFrom.mp hu
    exact compressed_source t
  have hown : (a.compressedFrom s).filter (·.source == s) = a.compressedFrom s :=
    List.filter_eq_self.mpr fun u hu => beq_iff_eq.mpr (hsource hu)
  have hothers {ks : List StateName} (hks : s ∉ ks) :
      (ks.flatMap a.compressedFrom).filter (·.source == s) = [] := by
    rw [List.filter_eq_nil_iff]
    intro u hu
    obtain ⟨k, hk, hu⟩ := List.mem_flatMap.mp hu
    rw [hsource hu, beq_iff_eq]
    exact fun hks' => hks (hks' ▸ hk)
  rw [hsplit, List.nodup_append, List.nodup_cons] at hnodup
  obtain ⟨_, ⟨hafter, _⟩, hbefore⟩ := hnodup
  have hnot : s ∉ before := fun hmem => hbefore s hmem s List.mem_cons_self rfl
  rw [outgoing, keptAutomaton, hfound, hsplit, List.flatMap_append,
    List.flatMap_cons, List.filter_append,
    List.filter_append, hothers hnot, hothers hafter, hown, List.nil_append, List.append_nil]

end found

section degrees

/-- What leaves kept states, in the order in which it is compressed. -/
def heads (a : Automaton) : List Transition := a.kept.1.flatMap a.outgoing

theorem mem_heads {t : Transition} : t ∈ a.heads ↔ t ∈ a.transitions ∧ t.source ∈ a.kept.1 := by
  rw [heads, List.mem_flatMap]
  constructor
  · rintro ⟨s, hs, hout⟩
    obtain ⟨ht, rfl⟩ := mem_outgoing.mp hout
    exact ⟨ht, hs⟩
  · exact fun ht => ⟨t.source, ht.2, mem_outgoing.mpr ⟨ht.1, rfl⟩⟩

theorem count_outgoing (t : Transition) : (a.outgoing t.source).count t = a.transitions.count t :=
  List.count_filter (beq_iff_eq.mpr rfl)

variable (h : a.validate = .ok ())
include h

/-- A transition into a state that is not inner is the last one that is followed, from as many
transitions as there are that are equal to it. -/
theorem count_le_count_lastOf {t : Transition} (ht : t ∈ a.transitions)
    (hreached : ReflTransGen (Transition.Joins a.transitions) start t.source)
    (htarget : a.isInner t.target ≠ true) :
    a.transitions.count t ≤ (a.heads.map a.lastOf).count t := by
  rw [← count_outgoing]
  rcases exists_goesOver h ht hreached with hsource | ⟨hinner, u, hu, hsource, hover⟩
  · have hsub : (a.outgoing t.source).Sublist a.heads := by
      rw [heads, List.flatMap]
      exact List.sublist_flatten_of_mem (List.mem_map.mpr ⟨_, hsource, rfl⟩)
    calc (a.outgoing t.source).count t ≤ a.heads.count t := hsub.count_le t
      _ ≤ (a.heads.map a.lastOf).count (a.lastOf t) := List.count_le_count_map
      _ = (a.heads.map a.lastOf).count t := by rw [lastOf_of_not_inner htarget]
  · have hlast : a.lastOf u = t := hover.goes_on.resolve_right fun hgoes => htarget hgoes.1
    have hmem : t ∈ a.heads.map a.lastOf := List.mem_map.mpr ⟨u, mem_heads.mpr ⟨hu, hsource⟩, hlast⟩
    rw [outgoing_of_inner hinner ht rfl, List.count_singleton_self]
    exact List.count_pos_iff.mpr hmem

/-- A state that is not inner is entered as often as before, if it is entered from reached states
only. -/
theorem inDegree_le_keptAutomaton {s : StateName} (hs : a.isInner s ≠ true)
    (hreached : ∀ t ∈ a.transitions, t.target = s →
      ReflTransGen (Transition.Joins a.transitions) start t.source) :
    a.inDegree s ≤ a.keptAutomaton.inDegree s := by
  have hfound : a.keptAutomaton.transitions = a.heads.map a.compressed := by
    rw [keptAutomaton, (kept_eq_flatMap h).2, heads, List.map_flatMap]
    rfl
  have hlast : a.keptAutomaton.inDegree s = (a.heads.map a.lastOf).countP (·.target == s) := by
    rw [inDegree, hfound, List.countP_map, List.countP_map]
    apply List.countP_congr
    intro t _
    simp only [Function.comp_apply, lastOf_target]
  rw [hlast, inDegree, List.countP_eq_length_filter, List.countP_eq_length_filter]
  refine (List.subperm_ext_iff.mpr ?_).length_le
  intro t ht
  obtain ⟨ht, htarget⟩ := List.mem_filter.mp ht
  rw [List.count_filter (p := fun u : Transition => u.target == s) htarget,
    List.count_filter (p := fun u : Transition => u.target == s) htarget]
  rw [beq_iff_eq] at htarget
  exact count_le_count_lastOf h ht (hreached t ht htarget) (htarget ▸ hs)

end degrees

/-- No transition leads from a state that is not reached into one that is. -/
def EnteredFromReached (a : Automaton) : Prop :=
  ∀ t ∈ a.transitions, ReflTransGen (Transition.Joins a.transitions) start t.target →
    ReflTransGen (Transition.Joins a.transitions) start t.source

section inner
variable (h : a.validate = .ok ())
include h

theorem outDegree_keptAutomaton {s : StateName} (hs : s ∈ a.kept.1) :
    a.keptAutomaton.outDegree s = a.outDegree s := by
  rw [outDegree, List.countP_eq_length_filter]
  change (a.keptAutomaton.outgoing s).length = a.outDegree s
  rw [outgoing_keptAutomaton h hs, length_compressedFrom]

/-- A chain may run through a kept state only if it could before. -/
theorem isInner_of_keptAutomaton (hentered : a.EnteredFromReached)
    {s : StateName} (hs : s ∈ a.kept.1)
    (hinner : a.keptAutomaton.isInner s = true) : a.isInner s = true := by
  have hrun := reached_of_mem_kept h hs
  by_contra hnot
  have hle := inDegree_le_keptAutomaton h hnot fun t ht htarget => hentered t ht (htarget ▸ hrun)
  simp only [isInner, Bool.and_eq_true, bne_iff_ne, Bool.not_eq_true', beq_iff_eq,
    outDegree_keptAutomaton h hs] at hinner hnot
  obtain ⟨⟨⟨hstart, hfinal⟩, hin⟩, hout⟩ := hinner
  rw [← Bool.not_eq_true, isFinal_keptAutomaton h, not_and_or] at hfinal
  -- a state other than the initial one is reached over a transition
  obtain hends | ⟨p, _, t, ht, _, htarget⟩ := Relation.ReflTransGen.cases_tail hrun
  · exact hstart hends
  · have hpos : 0 < a.inDegree s := List.countP_pos_iff.mpr ⟨t, ht, beq_iff_eq.mpr htarget⟩
    have hnotfinal : a.isFinal s = false := by
      rcases hfinal with hfinal | hfinal
      · exact Bool.not_eq_true _ ▸ hfinal
      · exact absurd hs hfinal
    exact hnot ⟨⟨⟨hstart, hnotfinal⟩, by omega⟩, hout⟩

end inner

section winding

/-- The transition `t` is followed from `u` on, and each state that has been passed since is entered
by another transition already. -/
structure Winds (a : Automaton) (u : Transition) (passed : List StateName) (t : Transition) :
    Prop where
  mem : t ∈ a.transitions
  source : t.source ∈ passed
  entered : ∀ s ∈ passed, s = u.source ∨
    ∃ v ∈ a.transitions, v.target = s ∧ v.source ∈ passed ∧ v.source ≠ t.source

theorem winds_self {u : Transition} (hu : u ∈ a.transitions) : a.Winds u [u.source] u :=
  ⟨hu, List.mem_singleton_self _, fun _ hs => Or.inl (List.mem_singleton.mp hs)⟩

theorem Winds.step {u t t' : Transition} {passed : List StateName} (hwinds : a.Winds u passed t)
    (hnot : t.target ∉ passed) (ht' : t' ∈ a.transitions) (hmeet : t'.source = t.target) :
    a.Winds u (t.target :: passed) t' := by
  refine ⟨ht', hmeet ▸ List.mem_cons_self, ?_⟩
  intro s hs
  rcases List.mem_cons.mp hs with rfl | hs
  · refine Or.inr ⟨t, hwinds.mem, rfl, List.mem_cons_of_mem _ hwinds.source, ?_⟩
    exact fun heq => hnot (hmeet ▸ heq ▸ hwinds.source)
  · refine (hwinds.entered s hs).imp_right fun ⟨v, hv, htarget, hsource, _⟩ => ?_
    refine ⟨v, hv, htarget, List.mem_cons_of_mem _ hsource, ?_⟩
    exact fun heq => hnot (hmeet ▸ heq ▸ hsource)

/-- A state that is entered by one transition is not entered a second time. -/
theorem Winds.target_eq {u t : Transition} {passed : List StateName} (hwinds : a.Winds u passed t)
    (hpassed : t.target ∈ passed) (hinner : a.isInner t.target = true) : t.target = u.source := by
  refine (hwinds.entered _ hpassed).resolve_right ?_
  rintro ⟨v, hv, htarget, _, hne⟩
  simp only [isInner, Bool.and_eq_true, beq_iff_eq, inDegree,
    List.countP_eq_length_filter] at hinner
  obtain ⟨w, hw⟩ := List.length_eq_one_iff.mp hinner.1.2
  have honly {x : Transition} (hx : x ∈ a.transitions) (hxtarget : x.target = t.target) :
      x = w := by
    have hmem : x ∈ a.transitions.filter (·.target == t.target) :=
      List.mem_filter.mpr ⟨hx, beq_iff_eq.mpr hxtarget⟩
    rwa [hw, List.mem_singleton] at hmem
  rw [honly hv htarget, honly hwinds.mem rfl] at hne
  exact hne rfl

/-- A chain stops where no chain may run through, where no chain leaves, or where it began. -/
theorem GrowsTo.stops {u : Transition} {passed : List StateName} {c e : Chain}
    (hgrows : a.GrowsTo passed c e)
    {t : Transition} (hwinds : a.Winds u passed t) (htarget : t.target = c.target) :
    a.isInner e.target = false ∨ a.nextChain? e.target = none ∨ e.target = u.source := by
  induction hgrows generalizing t with
  | kept hkept => exact Or.inl hkept
  | @round passed c hround =>
      cases hinner : a.isInner c.target with
      | false => exact Or.inl rfl
      | true =>
          rw [← htarget] at hround hinner ⊢
          exact Or.inr (Or.inr (hwinds.target_eq hround hinner))
  | left hleft => exact Or.inr (Or.inl hleft)
  | @step passed c next d e hinner hnot hnext happend _ ih =>
      obtain ⟨t', ht', hsource, hof⟩ := mem_of_nextChain hnext
      rw [append_nextChain hnext] at happend
      cases happend
      rw [← htarget] at hnot hsource ih
      exact ih (hwinds.step hnot ht' hsource) (Transition.ofTransition_ends hof).2.1.symm

/-- A transition that is no chain is left as it is, and any other one is grown until it stops. -/
theorem compressed_stops (h : a.validate = .ok ()) {t : Transition} (ht : t ∈ a.transitions) :
    Chain.ofTransition? (a.compressed t) = none ∨ ∃ e : Chain, a.compressed t = e.toTransition ∧
      (a.isInner e.target = false ∨ a.nextChain? e.target = none ∨ e.target = e.source) := by
  have hgrown := compressesTo_compressed h ht
  have hsource := compressed_source (a := a) t
  generalize a.compressed t = u at hgrown hsource ⊢
  cases hgrown with
  | chain hof hgrows =>
      have hstops := hgrows.stops (winds_self ht) (Transition.ofTransition_ends hof).2.1.symm
      rw [← hsource] at hstops
      exact Or.inr ⟨_, rfl, hstops⟩
  | other hof => exact Or.inl hof

theorem followChain_of_stops {c : Chain} {passed : List StateName} (room : Nat)
    (h : a.isInner c.target = false ∨ a.nextChain? c.target = none ∨ c.target ∈ passed) :
    a.followChain room passed c = c := by
  cases room with
  | zero => rfl
  | succ room =>
      rw [followChain]
      split
      · next hgoes =>
          rw [Bool.and_eq_true, Bool.not_eq_true', List.contains_eq_mem,
            decide_eq_false_iff_not] at hgoes
          rcases h with hkept | hleft | hround
          · exact absurd hgoes.1 (Bool.eq_false_iff.mp hkept)
          · rw [hleft]
          · exact absurd hround hgoes.2
      · rfl

end winding

section twice
variable (h : a.validate = .ok ())
include h

/-- What has been compressed is a chain if it was one before. -/
theorem nextChain_keptAutomaton {s : StateName} (hs : s ∈ a.kept.1)
    (hnext : a.nextChain? s = none) :
    a.keptAutomaton.nextChain? s = none := by
  rw [nextChain?, List.findSome?_eq_none_iff] at hnext ⊢
  intro u hu
  rw [outgoing_keptAutomaton h hs] at hu
  obtain ⟨t, ht, rfl⟩ := List.mem_map.mp hu
  rw [compressed, hnext t ht]
  exact hnext t ht

/-- What has been compressed is left as it is. -/
theorem compressed_keptAutomaton (hentered : a.EnteredFromReached)
    {u : Transition} (hu : u ∈ a.kept.2) :
    a.keptAutomaton.compressed u = u := by
  obtain ⟨hkept, _, _⟩ := kept_spec h
  have htarget := hkept.closed u hu
  obtain ⟨s, _, hfrom⟩ := hkept.only u hu
  obtain ⟨t, ht, _, rfl⟩ := mem_compressedFrom.mp hfrom
  rcases compressed_stops h ht with hother | ⟨e, heq, hstops⟩
  · rw [compressed, hother]
  · rw [heq] at htarget ⊢
    rw [compressed, Chain.ofTransition?_toTransition]
    refine congrArg Chain.toTransition (followChain_of_stops _ ?_)
    refine hstops.imp (fun hinner => ?_)
      (Or.imp (nextChain_keptAutomaton h htarget) fun hround => ?_)
    · rw [← Bool.not_eq_true] at hinner ⊢
      exact fun hinner' => hinner (isInner_of_keptAutomaton h hentered htarget hinner')
    · exact List.mem_singleton.mpr hround

/-- The queue is worked off as before, if what is kept of the transitions that leave its states is
the same. -/
theorem keptFrom_congr {b : Automaton} (hb : b.validate = .ok ()) (room room' : Nat)
    {known queue : List StateName}
    (hsweep : a.Sweeping room known queue) (hsweep' : b.Sweeping room' known queue)
    (hsame : ∀ s ∈ (a.keptFrom room known queue).1, b.compressedFrom s = a.compressedFrom s) :
    b.keptFrom room' known queue = a.keptFrom room known queue := by
  induction room generalizing room' known queue with
  | zero =>
      obtain ⟨_, hroom⟩ := hsweep.exists_room
      cases hroom
  | succ room ih =>
      obtain ⟨room', rfl⟩ := hsweep'.exists_room
      cases queue with
      | nil => rfl
      | cons s queue =>
          have hs := (keptFrom_spec h (room + 1) hsweep).2.1 (hsweep.queued List.mem_cons_self)
          obtain ⟨fresh, hdiscover, _, _, hrest, heq⟩ := hsweep.step h
          obtain ⟨fresh', hdiscover', _, _, hrest', heq'⟩ := hsweep'.step hb
          rw [hsame s hs, hdiscover] at hdiscover'
          obtain ⟨_, rfl⟩ := Prod.mk.inj hdiscover'
          rw [heq] at hsame ⊢
          rw [heq', hsame s (heq ▸ hs), ih room' hrest hrest' hsame]

/-- Compressing a second time changes nothing. -/
theorem keptAutomaton_keptAutomaton (hentered : a.EnteredFromReached) :
    a.keptAutomaton.keptAutomaton = a.keptAutomaton := by
  obtain ⟨_, hvalid, _⟩ := compress_reduct h
  have hsame : ∀ s ∈ a.kept.1, a.keptAutomaton.compressedFrom s = a.compressedFrom s := by
    intro s hs
    obtain ⟨_, _, hall⟩ := kept_spec h
    rw [compressedFrom, outgoing_keptAutomaton h hs]
    have hleft :
        (a.compressedFrom s).map a.keptAutomaton.compressed = (a.compressedFrom s).map id :=
      List.map_congr_left fun u hu => compressed_keptAutomaton h hentered (hall s hs hu)
    rw [hleft, List.map_id]
  have hkept : a.keptAutomaton.kept = a.kept :=
    keptFrom_congr h hvalid _ _ (sweeping_start h) (sweeping_start hvalid) hsame
  rw [keptAutomaton, hkept]
  refine congrArg (Automaton.mk · a.kept.2) (List.filter_eq_self.mpr ?_)
  intro s hs
  exact List.contains_iff_mem.mpr (mem_keptAutomaton.mp hs).2

end twice

end Automaton

end PropertyPath
