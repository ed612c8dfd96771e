import Mathlib.Data.List.Perm.Subperm
import PropertyPath.Proofs.Automaton.Condensed
import PropertyPath.Proofs.Reduction.Chains
import PropertyPath.Proofs.Reduction.Reduct

/-!
# Compressing chains keeps the relation

A compressed transition can be taken exactly when the transitions that it stands for can be taken
one after the other. Every run from a kept state that ends in a final state passes through the end
of a compressed transition, since a state inside a chain is not final and is left in one way only.
So the run is condensed when it is taken over compressed transitions.
-/
namespace PropertyPath

namespace Transition

theorem relation_of_chain {t : Transition} {c : Chain} (h : Chain.ofTransition? t = some c)
    (G : Set Triple) : t.label.relation G = chainRelation G c.instructions := by
  rw [Label.relation_of_branches (ofTransition_ends h).2.2]
  funext x y
  simp

/-- A step that passes a chain is a hop. -/
theorem takes_of_chain {t : Transition} {c : Chain}
    (h : Chain.ofTransition? t = some c) {G : Set Triple}
    {s : Shape} {x y : Term} :
    t.label.takes (joined G) s x y ↔ s = .hop ∧ chainRelation G c.instructions x y := by
  rw [Label.takes_of_branches (ofTransition_ends h).2.2, joined_single]

end Transition

namespace Automaton
open Relation (Comp ReflTransGen)
variable {a : Automaton} {G : Set Triple}

/-- A state inside a chain is left by one transition. -/
theorem outgoing_of_inner {s : StateName} (h : a.isInner s = true) {t : Transition}
    (ht : t ∈ a.transitions) (hsource : t.source = s) : a.outgoing s = [t] := by
  simp only [isInner, Bool.and_eq_true, beq_iff_eq, outDegree, List.countP_eq_length_filter] at h
  obtain ⟨u, hu⟩ := List.length_eq_one_iff.mp h.2
  have hmem : t ∈ a.outgoing s := mem_outgoing.mpr ⟨ht, hsource⟩
  have hout : a.outgoing s = [u] := hu
  rw [hout] at hmem ⊢
  rw [List.mem_singleton.mp hmem]

section followChain

/-- A chain stops, or goes on over the transition that leaves an inner state. -/
theorem followChain_cases (room : Nat) (passed : List StateName) (c : Chain) :
    a.followChain (room + 1) passed c = c ∨
      ∃ t ∈ a.transitions, ∃ next, a.isInner c.target = true ∧ t.source = c.target ∧
        Chain.ofTransition? t = some next ∧ a.followChain (room + 1) passed c =
          a.followChain room (c.target :: passed) (c.extend next) := by
  rw [followChain]
  split
  · next hinner =>
      rw [Bool.and_eq_true] at hinner
      split
      · next next hnext =>
          obtain ⟨t, ht, hsource, hof⟩ := mem_of_nextChain hnext
          exact Or.inr ⟨t, ht, next, hinner.1, hsource, hof, rfl⟩
      · exact Or.inl rfl
  · exact Or.inl rfl

theorem followChain_source (room : Nat) (passed : List StateName) (c : Chain) :
    (a.followChain room passed c).source = c.source := by
  induction room generalizing passed c with
  | zero => rfl
  | succ room ih =>
      rcases followChain_cases room passed c with hstop | ⟨_, _, _, _, _, _, hgo⟩
      · rw [hstop]
      · rw [hgo, ih]
        rfl

theorem followChain_instructions (room : Nat) (passed : List StateName) (c : Chain) :
    ∃ is, (a.followChain room passed c).instructions = c.instructions ++ is := by
  induction room generalizing passed c with
  | zero => exact ⟨[], (List.append_nil _).symm⟩
  | succ room ih =>
      rcases followChain_cases room passed c with hstop | ⟨_, _, next, _, _, _, hgo⟩
      · exact ⟨[], by rw [hstop, List.append_nil]⟩
      · obtain ⟨is, his⟩ := ih (c.target :: passed) (c.extend next)
        exact ⟨next.instructions ++ is, by rw [hgo, his, Chain.extend, List.append_assoc]⟩

/-- A followed chain ends where it began or where a transition ends. -/
theorem followChain_target (room : Nat) (passed : List StateName) (c : Chain) :
    (a.followChain room passed c).target = c.target ∨
      ∃ t ∈ a.transitions, t.target = (a.followChain room passed c).target := by
  induction room generalizing passed c with
  | zero => exact Or.inl rfl
  | succ room ih =>
      rcases followChain_cases room passed c with hstop | ⟨t, ht, next, _, _, hof, hgo⟩
      · exact Or.inl (by rw [hstop])
      · rw [hgo]
        rcases ih (c.target :: passed) (c.extend next) with hend | hend
        · exact Or.inr ⟨t, ht, (Transition.ofTransition_ends hof).2.1.symm.trans hend.symm⟩
        · exact Or.inr hend

/-- Whoever takes a followed chain takes the chain itself and then moves of the automaton. -/
theorem followChain_sound (room : Nat) (passed : List StateName) (c : Chain) {x y : Term}
    (h : chainRelation G (a.followChain room passed c).instructions x y) :
    ∃ z, chainRelation G c.instructions x z ∧
      ReflTransGen (a.Moves G) (c.target, z) ((a.followChain room passed c).target, y) := by
  induction room generalizing passed c with
  | zero => exact ⟨y, h, ReflTransGen.refl⟩
  | succ room ih =>
      rcases followChain_cases room passed c with hstop | ⟨t, ht, next, _, hsource, hof, hgo⟩
      · rw [hstop] at h ⊢
        exact ⟨y, h, ReflTransGen.refl⟩
      · rw [hgo] at h ⊢
        obtain ⟨w, hchain, hrun⟩ := ih (c.target :: passed) (c.extend next) h
        rw [Chain.extend, chainRelation_append] at hchain
        obtain ⟨z, hfirst, hsecond⟩ := hchain
        refine ⟨z, hfirst,
          ReflTransGen.head (Transition.moves_iff.mpr ⟨t, ht, hsource, ?_, ?_⟩) hrun⟩
        · exact (Transition.ofTransition_ends hof).2.1.symm
        · rw [Transition.relation_of_chain hof]
          exact hsecond

end followChain

section compressed

theorem compressed_source (t : Transition) : (a.compressed t).source = t.source := by
  rw [compressed]
  split
  · next c hof => exact (followChain_source _ _ _).trans (Transition.ofTransition_ends hof).1
  · rfl

theorem compressed_target {t : Transition} (ht : t ∈ a.transitions) :
    ∃ u ∈ a.transitions, u.target = (a.compressed t).target := by
  rw [compressed]
  split
  · next c hof =>
      rcases followChain_target a.states.length [t.source] c with hend | hend
      · exact ⟨t, ht, (Transition.ofTransition_ends hof).2.1.symm.trans hend.symm⟩
      · exact hend
  · exact ⟨t, ht, rfl⟩

theorem compressed_comesFrom {t : Transition} (ht : t ∈ a.transitions) :
    (a.compressed t).label.ComesFrom a.transitions := by
  rw [compressed]
  split
  · next c hof =>
      refine .chains _ rfl fun hts => ⟨List.cons_ne_nil _ _, fun hempty => ?_⟩
      obtain ⟨is, his⟩ := followChain_instructions (a := a) a.states.length [t.source] c
      rw [List.mem_singleton, eq_comm, his, List.append_eq_nil_iff] at hempty
      have hchain :=
        (Label.epsilonFree_of_branches (Transition.ofTransition_ends hof).2.2).mp (hts t ht)
      exact hchain.2 (List.mem_singleton.mpr hempty.1.symm)
  · exact .kept t ht rfl

/-- A compressed transition is taken by moves of the automaton. -/
theorem compressed_sound {t : Transition} (ht : t ∈ a.transitions) {x y : Term}
    (h : (a.compressed t).label.relation G x y) :
    ReflTransGen (a.Moves G) (t.source, x) ((a.compressed t).target, y) := by
  rw [compressed] at h ⊢
  split at h
  · next c hof =>
      obtain ⟨z, hchain, hrun⟩ := followChain_sound a.states.length [t.source] c h
      refine ReflTransGen.head (Transition.moves_iff.mpr ⟨t, ht, rfl, ?_, ?_⟩) hrun
      · exact (Transition.ofTransition_ends hof).2.1.symm
      · rw [Transition.relation_of_chain hof]
        exact hchain
  · exact ReflTransGen.single (Transition.moves_iff.mpr ⟨t, ht, rfl, rfl, h⟩)

theorem mem_compressedFrom {s : StateName} {u : Transition} :
    u ∈ a.compressedFrom s ↔ ∃ t ∈ a.transitions, t.source = s ∧ a.compressed t = u := by
  rw [compressedFrom, List.mem_map]
  simp only [mem_outgoing, and_assoc]

end compressed

section kept

theorem discover_fst (known ss : List StateName) :
    (discover known ss).1 = known ++ (discover known ss).2 := by
  induction ss generalizing known with
  | nil => exact (List.append_nil known).symm
  | cons s ss ih =>
      rw [discover]
      split
      · exact ih known
      · change (discover (known ++ [s]) ss).1 = known ++ s :: (discover (known ++ [s]) ss).2
        rw [ih, List.append_assoc]
        rfl

theorem discover_snd_subset (known ss : List StateName) : (discover known ss).2 ⊆ ss := by
  induction ss generalizing known with
  | nil => exact List.Subset.refl _
  | cons s ss ih =>
      rw [discover]
      split
      · exact List.subset_cons_of_subset s (ih known)
      · exact List.cons_subset_cons s (ih (known ++ [s]))

theorem subset_discover (known ss : List StateName) : ss ⊆ (discover known ss).1 := by
  induction ss generalizing known with
  | nil => exact List.nil_subset _
  | cons s ss ih =>
      rw [discover]
      split
      · next hmem =>
          have hs : s ∈ (discover known ss).1 := by
            rw [discover_fst]
            exact List.mem_append_left _ (List.contains_iff_mem.mp hmem)
          exact List.cons_subset.mpr ⟨hs, ih known⟩
      · have hs : s ∈ (discover (known ++ [s]) ss).1 := by
          rw [discover_fst]
          simp
        exact List.cons_subset.mpr ⟨hs, ih (known ++ [s])⟩

theorem nodup_discover {known : List StateName} (h : known.Nodup) (ss : List StateName) :
    (discover known ss).1.Nodup := by
  induction ss generalizing known with
  | nil => exact h
  | cons s ss ih =>
      rw [discover]
      split
      · exact ih h
      · next hmem =>
          have hs : s ∉ known := by simpa using hmem
          apply ih
          rw [List.nodup_append]
          refine ⟨h, List.nodup_singleton s, ?_⟩
          intro t ht u hu
          rw [List.mem_singleton.mp hu]
          intro heq
          subst heq
          exact hs ht

/-- Some states and what is kept of the transitions that leave them. Nothing that can be reached
over the kept transitions is missing. -/
structure IsKept (a : Automaton) (names : List StateName) (ts : List Transition) : Prop where
  named : ∀ s ∈ names, ∃ q ∈ a.states, q.name = s
  only : ∀ u ∈ ts, ∃ s ∈ names, u ∈ a.compressedFrom s
  closed : ∀ u ∈ ts, u.target ∈ names

/-- Distinct names of states are no more than there are states. -/
theorem length_le_of_named {names : List StateName} (hnodup : names.Nodup)
    (hnamed : ∀ s ∈ names, ∃ q ∈ a.states, q.name = s) : names.length ≤ a.states.length := by
  have hsub : names ⊆ a.states.map (·.name) := by
    intro s hs
    exact List.mem_map.mpr (hnamed s hs)
  simpa using (List.subperm_of_subset hnodup hsub).length_le

theorem named_compressedFrom (h : a.validate = .ok ()) {s : StateName} {u : Transition}
    (hu : u ∈ a.compressedFrom s) : ∃ q ∈ a.states, q.name = u.target := by
  obtain ⟨t, ht, _, rfl⟩ := mem_compressedFrom.mp hu
  obtain ⟨v, hv, hend⟩ := compressed_target ht
  exact hend ▸ ((validate_eq_ok_iff.mp h).2 v hv).target

/-- While a queue is worked off, the known states are distinct, and so are those in the queue, which
are known. There is room for as many steps as there may be, since each state is queued once. -/
structure Sweeping (a : Automaton) (room : Nat) (known queue : List StateName) : Prop where
  distinct : known.Nodup
  named : ∀ s ∈ known, ∃ q ∈ a.states, q.name = s
  once : queue.Nodup
  queued : queue ⊆ known
  enough : a.states.length + queue.length < room + known.length

theorem Sweeping.exists_room {room : Nat} {known queue : List StateName}
    (h : a.Sweeping room known queue) :
    ∃ r, room = r + 1 := by
  have hlength := length_le_of_named h.distinct h.named
  have hroom := h.enough
  exact ⟨room - 1, by omega⟩

theorem sweeping_start (h : a.validate = .ok ()) :
    a.Sweeping (a.states.length + 1) [start] [start] where
  distinct := List.nodup_singleton start
  named := by simpa using (validate_eq_ok_iff.mp h).1.mem_start
  once := List.nodup_singleton start
  queued := List.Subset.refl [start]
  enough := by simp

/-- Working off one state queues the ends of its compressed transitions that are not yet known. -/
theorem Sweeping.step (h : a.validate = .ok ()) {room : Nat}
    {known : List StateName} {s : StateName}
    {queue : List StateName} (hsweep : a.Sweeping (room + 1) known (s :: queue)) :
    ∃ fresh, discover known ((a.compressedFrom s).map (·.target)) = (known ++ fresh, fresh) ∧
      fresh ⊆ (a.compressedFrom s).map (·.target) ∧
      (a.compressedFrom s).map (·.target) ⊆ known ++ fresh ∧
      a.Sweeping room (known ++ fresh) (queue ++ fresh) ∧
      a.keptFrom (room + 1) known (s :: queue) =
        ((a.keptFrom room (known ++ fresh) (queue ++ fresh)).1,
          a.compressedFrom s ++ (a.keptFrom room (known ++ fresh) (queue ++ fresh)).2) := by
  have hfst := discover_fst known ((a.compressedFrom s).map (·.target))
  have hfresh := discover_snd_subset known ((a.compressedFrom s).map (·.target))
  have hdistinct := nodup_discover hsweep.distinct ((a.compressedFrom s).map (·.target))
  have hqueue := (List.nodup_cons.mp hsweep.once).2
  have hqueued := (List.cons_subset.mp hsweep.queued).2
  refine ⟨_, Prod.ext hfst rfl, hfresh, hfst ▸ subset_discover known _, ?_, by rw [← hfst]; rfl⟩
  rw [hfst, List.nodup_append] at hdistinct
  refine ⟨List.nodup_append.mpr hdistinct, ?_, ?_, ?_, ?_⟩
  · intro u hu
    rcases List.mem_append.mp hu with hu | hu
    · exact hsweep.named u hu
    · obtain ⟨t, ht, rfl⟩ := List.mem_map.mp (hfresh hu)
      exact named_compressedFrom h ht
  · exact List.nodup_append.mpr ⟨hqueue, hdistinct.2.1, fun u hu => hdistinct.2.2 u (hqueued hu)⟩
  · exact List.append_subset.mpr ⟨fun u hu => List.mem_append_left _ (hqueued hu),
      List.subset_append_right known _⟩
  · have hroom := hsweep.enough
    simp only [List.length_append, List.length_cons] at hroom ⊢
    omega

/-- The room is never used up, and every state that is queued is worked off. -/
theorem keptFrom_spec (h : a.validate = .ok ()) (room : Nat) {known queue : List StateName}
    (hsweep : a.Sweeping room known queue) :
    a.IsKept (a.keptFrom room known queue).1 (a.keptFrom room known queue).2 ∧
      known ⊆ (a.keptFrom room known queue).1 ∧
      ∀ s ∈ (a.keptFrom room known queue).1,
        (s ∈ known ∧ s ∉ queue) ∨ a.compressedFrom s ⊆ (a.keptFrom room known queue).2 := by
  induction room generalizing known queue with
  | zero =>
      obtain ⟨_, hroom⟩ := hsweep.exists_room
      cases hroom
  | succ room ih =>
      cases queue with
      | nil =>
          refine ⟨⟨hsweep.named, nofun, nofun⟩, List.Subset.refl _, ?_⟩
          exact fun s hs => Or.inl ⟨hs, List.not_mem_nil⟩
      | cons s queue =>
          obtain ⟨fresh, _, _, htargets, hsweep', heq⟩ := hsweep.step h
          rw [heq]
          obtain ⟨hkept, hknown, hdone⟩ := ih hsweep'
          have hs := hknown (List.mem_append_left fresh (hsweep.queued List.mem_cons_self))
          refine ⟨⟨hkept.named, ?_, ?_⟩, ?_, ?_⟩
          · intro u hu
            rcases List.mem_append.mp hu with hu | hu
            · exact ⟨s, hs, hu⟩
            · exact hkept.only u hu
          · intro u hu
            rcases List.mem_append.mp hu with hu | hu
            · exact hknown (htargets (List.mem_map.mpr ⟨u, hu, rfl⟩))
            · exact hkept.closed u hu
          · exact fun u hu => hknown (List.mem_append_left fresh hu)
          · intro u hu
            by_cases hus : u = s
            · exact Or.inr (hus ▸ List.subset_append_left _ _)
            · rcases hdone u hu with ⟨hmem, hnot⟩ | hsub
              · rw [List.mem_append, not_or] at hnot
                have hold := (List.mem_append.mp hmem).resolve_right hnot.2
                exact Or.inl ⟨hold, fun hin => (List.mem_cons.mp hin).elim hus hnot.1⟩
              · exact Or.inr (List.Subset.trans hsub (List.subset_append_right _ _))

/-- The initial state is kept, and so is everything that compressed transitions lead to from
there. -/
theorem kept_spec (h : a.validate = .ok ()) :
    a.IsKept a.kept.1 a.kept.2 ∧ start ∈ a.kept.1 ∧
    ∀ s ∈ a.kept.1, a.compressedFrom s ⊆ a.kept.2 := by
  obtain ⟨hkept, hstart, hdone⟩ := keptFrom_spec h (a.states.length + 1) (sweeping_start h)
  refine ⟨hkept, hstart List.mem_cons_self, fun s hs => ?_⟩
  rcases hdone s hs with ⟨hmem, hnot⟩ | hsub
  · exact absurd hmem hnot
  · exact hsub

end kept

section condensed
variable {b : Automaton} {steps : List Shape} {y : Term}

/-- A condensed form of the steps leads on in `b`. -/
def LeadsShortly (G : Set Triple) (b : Automaton) (steps : List Shape)
    (c : StateName × Term) (y : Term) :
    Prop :=
  ∃ short, Shape.Condenses short steps ∧ b.LeadsBy G short c y

/-- From a chain that ends at a state and has come to a term, what follows of it leads on in `b`, by
a condensed form of the steps. -/
def Follows (G : Set Triple) (a b : Automaton) (steps : List Shape) (y : Term)
    (c : StateName × Term) : Prop :=
  ∀ (room : Nat) (passed : List StateName) (d : Chain) (x : Term), d.target = c.1 →
    chainRelation G d.instructions x c.2 → (a.followChain room passed d).target ∈ a.kept.1 →
      ∃ w, chainRelation G (a.followChain room passed d).instructions x w ∧
        b.LeadsShortly G steps ((a.followChain room passed d).target, w) y

/-- A chain may stop where the automaton leads on. -/
theorem leads_of_stop {c : StateName × Term} (hleads : c.1 ∈ a.kept.1 → b.LeadsShortly G steps c y)
    {d : Chain} {x : Term} (hd : d.target = c.1) (hchain : chainRelation G d.instructions x c.2)
    (hkept : d.target ∈ a.kept.1) :
    ∃ w, chainRelation G d.instructions x w ∧ b.LeadsShortly G steps (d.target, w) y :=
  ⟨c.2, hchain, by rw [hd] at hkept ⊢; exact hleads hkept⟩

theorem follows_of_final {q : StateName} (hq : a.isFinal q = true)
    (hleads : q ∈ a.kept.1 → b.LeadsShortly G [] (q, y) y) : a.Follows G b [] y (q, y) := by
  intro room passed d x hd hchain hkept
  cases room with
  | zero => exact leads_of_stop hleads hd hchain hkept
  | succ room =>
      rcases followChain_cases (a := a) room passed d with hstop | ⟨_, _, _, hinner, _⟩
      · rw [hstop] at hkept ⊢
        exact leads_of_stop hleads hd hchain hkept
      · rw [hd, isInner, hq] at hinner
        simp at hinner

/-- A chain goes on over the step that is taken, since there is no other one, and the step is a hop
that is left out. -/
theorem follows_of_step {s : Shape} {c c' : StateName × Term}
    (hstep : Transition.takes (joined G) a.transitions s c c')
    (hleads : c.1 ∈ a.kept.1 → b.LeadsShortly G (s :: steps) c y) (h : a.Follows G b steps y c') :
    a.Follows G b (s :: steps) y c := by
  intro room passed d x hd hchain hkept
  obtain ⟨t, ht, hsource, htarget, htakes⟩ := Transition.takes_iff.mp hstep
  cases room with
  | zero => exact leads_of_stop hleads hd hchain hkept
  | succ room =>
      rcases followChain_cases (a := a) room passed d with
        hstop | ⟨u, hu, next, hinner, husource, hof, hgo⟩
      · rw [hstop] at hkept ⊢
        exact leads_of_stop hleads hd hchain hkept
      · have hout := outgoing_of_inner hinner ht (hsource.trans hd.symm)
        have hmem : u ∈ a.outgoing d.target := mem_outgoing.mpr ⟨hu, husource⟩
        rw [hout, List.mem_singleton] at hmem
        subst hmem
        obtain ⟨rfl, hrelation⟩ := (Transition.takes_of_chain hof).mp htakes
        rw [hgo] at hkept ⊢
        have hnext : chainRelation G (d.extend next).instructions x c'.2 := by
          rw [Chain.extend, chainRelation_append]
          exact ⟨c.2, hchain, hrelation⟩
        have hends := (Transition.ofTransition_ends hof).2.1.trans htarget
        obtain ⟨w, hw, short, hshort, hled⟩ :=
          h room (d.target :: passed) (d.extend next) x hends hnext hkept
        exact ⟨w, hw, short, .drop hshort, hled⟩

/-- A kept state leads on over the compressed form of the step that is taken. -/
theorem leads_of_step (hall : ∀ s ∈ a.kept.1, a.compressedFrom s ⊆ b.transitions)
    (hclosed : ∀ u ∈ b.transitions, u.target ∈ a.kept.1) {s : Shape} {c c' : StateName × Term}
    (hstep : Transition.takes (joined G) a.transitions s c c')
    (hleads : c'.1 ∈ a.kept.1 → b.LeadsShortly G steps c' y) (h : a.Follows G b steps y c')
    (hc : c.1 ∈ a.kept.1) : b.LeadsShortly G (s :: steps) c y := by
  obtain ⟨t, ht, hsource, htarget, htakes⟩ := Transition.takes_iff.mp hstep
  have hmem : a.compressed t ∈ b.transitions :=
    hall c.1 hc (mem_compressedFrom.mpr ⟨t, ht, hsource, rfl⟩)
  have hkept := hclosed _ hmem
  have hfrom : (a.compressed t).source = c.1 := (compressed_source t).trans hsource
  cases hof : Chain.ofTransition? t with
  | none =>
      have heq : a.compressed t = t := by rw [compressed, hof]
      rw [heq] at hmem hkept
      rw [htarget] at hkept
      obtain ⟨short, hshort, hled⟩ := hleads hkept
      refine ⟨s :: short, .cons s hshort, leadsBy_cons ?_ hled⟩
      exact Transition.takes_iff.mpr ⟨t, hmem, hsource, htarget, htakes⟩
  | some d =>
      have heq : a.compressed t = (a.followChain a.states.length [t.source] d).toTransition := by
        rw [compressed, hof]
      rw [heq] at hmem hkept hfrom
      have hd := (Transition.ofTransition_ends hof).2.1.trans htarget
      obtain ⟨rfl, hrelation⟩ := (Transition.takes_of_chain hof).mp htakes
      obtain ⟨w, hchain, short, hshort, hled⟩ :=
        h a.states.length [t.source] d c.2 hd hrelation hkept
      refine ⟨.hop :: short, .hop hshort, leadsBy_cons ?_ hled⟩
      refine Transition.takes_iff.mpr ⟨_, hmem, hfrom, rfl, ?_⟩
      exact (Transition.takes_of_chain (Chain.ofTransition?_toTransition _)).mpr ⟨rfl, hchain⟩

/-- A run from a kept state to a final state can be taken over compressed transitions, and from a
state within a chain it goes on as the chain does. -/
theorem leads_compressed (hfinal : ∀ s, a.isFinal s = true → s ∈ a.kept.1 → b.isFinal s = true)
    (hall : ∀ s ∈ a.kept.1, a.compressedFrom s ⊆ b.transitions)
    (hclosed : ∀ u ∈ b.transitions, u.target ∈ a.kept.1) {c : StateName × Term}
    (h : a.LeadsBy G steps c y) :
    (c.1 ∈ a.kept.1 → b.LeadsShortly G steps c y) ∧ a.Follows G b steps y c := by
  obtain ⟨q, hq, hrun⟩ := h
  -- both at once: a kept state may be left by a step into a chain, and a chain may stop at a kept
  -- state
  induction steps generalizing c with
  | nil =>
      cases hrun
      have hleads (hmem : q ∈ a.kept.1) : b.LeadsShortly G [] (q, y) y :=
        ⟨[], .nil, q, hfinal q hq hmem, rfl⟩
      exact ⟨hleads, follows_of_final hq hleads⟩
  | cons s steps ih =>
      obtain ⟨c', hstep, hrest⟩ := hrun
      obtain ⟨hleads', hfollows⟩ := ih hrest
      have hleads := leads_of_step hall hclosed hstep hleads' hfollows
      exact ⟨hleads, follows_of_step hstep hleads hfollows⟩

end condensed

/-- The kept states with what is kept of their transitions. -/
def keptAutomaton (a : Automaton) : Automaton :=
  ⟨a.states.filter fun s => a.kept.1.contains s.name, a.kept.2⟩

theorem mem_keptAutomaton {q : State} :
    q ∈ a.keptAutomaton.states ↔ q ∈ a.states ∧ q.name ∈ a.kept.1 := by
  rw [keptAutomaton, List.mem_filter, List.contains_iff_mem]

theorem keptAutomaton_comesFrom (h : a.validate = .ok ()) {u : Transition} (hu : u ∈ a.kept.2) :
    u.label.ComesFrom a.transitions := by
  obtain ⟨s, _, hfrom⟩ := (kept_spec h).1.only u hu
  obtain ⟨t, ht, _, rfl⟩ := mem_compressedFrom.mp hfrom
  exact compressed_comesFrom ht

theorem keptAutomaton_proper (h : a.validate = .ok ()) : State.Proper a.keptAutomaton.states := by
  obtain ⟨_, hstart, _⟩ := kept_spec h
  apply (validate_eq_ok_iff.mp h).1.filter
  intro s _ hname
  rw [hname, List.contains_iff_mem]
  exact hstart

theorem isFinal_keptAutomaton (h : a.validate = .ok ()) {s : StateName} :
    a.keptAutomaton.isFinal s = true ↔ a.isFinal s = true ∧ s ∈ a.kept.1 := by
  rw [isFinal_iff (keptAutomaton_proper h), isFinal_iff (validate_eq_ok_iff.mp h).1]
  constructor
  · intro hstops
    rcases hstops with ⟨q, hq, rfl, hfinal⟩
    obtain ⟨hmem, hkept⟩ := mem_keptAutomaton.mp hq
    exact ⟨⟨q, hmem, rfl, hfinal⟩, hkept⟩
  · intro hends
    rcases hends with ⟨⟨q, hq, rfl, hfinal⟩, hkept⟩
    exact ⟨q, mem_keptAutomaton.mpr ⟨hq, hkept⟩, rfl, hfinal⟩

theorem keptAutomaton_condenses (h : a.validate = .ok ()) : a.keptAutomaton.Condenses a := by
  obtain ⟨hkept, hstart, hall⟩ := kept_spec h
  intro G steps x y haccepts
  have hfinal (s : StateName) (hs : a.isFinal s = true) (hmem : s ∈ a.kept.1) :
      a.keptAutomaton.isFinal s = true := (isFinal_keptAutomaton h).mpr ⟨hs, hmem⟩
  obtain ⟨hleads, _⟩ := leads_compressed hfinal hall hkept.closed (accepts_iff.mp haccepts)
  obtain ⟨short, hshort, hled⟩ := hleads hstart
  exact ⟨short, hshort, accepts_iff.mpr hled⟩

theorem relation_keptAutomaton (h : a.validate = .ok ()) :
    a.keptAutomaton.relation G = a.relation G := by
  obtain ⟨hkept, _, _⟩ := kept_spec h
  funext x y
  apply propext
  refine ⟨?_, (keptAutomaton_condenses h).relation⟩
  rw [relation_eq, relation_eq]
  intro hreach
  rcases hreach with ⟨q, hq, hrun⟩
  have hmoves (c d : StateName × Term) (hmove : a.keptAutomaton.Moves G c d) :
      ReflTransGen (a.Moves G) c d := by
    obtain ⟨u, hu, hsource, htarget, hrelation⟩ := Transition.moves_iff.mp hmove
    obtain ⟨s, _, hfrom⟩ := hkept.only u hu
    obtain ⟨t, ht, _, rfl⟩ := mem_compressedFrom.mp hfrom
    have hsound := compressed_sound ht hrelation
    rwa [← compressed_source, hsource, htarget] at hsound
  exact ⟨q, ((isFinal_keptAutomaton h).mp hq).1, Relation.reflTransGen_closed hmoves _ _ hrun⟩

theorem compress_reduct (h : a.validate = .ok ()) :
    a.compress = .ok a.keptAutomaton ∧ a.keptAutomaton.validate = .ok () ∧
      a.keptAutomaton.IsReductOf a := by
  obtain ⟨hkept, hstart, _⟩ := kept_spec h
  have hnamed {s : StateName} (hs : s ∈ a.kept.1) : ∃ q ∈ a.keptAutomaton.states, q.name = s := by
    obtain ⟨q, hq, rfl⟩ := hkept.named s hs
    exact ⟨q, mem_keptAutomaton.mpr ⟨hq, hs⟩, rfl⟩
  have hts : ∀ u ∈ a.kept.2, u.Proper a.keptAutomaton.states := by
    intro u hu
    obtain ⟨s, hs, hfrom⟩ := hkept.only u hu
    obtain ⟨t, _, rfl, rfl⟩ := mem_compressedFrom.mp hfrom
    refine ⟨compressed_source t ▸ hnamed hs, hnamed (hkept.closed _ hu), ?_⟩
    exact (keptAutomaton_comesFrom h hu).validate fun t ht =>
      ((validate_eq_ok_iff.mp h).2 t ht).label
  obtain ⟨hmake, hvalid⟩ := make_of_proper (keptAutomaton_proper h) hts
  have hinitial : a.keptAutomaton.isFinal start = a.isFinal start := by
    rw [Bool.eq_iff_iff, isFinal_keptAutomaton h]
    exact and_iff_left hstart
  refine ⟨compress_eq_make.trans hmake, hvalid, ?_⟩
  exact .of_labels (fun G => relation_keptAutomaton h) hinitial fun u hu =>
    keptAutomaton_comesFrom h hu

end Automaton

end PropertyPath
