import PropertyPath.Proofs.Reduction.NormalForm

/-!
# The transitions along a chain

Compression puts together the transitions that it follows, and what it makes of them ends where the
last of them ends. A transition between reached states is followed from a kept state: the states
that are left out are inner, and an inner state is left by one transition, which goes on where the
chain has come to.
-/
namespace PropertyPath
namespace Automaton
open Relation (ReflTransGen)
variable {a : Automaton}

/-- The transition that leaves the state with a chain, if one does. -/
def follower? (a : Automaton) (s : StateName) : Option Transition :=
  (a.outgoing s).find? fun t => (Chain.ofTransition? t).isSome

theorem nextChain_eq (s : StateName) :
    a.nextChain? s = (a.follower? s).bind Chain.ofTransition? := by
  rw [nextChain?, follower?]
  induction a.outgoing s with
  | nil => rfl
  | cons t ts ih =>
      cases hof : Chain.ofTransition? t with
      | none => simpa [hof] using ih
      | some c => simp [hof]

/-- The last transition that is followed from one on, over at most `room` inner states, none of
which is passed twice. -/
def lastFollowed (a : Automaton) : Nat → List StateName → Transition → Transition
  | 0, _, t => t
  | room + 1, passed, t =>
      if a.isInner t.target && !passed.contains t.target then
        match a.follower? t.target with
        | some u => lastFollowed a room (t.target :: passed) u
        | none => t
      else t

/-- The last of the transitions that are put together with one. -/
def lastOf (a : Automaton) (t : Transition) : Transition :=
  match Chain.ofTransition? t with
  | some _ => a.lastFollowed a.states.length [t.source] t
  | none => t

/-- Nothing more is followed, or it goes on over the only transition that leaves an inner state. -/
theorem lastFollowed_cases (room : Nat) (passed : List StateName) (t : Transition) :
    a.lastFollowed room passed t = t ∨ a.isInner t.target = true ∧
      ∃ u room', room = room' + 1 ∧ a.outgoing t.target = [u] ∧
        a.lastFollowed room passed t = a.lastFollowed room' (t.target :: passed) u := by
  cases room with
  | zero => exact Or.inl rfl
  | succ room =>
      rw [lastFollowed]
      split
      · next hgoes =>
          rw [Bool.and_eq_true] at hgoes
          cases hnext : a.follower? t.target with
          | none => exact Or.inl rfl
          | some u =>
              obtain ⟨hu, hsource⟩ := mem_outgoing.mp (List.mem_of_find?_eq_some hnext)
              exact Or.inr ⟨hgoes.1, u, room, rfl, outgoing_of_inner hgoes.1 hu hsource, rfl⟩
      · exact Or.inl rfl

/-- The last transition ends where the chain ends that is grown. -/
theorem lastFollowed_target (room : Nat) (passed : List StateName) {t : Transition} {c : Chain}
    (h : t.target = c.target) :
    (a.lastFollowed room passed t).target = (a.followChain room passed c).target := by
  induction room generalizing passed t c with
  | zero => exact h
  | succ room ih =>
      rw [lastFollowed, followChain, h, nextChain_eq]
      split
      · cases hnext : a.follower? c.target with
        | none => exact h
        | some u =>
            have hchain : (Chain.ofTransition? u).isSome := by simpa using List.find?_some hnext
            obtain ⟨next, hof⟩ := Option.isSome_iff_exists.mp hchain
            rw [Option.bind_some, hof]
            exact ih (c.target :: passed) (Transition.ofTransition_ends hof).2.1.symm
      · exact h

theorem lastOf_target (t : Transition) : (a.lastOf t).target = (a.compressed t).target := by
  rw [lastOf, compressed]
  cases hof : Chain.ofTransition? t with
  | none => rfl
  | some c =>
      exact lastFollowed_target a.states.length [t.source]
        (Transition.ofTransition_ends hof).2.1.symm

/-- A transition into a state that is not inner is the last one. -/
theorem lastOf_of_not_inner {t : Transition} (h : a.isInner t.target ≠ true) : a.lastOf t = t := by
  rw [lastOf]
  split
  · exact (lastFollowed_cases a.states.length [t.source] t).resolve_right fun hgoes => h hgoes.1
  · rfl

/-- From the first transition, the second one is followed: what both come to in the end is the
same. -/
structure GoesOver (a : Automaton) (h t : Transition) : Prop where
  mem : t ∈ a.transitions
  last : ∃ room passed, a.lastOf h = a.lastFollowed room passed t

theorem goesOver_self {t : Transition} (ht : t ∈ a.transitions) : a.GoesOver t t := by
  refine ⟨ht, ?_⟩
  rw [lastOf]
  split
  · exact ⟨a.states.length, [t.source], rfl⟩
  · exact ⟨0, [], rfl⟩

/-- What is followed goes on until the last transition. -/
theorem GoesOver.goes_on {h t : Transition} (hover : a.GoesOver h t) :
    a.lastOf h = t ∨
    a.isInner t.target = true ∧ ∃ u, a.outgoing t.target = [u] ∧ a.GoesOver h u := by
  obtain ⟨_, room, passed, hlast⟩ := hover
  refine (lastFollowed_cases room passed t).imp hlast.trans (And.imp_right ?_)
  intro hgoes
  obtain ⟨u, room', _, hout, heq⟩ := hgoes
  have hu : u ∈ a.outgoing t.target := hout ▸ List.mem_singleton_self u
  exact ⟨u, hout, (mem_outgoing.mp hu).1, room', _, hlast.trans heq⟩

/-- From the first transition on, the last one is reached. -/
theorem joins_lastFollowed (room : Nat) (passed : List StateName) (t : Transition) :
    ReflTransGen (Transition.Joins a.transitions) t.target
      (a.lastFollowed room passed t).target := by
  induction room generalizing passed t with
  | zero => exact ReflTransGen.refl
  | succ room ih =>
      rcases lastFollowed_cases (room + 1) passed t with hstop | ⟨_, u, room', hroom, hout, hgo⟩
      · rw [hstop]
      · cases hroom
        rw [hgo]
        have hu : u ∈ a.outgoing t.target := hout ▸ List.mem_singleton_self u
        obtain ⟨hu, hsource⟩ := mem_outgoing.mp hu
        exact ReflTransGen.head ⟨u, hu, hsource, rfl⟩ (ih (t.target :: passed) u)

theorem joins_compressed {t : Transition} (ht : t ∈ a.transitions) :
    ReflTransGen (Transition.Joins a.transitions) t.source (a.compressed t).target := by
  rw [← lastOf_target, lastOf]
  have hfirst : Transition.Joins a.transitions t.source t.target := ⟨t, ht, rfl, rfl⟩
  split
  · exact ReflTransGen.head hfirst (joins_lastFollowed a.states.length [t.source] t)
  · exact ReflTransGen.single hfirst

section kept
variable (h : a.validate = .ok ())
include h

theorem compressed_mem_kept {t : Transition} (ht : t ∈ a.transitions)
    (hsource : t.source ∈ a.kept.1) :
    a.compressed t ∈ a.kept.2 :=
  (kept_spec h).2.2 _ hsource (mem_compressedFrom.mpr ⟨t, ht, rfl, rfl⟩)

/-- What is followed from a kept state ends in a kept state. -/
theorem target_lastOf_mem_kept {t : Transition} (ht : t ∈ a.transitions)
    (hsource : t.source ∈ a.kept.1) :
    (a.lastOf t).target ∈ a.kept.1 := by
  rw [lastOf_target]
  exact (kept_spec h).1.closed _ (compressed_mem_kept h ht hsource)

/-- A transition that leaves a reached state is followed from a kept state: from where it begins, or
over an inner state. -/
theorem exists_goesOver {t : Transition} (ht : t ∈ a.transitions)
    (hreached : ReflTransGen (Transition.Joins a.transitions) start t.source) :
    t.source ∈ a.kept.1 ∨ a.isInner t.source = true ∧
      ∃ u ∈ a.transitions, u.source ∈ a.kept.1 ∧ a.GoesOver u t := by
  generalize hs : t.source = s at hreached
  induction hreached generalizing t with
  | refl => exact Or.inl (kept_spec h).2.1
  | @tail p q hrun hjoins ih =>
      obtain ⟨v, hv, rfl, rfl⟩ := hjoins
      obtain ⟨u, hu, hsource, hover⟩ :
          ∃ u ∈ a.transitions, u.source ∈ a.kept.1 ∧ a.GoesOver u v := by
        rcases ih hv rfl with hsource | ⟨_, hfrom⟩
        · exact ⟨v, hv, hsource, goesOver_self hv⟩
        · exact hfrom
      rcases hover.goes_on with hlast | ⟨hinner, w, hout, hover'⟩
      · exact Or.inl (hlast ▸ target_lastOf_mem_kept h hu hsource)
      · have hmem : t ∈ a.outgoing v.target := mem_outgoing.mpr ⟨ht, hs⟩
        rw [hout, List.mem_singleton] at hmem
        subst hmem
        exact Or.inr ⟨hinner, u, hu, hsource, hover'⟩

/-- Kept states are reached. -/
theorem reached_of_mem_kept {s : StateName} (hs : s ∈ a.kept.1) :
    ReflTransGen (Transition.Joins a.transitions) start s := by
  obtain ⟨k, hk, hrun⟩ := reached_keptFrom h (a.states.length + 1) (sweeping_start h) hs
  rw [List.mem_singleton.mp hk] at hrun
  refine Relation.reflTransGen_closed ?_ _ _ hrun
  rintro _ _ ⟨u, hu, rfl, rfl⟩
  obtain ⟨s, _, hfrom⟩ := (kept_spec h).1.only u hu
  obtain ⟨t, ht, _, rfl⟩ := mem_compressedFrom.mp hfrom
  rw [compressed_source]
  exact joins_compressed ht

end kept

end Automaton

end PropertyPath
