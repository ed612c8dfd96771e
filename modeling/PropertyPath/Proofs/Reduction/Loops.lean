import PropertyPath.Proofs.Reduction.Compression

/-!
# The loops of compression end

The two loops of compression, without a bound on their steps: a chain grows until it stops, and a
queue is worked off until it is empty. On a valid automaton both of them end, also where it goes
round in circles, since a chain passes no state twice and no state is queued twice. What they come
to is what compression computes with the room that it has.
-/
namespace PropertyPath
namespace Automaton
variable {a : Automaton}

/-- What a chain that has passed some states grows to in the end. -/
inductive GrowsTo (a : Automaton) : List StateName → Chain → Chain → Prop
  | kept {passed : List StateName} {c : Chain} : a.isInner c.target = false → GrowsTo a passed c c
  | round {passed : List StateName} {c : Chain} : c.target ∈ passed → GrowsTo a passed c c
  | left {passed : List StateName} {c : Chain} : a.nextChain? c.target = none → GrowsTo a passed c c
  | step {passed : List StateName} {c next d e : Chain} :
      a.isInner c.target = true → c.target ∉ passed →
      a.nextChain? c.target = some next → c.append next = .ok d →
        GrowsTo a (c.target :: passed) d e → GrowsTo a passed c e

/-- What a transition becomes: one that takes a chain grows, and any other one is left as it is. -/
inductive CompressesTo (a : Automaton) : Transition → Transition → Prop
  | chain {t : Transition} {c d : Chain} :
      Chain.ofTransition? t = some c → a.GrowsTo [t.source] c d →
      CompressesTo a t d.toTransition
  | other {t : Transition} : Chain.ofTransition? t = none → CompressesTo a t t

/-- The states that are known in the end, and the transitions that have been found by then. -/
inductive SweepsTo (a : Automaton) :
    List StateName → List StateName → List StateName × List Transition → Prop
  | done {known : List StateName} : SweepsTo a known [] (known, [])
  | step {known queue known' fresh names : List StateName} {s : StateName}
      {us ts : List Transition} :
      List.Forall₂ a.CompressesTo (a.outgoing s) us →
        discover known (us.map (·.target)) = (known', fresh) →
          SweepsTo a known' (queue ++ fresh) (names, ts) →
          SweepsTo a known (s :: queue) (names, us ++ ts)

/-- An inner state is entered, so it is one of the states. -/
theorem named_of_inner (h : a.validate = .ok ()) {s : StateName} (hs : a.isInner s = true) :
    ∃ q ∈ a.states, q.name = s := by
  simp only [isInner, Bool.and_eq_true, beq_iff_eq] at hs
  have hentered : 0 < a.inDegree s := by omega
  rw [inDegree, List.countP_pos_iff] at hentered
  obtain ⟨t, ht, htarget⟩ := hentered
  exact beq_iff_eq.mp htarget ▸ ((validate_eq_ok_iff.mp h).2 t ht).target

/-- The room is never used up: the states that have been passed are different ones. -/
theorem growsTo_followChain (h : a.validate = .ok ()) (room : Nat)
    {passed : List StateName} (c : Chain)
    (hdistinct : passed.Nodup) (hnamed : ∀ s ∈ passed, ∃ q ∈ a.states, q.name = s)
    (hroom : a.states.length < room + passed.length) :
    a.GrowsTo passed c (a.followChain room passed c) := by
  induction room generalizing passed c with
  | zero =>
      have hlength := length_le_of_named hdistinct hnamed
      omega
  | succ room ih =>
      rw [followChain]
      split
      · next hgoes =>
          simp only [Bool.and_eq_true, Bool.not_eq_true', List.contains_eq_mem,
            decide_eq_false_iff_not] at hgoes
          obtain ⟨hinner, hpassed⟩ := hgoes
          cases hnext : a.nextChain? c.target with
          | none => exact .left hnext
          | some next =>
              refine .step hinner hpassed hnext (append_nextChain hnext) (ih _ ?_ ?_ ?_)
              · exact List.nodup_cons.mpr ⟨hpassed, hdistinct⟩
              · exact List.forall_mem_cons.mpr ⟨named_of_inner h hinner, hnamed⟩
              · rw [List.length_cons]
                omega
      · next hstops =>
          cases hinner : a.isInner c.target with
          | false => exact .kept hinner
          | true =>
              apply GrowsTo.round
              simpa [hinner] using hstops

theorem compressesTo_compressed (h : a.validate = .ok ()) {t : Transition}
    (ht : t ∈ a.transitions) :
    a.CompressesTo t (a.compressed t) := by
  rw [compressed]
  split
  · next c hof =>
      refine .chain hof (growsTo_followChain h _ c (List.nodup_singleton _) ?_ ?_)
      · simpa using ((validate_eq_ok_iff.mp h).2 t ht).source
      · simp
  · next hof => exact .other hof

theorem compressesTo_outgoing (h : a.validate = .ok ()) (s : StateName) :
    List.Forall₂ a.CompressesTo (a.outgoing s) (a.compressedFrom s) := by
  rw [compressedFrom, List.forall₂_map_right_iff, List.forall₂_same]
  exact fun t ht => compressesTo_compressed h (mem_outgoing.mp ht).1

theorem sweepsTo_keptFrom (h : a.validate = .ok ()) (room : Nat) {known queue : List StateName}
    (hsweep : a.Sweeping room known queue) :
    a.SweepsTo known queue (a.keptFrom room known queue) := by
  induction room generalizing known queue with
  | zero =>
      obtain ⟨_, hroom⟩ := hsweep.exists_room
      cases hroom
  | succ room ih =>
      cases queue with
      | nil => exact .done
      | cons s queue =>
          obtain ⟨fresh, hdiscover, _, _, hsweep', heq⟩ := hsweep.step h
          rw [heq]
          exact .step (compressesTo_outgoing h s) hdiscover (ih hsweep')

/-- Working off the queue from the initial state on ends with what is kept. -/
theorem sweepsTo_kept (h : a.validate = .ok ()) : a.SweepsTo [start] [start] a.kept :=
  sweepsTo_keptFrom h (a.states.length + 1) (sweeping_start h)

end Automaton

end PropertyPath
