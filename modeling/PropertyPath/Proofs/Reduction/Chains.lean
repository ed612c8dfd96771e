import PropertyPath.Proofs.Outcome
import PropertyPath.Reduction.Compression

/-!
# Chains are never refused

A chain grows by the chain that leaves the state in which it ends, so the two always meet, and what
compression comes to can be said without refusals. This form is the one to reason about.
-/
namespace PropertyPath

namespace Transition

theorem ofTransition_ends {t : Transition} {c : Chain} (h : Chain.ofTransition? t = some c) :
    c.source = t.source ∧ c.target = t.target ∧ t.label.branches? = some [c.instructions] := by
  obtain ⟨source, target, label⟩ := t
  cases label with
  | property i =>
      cases h
      exact ⟨rfl, rfl, rfl⟩
  | sequence is =>
      cases h
      exact ⟨rfl, rfl, rfl⟩
  | alternative branches => cases h
  | closure kind nested => cases h

end Transition

namespace Automaton
variable {a : Automaton}

theorem mem_of_nextChain {s : StateName} {c : Chain} (h : a.nextChain? s = some c) :
    ∃ t ∈ a.transitions, t.source = s ∧ Chain.ofTransition? t = some c := by
  obtain ⟨t, ht, hc⟩ := List.exists_of_findSome?_eq_some h
  rw [mem_outgoing] at ht
  exact ⟨t, ht.1, ht.2, hc⟩

/-- What a chain grows to over at most `room` inner states, none of which it passes twice. -/
def followChain (a : Automaton) : Nat → List StateName → Chain → Chain
  | 0, _, c => c
  | room + 1, passed, c =>
      if a.isInner c.target && !passed.contains c.target then
        match a.nextChain? c.target with
        | some next => followChain a room (c.target :: passed) (c.extend next)
        | none => c
      else c

theorem append_nextChain {c next : Chain} (h : a.nextChain? c.target = some next) :
    c.append next = .ok (c.extend next) := by
  obtain ⟨t, _, hsource, hof⟩ := mem_of_nextChain h
  have hmeet : c.target = next.source :=
    hsource.symm.trans (Transition.ofTransition_ends hof).1.symm
  rw [Chain.append, if_pos hmeet]

theorem growChain_eq (room : Nat) (passed : List StateName) (c : Chain) :
    a.growChain room passed c = .ok (a.followChain room passed c) := by
  induction room generalizing passed c with
  | zero => rfl
  | succ room ih =>
      rw [growChain, followChain]
      split
      · cases hnext : a.nextChain? c.target with
        | none => rfl
        | some next =>
            change (c.append next >>= fun d => a.growChain room (c.target :: passed) d) = _
            rw [append_nextChain hnext]
            exact ih (c.target :: passed) (c.extend next)
      · rfl

/-- A transition with all that can be followed from it. -/
def compressed (a : Automaton) (t : Transition) : Transition :=
  match Chain.ofTransition? t with
  | some c => (a.followChain a.states.length [t.source] c).toTransition
  | none => t

theorem compressTransition_eq (t : Transition) : a.compressTransition t = .ok (a.compressed t) := by
  rw [compressTransition, compressed]
  cases Chain.ofTransition? t with
  | none => rfl
  | some c =>
      change (a.growChain a.states.length [t.source] c >>= _) = _
      rw [growChain_eq]
      rfl

/-- What is kept of the transitions that leave a state. -/
def compressedFrom (a : Automaton) (s : StateName) : List Transition :=
  (a.outgoing s).map a.compressed

theorem compressOutgoing_eq (s : StateName) : a.compressOutgoing s = .ok (a.compressedFrom s) := by
  have hpure : a.compressTransition = fun t => pure (a.compressed t) := funext compressTransition_eq
  rw [compressOutgoing, hpure, List.mapM_pure]
  rfl

/-- The states that are found from a queue of at most `room` kept states, and what is kept of the
transitions that leave them. The known states are those that have ever been queued. -/
def keptFrom (a : Automaton) :
    Nat → List StateName → List StateName → List StateName × List Transition
  | 0, known, _ => (known, [])
  | _, known, [] => (known, [])
  | room + 1, known, s :: queue =>
      let transitions := a.compressedFrom s
      let (known', fresh) := discover known (transitions.map (·.target))
      let (all, rest) := keptFrom a room known' (queue ++ fresh)
      (all, transitions ++ rest)

theorem compressFrom_eq (room : Nat) (known queue : List StateName) :
    a.compressFrom room known queue = .ok (a.keptFrom room known queue) := by
  induction room generalizing known queue with
  | zero => rfl
  | succ room ih =>
      cases queue with
      | nil => rfl
      | cons s queue =>
          rw [compressFrom, compressOutgoing_eq]
          change (a.compressFrom room _ _ >>= _) = _
          rw [ih]
          rfl

/-- The kept states by name, and the transitions between them in the order in which they are
found. -/
def kept (a : Automaton) : List StateName × List Transition :=
  a.keptFrom (a.states.length + 1) [start] [start]

theorem compress_eq_make :
    a.compress = make (a.states.filter fun s => a.kept.1.contains s.name) a.kept.2 := by
  rw [compress, compressFrom_eq]
  rfl

end Automaton

end PropertyPath
