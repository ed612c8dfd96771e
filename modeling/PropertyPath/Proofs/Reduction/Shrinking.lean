import PropertyPath.Proofs.Automaton.Inside
import PropertyPath.Proofs.Reduction.Loops
import PropertyPath.Proofs.Reduction.Passes

/-!
# Passes shrink automata

No pass refuses a valid automaton. What it returns is valid at every level of nesting and has no
state that was not there before, and no more transitions. The invariant of compression: what is
still to be found leaves states that are not known or that are in the queue, and each state is
worked off once.
-/
namespace PropertyPath

theorem countP_add_le {α : Type} {p q r : α → Bool} (hp : ∀ x, p x = true → r x = true)
    (hq : ∀ x, q x = true → r x = true) (hpq : ∀ x, p x = true → q x = false) (l : List α) :
    l.countP p + l.countP q ≤ l.countP r := by
  induction l with
  | nil => simp
  | cons x l ih =>
      have hone : (if p x then 1 else 0) + (if q x then 1 else 0) ≤ if r x then 1 else 0 := by grind
      simp only [List.countP_cons]
      omega

theorem Transition.length_joinParallel (seen : List (StateName × StateName))
    (ts : List Transition) :
    (joinParallel seen ts).length ≤ ts.length := by
  induction ts generalizing seen with
  | nil => exact Nat.le_refl 0
  | cons t ts ih =>
      rw [joinParallel]
      split
      · exact Nat.succ_le_succ (ih seen)
      · split
        · exact Nat.le_succ_of_le (ih seen)
        · exact Nat.succ_le_succ (ih (t.ends :: seen))

namespace Automaton
variable {a b : Automaton}

section found

/-- The number of transitions that leave a state which is not known or is in the queue. -/
def ahead (a : Automaton) (known queue : List StateName) : Nat :=
  a.transitions.countP fun t => !known.contains t.source || queue.contains t.source

theorem length_compressedFrom (s : StateName) : (a.compressedFrom s).length = a.outDegree s := by
  rw [compressedFrom, List.length_map, outgoing, outDegree, List.countP_eq_length_filter]

theorem length_keptFrom (h : a.validate = .ok ()) (room : Nat) {known queue : List StateName}
    (hsweep : a.Sweeping room known queue) :
    (a.keptFrom room known queue).2.length ≤ a.ahead known queue := by
  induction room generalizing known queue with
  | zero => exact Nat.zero_le _
  | succ room ih =>
      cases queue with
      | nil => exact Nat.zero_le _
      | cons s queue =>
          obtain ⟨fresh, _, _, _, hsweep', heq⟩ := hsweep.step h
          have hrest := ih hsweep'
          have hknown : s ∈ known := hsweep.queued List.mem_cons_self
          have hqueue : s ∉ queue := (List.nodup_cons.mp hsweep.once).1
          have hnew : ∀ u ∈ fresh, u ∉ known := fun u hu hmem =>
            (List.nodup_append.mp hsweep'.distinct).2.2 u hmem u hu rfl
          -- transitions that leave `s` are worked off now, and no later ones leave it
          have hsplit : a.outDegree s + a.ahead (known ++ fresh) (queue ++ fresh) ≤
              a.ahead known (s :: queue) := by
            apply countP_add_le
            · intro t ht
              simp [beq_iff_eq.mp ht]
            · intro t ht
              simp only [List.contains_eq_mem, List.mem_append, List.mem_cons, Bool.or_eq_true,
                Bool.not_eq_true', decide_eq_true_eq, decide_eq_false_iff_not, not_or] at ht ⊢
              rcases ht with ht | ht | ht
              · exact Or.inl ht.1
              · exact Or.inr (Or.inr ht)
              · exact Or.inl (hnew t.source ht)
            · intro t ht
              have hnotfresh : s ∉ fresh := fun hs => hnew s hs hknown
              simp [beq_iff_eq.mp ht, hknown, hqueue, hnotfresh]
          rw [heq, List.length_append, length_compressedFrom]
          omega

theorem length_kept (h : a.validate = .ok ()) : a.kept.2.length ≤ a.transitions.length :=
  (length_keptFrom h (a.states.length + 1) (sweeping_start h)).trans List.countP_le_length

end found

/-- The states are some of those that were there before, as they were, and there are no more
transitions than there were. The empty walk is accepted if it was accepted before. -/
structure IsShrunkFrom (b a : Automaton) : Prop where
  states : b.states.Sublist a.states
  transitions : b.transitions.length ≤ a.transitions.length
  nullable : b.isNullable = a.isNullable

theorem IsShrunkFrom.trans {c : Automaton} (h : c.IsShrunkFrom b) (h' : b.IsShrunkFrom a) :
    c.IsShrunkFrom a where
  states := h.states.trans h'.states
  transitions := h.transitions.trans h'.transitions
  nullable := h.nullable.trans h'.nullable

/-- An automaton is shrunk, and so is every automaton within it from one that was within before. -/
structure IsShrunkWithin (b a : Automaton) : Prop where
  top : b.IsShrunkFrom a
  within : ∀ c, b.Includes c → ∃ d, a.Includes d ∧ c.IsShrunkFrom d

theorem IsShrunkWithin.refl (a : Automaton) : a.IsShrunkWithin a :=
  have hrefl (c : Automaton) : c.IsShrunkFrom c := ⟨List.Sublist.refl _, Nat.le_refl _, rfl⟩
  ⟨hrefl a, fun c hc => ⟨c, hc, hrefl c⟩⟩

theorem IsShrunkWithin.trans {c : Automaton} (h : c.IsShrunkWithin b) (h' : b.IsShrunkWithin a) :
    c.IsShrunkWithin a := by
  refine ⟨h.top.trans h'.top, fun d hd => ?_⟩
  obtain ⟨e, he, hshrunk⟩ := h.within d hd
  obtain ⟨f, hf, hshrunk'⟩ := h'.within e he
  exact ⟨f, hf, hshrunk.trans hshrunk'⟩

end Automaton

namespace Pass
open Automaton

theorem states_result (p : Pass) (a : Automaton) : (p.result a).states.Sublist a.states := by
  cases p with
  | pathsCompression => exact List.filter_sublist
  | statesMerging => exact List.filter_sublist
  | pathsMerging => exact List.Sublist.refl _
  | distinctPaths => exact List.Sublist.refl _

theorem length_result (p : Pass) {a : Automaton} (h : a.validate = .ok ()) :
    (p.result a).transitions.length ≤ a.transitions.length := by
  cases p with
  | pathsCompression => exact length_kept h
  | statesMerging =>
      have hle := length_eraseDups_le (a.transitions.map (Partition.image a.blocks))
      rwa [List.length_map] at hle
  | pathsMerging => exact Transition.length_joinParallel [] a.transitions
  | distinctPaths =>
      have hle := length_eraseDups_le (a.transitions.map Transition.distinctBranches)
      rwa [List.length_map] at hle

theorem result_shrunk (p : Pass) {a : Automaton} (h : a.validate = .ok ()) :
    (p.result a).IsShrunkFrom a := by
  obtain ⟨_, hvalid, hreduct⟩ := p.reduceTop_reduct h
  refine ⟨p.states_result a, p.length_result h, ?_⟩
  rw [isNullable_iff hvalid, isNullable_iff h, hreduct.initial]

theorem steps_shrunk (p : Pass) : p.Steps IsShrunkWithin := by
  intro states us ts hvalid hvalid' h
  have htop : (p.result ⟨states, us⟩).IsShrunkFrom ⟨states, ts⟩ :=
    (p.result_shrunk hvalid').trans ⟨List.Sublist.refl _, Nat.le_of_eq h.length_eq, rfl⟩
  refine ⟨htop, fun c hc => ?_⟩
  cases hc with
  | here => exact ⟨_, .here _, htop⟩
  | within hv hlabel hc =>
      obtain ⟨t, ht, a, htlabel, hshrunk⟩ := p.nested_of_lifts hvalid' h hv hlabel
      obtain ⟨d, hd, hcd⟩ := hshrunk.within c hc
      exact ⟨d, .within ht htlabel hd, hcd⟩

end Pass

namespace Automaton

/-- The outcome is an automaton that is valid at every level and shrunk. -/
def ShrinksTo (a : Automaton) (outcome : Except PathFault Automaton) : Prop :=
  ∃ b, outcome = .ok b ∧ (∀ c, b.Includes c → c.validate = .ok ()) ∧ b.IsShrunkWithin a

/-- Neither a pass on its own, on one level or on all of them, nor any passes one after the other
refuse an automaton that can be made. They leave valid automata at every level, and shrink them.
Both loops of compression end. -/
theorem passes_shrink {states : List State} {ts : List Transition} {a : Automaton}
    (h : make states ts = .ok a) :
    (∀ p : Pass, a.ShrinksTo (p.reduceTop a) ∧ a.ShrinksTo (p.reduce a)) ∧
      (∀ passes, a.ShrinksTo (a.optimize passes)) ∧
      ∃ names found, a.SweepsTo [start] [start] (names, found) ∧
        a.compress = make (a.states.filter fun s => names.contains s.name) found := by
  have hvalid := validate_of_make h
  have hshrinks {outcome : Except PathFault Automaton}
      (hb : ∃ b, outcome = .ok b ∧ b.validate = .ok () ∧ b.IsShrunkWithin a) :
      a.ShrinksTo outcome := by
    obtain ⟨b, hb, hbvalid, hshrunk⟩ := hb
    exact ⟨b, hb, fun c hc => hc.validate hbvalid, hshrunk⟩
  refine ⟨fun p => ⟨hshrinks ?_, hshrinks ?_⟩, fun passes => hshrinks ?_, ?_⟩
  · exact p.steps_shrunk.reduceTop IsShrunkWithin.refl hvalid
  · exact p.steps_shrunk.reduce hvalid
  · exact optimize_of_steps IsShrunkWithin.refl IsShrunkWithin.trans Pass.steps_shrunk passes hvalid
  · exact ⟨a.kept.1, a.kept.2, sweepsTo_kept hvalid, compress_eq_make⟩

/-- A chain goes round through the initial state, an inner state is left by a closure only, a state
that is not reached enters one that is, and the nested automaton goes round as well. -/
theorem passes_shrink_of_circles :
    let p : Instruction := .forward ⟨"p"⟩
    let q : Instruction := .backward ⟨"q"⟩
    let nested : Automaton := ⟨[⟨0, true, true⟩, ⟨1, false, false⟩, ⟨2, false, false⟩],
      [⟨0, 1, .property p⟩, ⟨1, 2, .sequence [q, q]⟩, ⟨2, 0, .property q⟩, ⟨2, 0, .property q⟩]⟩
    let states : List State :=
      [⟨0, true, false⟩, ⟨1, false, false⟩, ⟨2, false, false⟩, ⟨3, false, true⟩,
       ⟨4, false, false⟩, ⟨7, false, false⟩]
    let ts : List Transition := [⟨0, 1, .property p⟩, ⟨1, 2, .property q⟩, ⟨2, 0, .sequence [p]⟩,
      ⟨0, 4, .property p⟩, ⟨4, 3, .closure .oneOrMore nested⟩, ⟨7, 3, .alternative [[p], [q], [p]]⟩]
    let a : Automaton := ⟨states, ts⟩
    make states ts = .ok a ∧
      (∀ p : Pass, a.ShrinksTo (p.reduceTop a) ∧ a.ShrinksTo (p.reduce a)) ∧
      a.ShrinksTo (a.optimize Pass.all) ∧
      ∃ names found, a.SweepsTo [start] [start] (names, found) ∧
        a.compress = make (a.states.filter fun s => names.contains s.name) found := by
  intro p q nested states ts a
  have h : make states ts = .ok a := rfl
  obtain ⟨hpasses, hoptimize, hloops⟩ := passes_shrink h
  exact ⟨h, hpasses, hoptimize Pass.all, hloops⟩

end Automaton

end PropertyPath
