import PropertyPath.Proofs.Automaton.Nesting
import PropertyPath.Proofs.Automaton.Validity

/-!
# What stands within an automaton

An automaton includes itself and all automata behind its closures, at any level. What is asked of
every level, that an automaton is in order or that it takes no step without an edge, holds of all
that it includes. Its breadth is the greatest number of states that any of them has.
-/
namespace PropertyPath

/-- The second automaton is the first one, or it is nested in it at some level. -/
inductive Automaton.Includes : Automaton → Automaton → Prop
  | here (a : Automaton) : Includes a a
  | within {a b c : Automaton} {t : Transition} {kind : Closure} :
      t ∈ a.transitions → t.label = .closure kind b → Includes b c → Includes a c

mutual

/-- The greatest number of states of the automaton, or of one that is nested in it. -/
def Automaton.breadth : Automaton → Nat
  | ⟨states, transitions⟩ => max states.length (Transition.breadthAll transitions)

def Transition.breadthAll : List Transition → Nat
  | [] => 0
  | ⟨_, _, label⟩ :: ts => max (Label.breadth label) (Transition.breadthAll ts)

def Label.breadth : Label → Nat
  | .closure _ nested => Automaton.breadth nested
  | .property _ => 0
  | .sequence _ => 0
  | .alternative _ => 0

end

namespace Automaton
variable {a b : Automaton}

theorem breadth_le_iff {n : Nat} : a.breadth ≤ n ↔
    a.states.length ≤ n ∧ ∀ t ∈ a.transitions, t.label.breadth ≤ n := by
  obtain ⟨states, ts⟩ := a
  rw [breadth, Nat.max_le]
  refine and_congr_right fun _ => ?_
  induction ts with
  | nil => simp [Transition.breadthAll]
  | cons t ts ih =>
      obtain ⟨source, target, label⟩ := t
      rw [Transition.breadthAll, Nat.max_le, ih, List.forall_mem_cons]

theorem breadth_label_le {t : Transition} (ht : t ∈ a.transitions) : t.label.breadth ≤ a.breadth :=
  (breadth_le_iff.mp (Nat.le_refl a.breadth)).2 t ht

theorem states_le_breadth (a : Automaton) : a.states.length ≤ a.breadth :=
  (breadth_le_iff.mp (Nat.le_refl a.breadth)).1

theorem Includes.validate (h : a.Includes b) (ha : a.validate = .ok ()) : b.validate = .ok () := by
  induction h with
  | here a => exact ha
  | within ht hlabel _ ih =>
      have hproper := ((validate_eq_ok_iff.mp ha).2 _ ht).label
      rw [hlabel] at hproper
      exact ih hproper

theorem Includes.epsilonFree (h : a.Includes b) (ha : a.EpsilonFree) : b.EpsilonFree := by
  induction h with
  | here a => exact ha
  | within ht hlabel _ ih =>
      have hlabels := epsilonFree_iff.mp ha _ ht
      rw [hlabel] at hlabels
      exact ih hlabels.2

/-- No choice and no chain is empty, wherever it stands. -/
theorem EpsilonFree.branches (h : a.EpsilonFree) (hb : a.Includes b) {t : Transition}
    (ht : t ∈ b.transitions) {branches : List (List Instruction)}
    (hbranches : t.label.branches? = some branches) : branches ≠ [] ∧ [] ∉ branches :=
  (Label.epsilonFree_of_branches hbranches).mp (epsilonFree_iff.mp (hb.epsilonFree h) t ht)

end Automaton

end PropertyPath
