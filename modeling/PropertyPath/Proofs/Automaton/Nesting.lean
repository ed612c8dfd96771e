import PropertyPath.Automaton.Basic

/-!
# Nested automata

How many closures stand within each other, and what it means that every transition takes at least
one edge: no choice and no chain is empty, and no nested automaton accepts the empty walk. What is
to be shown of every label may be shown of those with chains, and of a closure when it holds within
the nested automaton.
-/
namespace PropertyPath

mutual

/-- The greatest number of closures within each other. -/
def Automaton.nesting : Automaton → Nat
  | ⟨_, transitions⟩ => Transition.nestingAll transitions

def Transition.nestingAll : List Transition → Nat
  | [] => 0
  | ⟨_, _, label⟩ :: ts => max (Label.nesting label) (Transition.nestingAll ts)

def Label.nesting : Label → Nat
  | .closure _ nested => Automaton.nesting nested + 1
  | .property _ => 0
  | .sequence _ => 0
  | .alternative _ => 0

end

mutual

/-- No transition can be taken without taking an edge, at any level of nesting. -/
def Automaton.EpsilonFree : Automaton → Prop
  | ⟨_, transitions⟩ => Transition.EpsilonFreeAll transitions

def Transition.EpsilonFreeAll : List Transition → Prop
  | [] => True
  | ⟨_, _, label⟩ :: ts => Label.EpsilonFree label ∧ Transition.EpsilonFreeAll ts

def Label.EpsilonFree : Label → Prop
  | .property _ => True
  | .sequence is => is ≠ []
  | .alternative branches => branches ≠ [] ∧ [] ∉ branches
  | .closure _ nested => nested.isFinal Automaton.start = false ∧ Automaton.EpsilonFree nested

end

theorem Automaton.nesting_le_iff {a : Automaton} {n : Nat} :
    a.nesting ≤ n ↔ ∀ t ∈ a.transitions, t.label.nesting ≤ n := by
  obtain ⟨states, ts⟩ := a
  rw [nesting]
  induction ts with
  | nil => simp [Transition.nestingAll]
  | cons t ts ih =>
      obtain ⟨source, target, label⟩ := t
      rw [Transition.nestingAll, Nat.max_le, ih, List.forall_mem_cons]

theorem Automaton.epsilonFree_iff {a : Automaton} :
    a.EpsilonFree ↔ ∀ t ∈ a.transitions, t.label.EpsilonFree := by
  obtain ⟨states, ts⟩ := a
  rw [EpsilonFree]
  induction ts with
  | nil => simp [Transition.EpsilonFreeAll]
  | cons t ts ih =>
      obtain ⟨source, target, label⟩ := t
      rw [Transition.EpsilonFreeAll, ih, List.forall_mem_cons]

theorem Label.exists_closure_of_branches {l : Label} (h : l.branches? = none) :
    ∃ kind a, l = .closure kind a := by
  cases l with
  | closure kind a => exact ⟨kind, a, rfl⟩
  | _ => cases h

/-- Induction over the closures within each other. -/
@[elab_as_elim]
theorem Label.nested_induction {motive : Label → Prop}
    (branches : ∀ l bs, l.branches? = some bs → motive l)
    (closure : ∀ kind a, (∀ t ∈ a.transitions, motive t.label) → motive (.closure kind a))
    (l : Label) : motive l := by
  have hall : ∀ n (l : Label), l.nesting ≤ n → motive l := by
    intro n
    induction n with
    | zero =>
        intro l hl
        cases l with
        | closure kind a =>
            rw [Label.nesting] at hl
            omega
        | _ => exact branches _ _ rfl
    | succ n ih =>
        intro l hl
        cases l with
        | closure kind a =>
            rw [Label.nesting] at hl
            have hle : ∀ t ∈ a.transitions, t.label.nesting ≤ n :=
              Automaton.nesting_le_iff.mp (by omega)
            exact closure kind a fun t ht => ih t.label (hle t ht)
        | _ => exact branches _ _ rfl
  exact hall l.nesting l (Nat.le_refl _)

theorem Label.epsilonFree_of_branches {l : Label} {branches : List (List Instruction)}
    (h : l.branches? = some branches) : l.EpsilonFree ↔ branches ≠ [] ∧ [] ∉ branches := by
  cases l with
  | property i =>
      cases h
      simp [EpsilonFree]
  | sequence is =>
      cases h
      simp [EpsilonFree, eq_comm]
  | alternative bs =>
      cases h
      rfl
  | closure kind nested => cases h

theorem Label.nesting_of_branches {l : Label} {branches : List (List Instruction)}
    (h : l.branches? = some branches) : l.nesting = 0 := by
  cases l with
  | closure kind nested => cases h
  | _ => rfl

end PropertyPath
