import PropertyPath.Automaton.Basic

/-!
# Valid automata

An automaton is valid when its states are listed by strictly ascending name, the first of them is
its only initial state and is named `0`, every transition joins two of its states, and every nested
automaton is valid. `validate` tells the first of these rules that is broken; `make` sorts the given
states by name and refuses what is not valid then.
-/
namespace PropertyPath

namespace State

/-- Puts a state before the first one whose name is not smaller. -/
def insertByName (s : State) : List State → List State
  | [] => [s]
  | t :: ts => if s.name ≤ t.name then s :: t :: ts else t :: insertByName s ts

/-- The states by ascending name; states of one name keep their order. -/
def sortByName (states : List State) : List State := states.foldr insertByName []

theorem perm_insertByName (s : State) (ts : List State) : (insertByName s ts).Perm (s :: ts) := by
  induction ts with
  | nil => exact List.Perm.refl _
  | cons t ts ih =>
      rw [insertByName]
      split
      · exact List.Perm.refl _
      · exact (ih.cons t).trans (List.Perm.swap s t ts)

theorem perm_sortByName (states : List State) : (sortByName states).Perm states := by
  induction states with
  | nil => exact List.Perm.refl _
  | cons s ss ih => exact (perm_insertByName s (sortByName ss)).trans (ih.cons s)

theorem pairwise_insertByName {s : State} {ts : List State}
    (h : ts.Pairwise fun a b => a.name ≤ b.name) :
    (insertByName s ts).Pairwise fun a b => a.name ≤ b.name := by
  induction ts with
  | nil => exact List.Pairwise.cons (by simp) List.Pairwise.nil
  | cons t ts ih =>
      rw [List.pairwise_cons] at h
      rw [insertByName]
      split
      · next hst =>
          refine List.Pairwise.cons ?_ (List.Pairwise.cons h.1 h.2)
          intro u hu
          rcases List.mem_cons.mp hu with rfl | hu
          · exact hst
          · exact Nat.le_trans hst (h.1 u hu)
      · next hst =>
          refine List.Pairwise.cons ?_ (ih h.2)
          intro u hu
          rcases List.mem_cons.mp ((perm_insertByName s ts).mem_iff.mp hu) with rfl | hu
          · exact Nat.le_of_not_le hst
          · exact h.1 u hu

theorem pairwise_sortByName (states : List State) :
    (sortByName states).Pairwise fun a b => a.name ≤ b.name := by
  induction states with
  | nil => exact List.Pairwise.nil
  | cons s ss ih => exact pairwise_insertByName ih

/-- The first name that does not exceed the name before it. -/
def repeatedName? : List State → Option StateName
  | s :: t :: rest => if s.name < t.name then repeatedName? (t :: rest) else some t.name
  | _ => none

theorem repeatedName?_eq_none_iff {states : List State} :
    repeatedName? states = none ↔ states.Pairwise fun a b => a.name < b.name := by
  induction states with
  | nil => simp [repeatedName?]
  | cons s ss ih =>
      cases ss with
      | nil => simp [repeatedName?]
      | cons t rest =>
          rw [repeatedName?, List.pairwise_cons]
          split
          · next hst =>
              rw [ih]
              constructor
              · intro h
                refine ⟨?_, h⟩
                intro u hu
                rcases List.mem_cons.mp hu with rfl | hu
                · exact hst
                · exact Nat.lt_trans hst ((List.pairwise_cons.mp h).1 u hu)
              · exact And.right
          · next hst =>
              simp only [reduceCtorEq, false_iff, not_and]
              exact fun h => absurd (h t List.mem_cons_self) hst

end State

/-- The rules on the states alone. -/
def State.check (states : List State) : Except PathFault Unit :=
  match State.repeatedName? states with
  | some name => .error (.duplicateState name)
  | none =>
      let initials := (states.filter (·.isInitial)).length
      if initials ≠ 1 then .error (.initialCount initials)
      else if states.head?.any fun s => s.isInitial && s.name == Automaton.start then .ok ()
      else .error .initialName

/-- An end of a transition has to be one of the states. -/
def State.checkEnd (states : List State) (name : StateName) : Except PathFault Unit :=
  if states.any (·.name == name) then .ok () else .error (.unknownState name)

mutual

def Automaton.validate : Automaton → Except PathFault Unit
  | ⟨states, transitions⟩ => do
      State.check states
      Transition.validateAll states transitions

def Transition.validateAll (states : List State) : List Transition → Except PathFault Unit
  | [] => .ok ()
  | ⟨source, target, label⟩ :: ts => do
      State.checkEnd states source
      State.checkEnd states target
      Label.validate label
      Transition.validateAll states ts

def Label.validate : Label → Except PathFault Unit
  | .closure _ nested => Automaton.validate nested
  | .property _ => .ok ()
  | .sequence _ => .ok ()
  | .alternative _ => .ok ()

end

namespace Automaton

/-- The automaton of the given states, in any order, and the given transitions. -/
def make (states : List State) (transitions : List Transition) : Except PathFault Automaton := do
  let a : Automaton := ⟨State.sortByName states, transitions⟩
  a.validate
  return a

end Automaton

end PropertyPath
