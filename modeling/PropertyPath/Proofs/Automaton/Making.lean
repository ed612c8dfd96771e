import Mathlib.Order.Bounds.Basic
import PropertyPath.Proofs.Automaton.Nesting
import PropertyPath.Proofs.Automaton.Validity

/-!
# What automata are made of

States in any order and transitions make an automaton exactly when no name is given twice, one state
is initial, this state is named `0`, every transition joins two of the states, and every nested
automaton is valid. The automaton has the given states by ascending name and the given transitions,
and a name is looked up in it by any search that halves the states. Otherwise the first of these
rules that is broken is told, and of the transitions the first that breaks one.
-/
namespace PropertyPath

namespace State

/-- Exactly one state is initial, and it is named `0`. -/
def OneInitial (states : List State) : Prop :=
  ∃ s, states.filter (·.isInitial) = [s] ∧ s.name = Automaton.start

/-- One of the states has the name. -/
def Has (states : List State) (name : StateName) : Prop := ∃ s ∈ states, s.name = name

/-- The names that more than one state has. -/
def Repeated (states : List State) : Set StateName := {name | 2 ≤ (states.map (·.name)).count name}

/-- What is told of states that have not exactly one initial state, or not under its name. -/
def initialFault (states : List State) : PathFault :=
  if (states.filter (·.isInitial)).length = 1 then .initialName
  else .initialCount (states.filter (·.isInitial)).length

/-- A search for a name that compares it with the name of one state, whichever this is, and goes on
with the states before it or with those after it. -/
inductive Bisects (name : StateName) : List State → Option State → Prop
  | missed : Bisects name [] none
  | found {before after : List State} {s : State} : s.name = name →
      Bisects name (before ++ s :: after) (some s)
  | before {before after : List State} {s : State} {result : Option State} : name < s.name →
      Bisects name before result → Bisects name (before ++ s :: after) result
  | after {before after : List State} {s : State} {result : Option State} : s.name < name →
      Bisects name after result → Bisects name (before ++ s :: after) result

variable {states : List State}

theorem proper_iff :
    Proper states ↔ (states.Pairwise fun s t => s.name < t.name) ∧ OneInitial states := by
  constructor
  · intro h
    obtain ⟨final, rest, rfl, hrest⟩ := h.headed
    have hnone : rest.filter (·.isInitial) = [] := by simpa using hrest
    exact ⟨h.ascending, _, by rw [List.filter_cons_of_pos rfl, hnone], rfl⟩
  · rintro ⟨hascending, s, hs, hname⟩
    refine ⟨hascending, ?_⟩
    obtain ⟨hmem, hinitial⟩ := List.mem_filter.mp (hs ▸ List.mem_singleton_self s)
    cases states with
    | nil => cases hmem
    | cons t rest =>
        rcases List.mem_cons.mp hmem with rfl | hmem
        · rw [List.filter_cons_of_pos hinitial, List.cons.injEq] at hs
          -- Only whether the state is final is left open.
          obtain ⟨name, initial, final⟩ := s
          cases hname
          cases hinitial
          exact ⟨final, rest, rfl, by simpa using hs.2⟩
        · -- No state comes before the one that is named `0`.
          have hlt := (List.pairwise_cons.mp hascending).1 s hmem
          rw [hname] at hlt
          exact absurd hlt (Nat.not_lt_zero _)

theorem oneInitial_sortByName : OneInitial (sortByName states) ↔ OneInitial states := by
  have hperm := (perm_sortByName states).filter (·.isInitial)
  constructor
  · rintro ⟨s, hs, hname⟩
    rw [hs] at hperm
    exact ⟨s, hperm.singleton_eq.symm, hname⟩
  · rintro ⟨s, hs, hname⟩
    rw [hs] at hperm
    exact ⟨s, hperm.eq_singleton, hname⟩

theorem repeated_sortByName : Repeated (sortByName states) = Repeated states := by
  ext name
  change 2 ≤ _ ↔ 2 ≤ _
  rw [((perm_sortByName states).map (·.name)).count_eq]

theorem initialFault_sortByName : initialFault (sortByName states) = initialFault states := by
  rw [initialFault, initialFault, ((perm_sortByName states).filter (·.isInitial)).length_eq]

/-- Sorting leaves nothing but equal names to be refused. -/
theorem ascending_sortByName :
    ((sortByName states).Pairwise fun s t => s.name < t.name) ↔ (states.map (·.name)).Nodup := by
  rw [← ((perm_sortByName states).map (·.name)).nodup_iff, List.Nodup, List.pairwise_map]
  constructor
  · exact List.Pairwise.imp fun hlt => Nat.ne_of_lt hlt
  · intro hne
    exact ((pairwise_sortByName states).and hne).imp fun h => Nat.lt_of_le_of_ne h.1 h.2

theorem repeated_eq_empty (h : (states.map (·.name)).Nodup) : Repeated states = ∅ := by
  rw [Set.eq_empty_iff_forall_notMem]
  intro name hname
  have hle := List.nodup_iff_count.mp h name
  exact absurd (Nat.le_trans hname hle) (by decide)

theorem count_names_cons (s : State) (states : List State) (name : StateName) :
    ((s :: states).map (·.name)).count name =
      (states.map (·.name)).count name + if s.name = name then 1 else 0 := by
  rw [List.map_cons, List.count_cons]
  simp

/-- A name below all others is not repeated. -/
theorem repeated_cons_of_lt {s : State} (h : ∀ t ∈ states, s.name < t.name) :
    Repeated (s :: states) = Repeated states := by
  ext name
  change 2 ≤ _ ↔ 2 ≤ _
  rw [count_names_cons]
  split
  · next heq =>
      have hnone : (states.map (·.name)).count name = 0 := by
        rw [List.count_eq_zero, List.mem_map]
        rintro ⟨t, ht, hname⟩
        exact absurd (heq.trans hname.symm) (Nat.ne_of_lt (h t ht))
      simp [hnone]
  · rfl

/-- In sorted states the first name that is there twice is the smallest. -/
theorem isLeast_repeatedName (h : states.Pairwise fun s t => s.name ≤ t.name) {name : StateName}
    (hname : repeatedName? states = some name) : IsLeast (Repeated states) name := by
  induction states with
  | nil => cases hname
  | cons s rest ih =>
      cases rest with
      | nil => cases hname
      | cons t rest =>
          rw [List.pairwise_cons] at h
          rw [repeatedName?] at hname
          split at hname
          · next hlt =>
              -- The first name stands alone, so the repeated names are those behind it.
              have hall : ∀ u ∈ t :: rest, s.name < u.name := by
                refine List.forall_mem_cons.mpr ⟨hlt, fun u hu => ?_⟩
                exact Nat.lt_of_lt_of_le hlt ((List.pairwise_cons.mp h.2).1 u hu)
              rw [repeated_cons_of_lt hall]
              exact ih h.2 hname
          · next hnot =>
              cases hname
              -- The first two names are the same, and no other is smaller.
              have heq : s.name = t.name :=
                Nat.le_antisymm (h.1 t List.mem_cons_self) (Nat.le_of_not_lt hnot)
              constructor
              · change 2 ≤ _
                rw [count_names_cons, count_names_cons, if_pos heq, if_pos rfl]
                omega
              · intro e he
                have hmem : e ∈ (s :: t :: rest).map (·.name) :=
                  List.count_pos_iff.mp (Nat.lt_of_lt_of_le Nat.zero_lt_two he)
                obtain ⟨u, hu, rfl⟩ := List.mem_map.mp hmem
                rw [← heq]
                rcases List.mem_cons.mp hu with rfl | hu
                · exact Nat.le_refl _
                · exact h.1 u hu

/-- When the names are in order, only the initial state can be wrong. -/
theorem check_of_ascending (h : states.Pairwise fun s t => s.name < t.name)
    (hone : ¬ OneInitial states) : State.check states = .error (initialFault states) := by
  have hrefused : State.check states ≠ .ok () := by
    rw [Ne, check_eq_ok_iff, proper_iff]
    exact fun hproper => hone hproper.2
  rw [State.check, repeatedName?_eq_none_iff.mpr h] at hrefused ⊢
  change (if (states.filter (·.isInitial)).length ≠ 1 then _ else _) ≠ _ at hrefused
  change (if (states.filter (·.isInitial)).length ≠ 1 then _ else _) = _
  rw [initialFault]
  by_cases hcount : (states.filter (·.isInitial)).length = 1
  · rw [if_neg (not_not_intro hcount)] at hrefused ⊢
    rw [if_pos hcount]
    split
    · next hhead =>
        rw [if_pos hhead] at hrefused
        exact absurd rfl hrefused
    · rfl
  · rw [if_pos hcount, if_neg hcount]

/-- What is told of sorted states: the smallest name that is there twice, or else what is wrong with
the initial state. -/
theorem check_eq_error_iff (h : states.Pairwise fun s t => s.name ≤ t.name) {f : PathFault} :
    State.check states = .error f ↔
      (∃ name, IsLeast (Repeated states) name ∧ f = .duplicateState name) ∨
        (states.Pairwise fun s t => s.name < t.name) ∧ ¬ OneInitial states ∧
        f = initialFault states := by
  cases hrepeated : repeatedName? states with
  | some name =>
      have hleast := isLeast_repeatedName h hrepeated
      have hnot : ¬ states.Pairwise fun s t => s.name < t.name := by
        rw [← repeatedName?_eq_none_iff, hrepeated]
        exact nofun
      rw [State.check, hrepeated]
      constructor
      · intro heq
        cases heq
        exact Or.inl ⟨name, hleast, rfl⟩
      · rintro (⟨other, hother, rfl⟩ | ⟨hascending, _⟩)
        · rw [hleast.unique hother]
        · exact absurd hascending hnot
  | none =>
      have hascending := repeatedName?_eq_none_iff.mp hrepeated
      have hnone : Repeated states = ∅ := by
        refine repeated_eq_empty ?_
        rw [List.Nodup, List.pairwise_map]
        exact hascending.imp fun hlt => Nat.ne_of_lt hlt
      have hleft : ¬ ∃ name, IsLeast (Repeated states) name ∧ f = .duplicateState name := by
        rintro ⟨name, hleast, _⟩
        exact Set.notMem_empty name (hnone ▸ hleast.1)
      rw [or_iff_right hleft]
      by_cases hone : OneInitial states
      · rw [check_eq_ok_iff.mpr (proper_iff.mpr ⟨hascending, hone⟩)]
        exact ⟨nofun, fun h => absurd hone h.2.1⟩
      · rw [check_of_ascending hascending hone, Except.error.injEq]
        exact ⟨fun heq => ⟨hascending, hone, heq.symm⟩, fun h => h.2.2.symm⟩

theorem checkEnd_eq_error_iff {name : StateName} {f : PathFault} :
    State.checkEnd states name = .error f ↔ ¬ Has states name ∧ f = .unknownState name := by
  rw [Has, ← checkEnd_eq_ok_iff, State.checkEnd]
  split <;> simp [eq_comm]

section lookup
variable {name : StateName} {before after : List State} {s : State}

theorem find?_eq_none_of_lt (h : ∀ s ∈ states, name < s.name) :
    states.find? (·.name == name) = none := by
  rw [List.find?_eq_none]
  intro s hs
  simpa using Nat.ne_of_gt (h s hs)

theorem find?_eq_none_of_gt (h : ∀ s ∈ states, s.name < name) :
    states.find? (·.name == name) = none := by
  rw [List.find?_eq_none]
  intro s hs
  simpa using Nat.ne_of_lt (h s hs)

/-- Among states that are listed by name, every search that halves them finds what a look at all of
them finds. -/
theorem bisects_iff (h : states.Pairwise fun s t => s.name < t.name) {result : Option State} :
    Bisects name states result ↔ states.find? (·.name == name) = result := by
  constructor
  · intro hsearch
    induction hsearch with
    | missed => rfl
    | @found before after s hs =>
        have hbefore : before.find? (·.name == name) = none :=
          find?_eq_none_of_gt fun t ht =>
            hs ▸ (List.pairwise_append.mp h).2.2 t ht s List.mem_cons_self
        rw [List.find?_append, hbefore, Option.none_or, List.find?_cons_of_pos (by simpa using hs)]
    | @before before after s result hlt _ ih =>
        obtain ⟨hbefore, hafter, _⟩ := List.pairwise_append.mp h
        have hnone : (s :: after).find? (·.name == name) = none := by
          refine find?_eq_none_of_lt (List.forall_mem_cons.mpr ⟨hlt, fun t ht => ?_⟩)
          exact Nat.lt_trans hlt ((List.pairwise_cons.mp hafter).1 t ht)
        rw [List.find?_append, hnone, Option.or_none, ih hbefore]
    | @after before after s result hlt _ ih =>
        obtain ⟨_, hafter, hcross⟩ := List.pairwise_append.mp h
        have hnone : before.find? (·.name == name) = none :=
          find?_eq_none_of_gt fun t ht => Nat.lt_trans (hcross t ht s List.mem_cons_self) hlt
        rw [List.find?_append, hnone, Option.none_or,
          List.find?_cons_of_neg (by simpa using Nat.ne_of_lt hlt),
          ih (List.pairwise_cons.mp hafter).2]
  · -- One of the searches looks at the first state each time.
    rintro rfl
    induction states with
    | nil => exact .missed
    | cons s rest ih =>
        obtain ⟨hrest, hascending⟩ := List.pairwise_cons.mp h
        rcases Nat.lt_trichotomy s.name name with hlt | heq | hgt
        · rw [List.find?_cons_of_neg (by simpa using Nat.ne_of_lt hlt)]
          exact @Bisects.after name [] rest s _ hlt (ih hascending)
        · rw [List.find?_cons_of_pos (by simpa using heq)]
          exact @Bisects.found name [] rest s heq
        · have hnone : (s :: rest).find? (·.name == name) = none := by
            refine find?_eq_none_of_lt (List.forall_mem_cons.mpr ⟨hgt, fun t ht => ?_⟩)
            exact Nat.lt_trans hgt (hrest t ht)
          rw [hnone]
          exact @Bisects.before name [] rest s _ hgt .missed

end lookup

end State

/-- The states are in order, every transition joins two of them, and every nested automaton is
valid. -/
inductive Automaton.Valid : Automaton → Prop
  | intro {a : Automaton} (states : State.Proper a.states)
      (source : ∀ t ∈ a.transitions, State.Has a.states t.source)
      (target : ∀ t ∈ a.transitions, State.Has a.states t.target)
      (nested : ∀ t ∈ a.transitions, ∀ kind b, t.label = .closure kind b → Valid b) : Valid a

theorem Label.validate_eq_ok_iff (l : Label) :
    l.validate = .ok () ↔ ∀ kind a, l = .closure kind a → a.Valid := by
  induction l using Label.nested_induction with
  | branches l bs hl =>
      refine iff_of_true (Label.validate_of_branches hl) ?_
      rintro kind a rfl
      cases hl
  | closure kind a ih =>
      have hclosure : (Label.closure kind a).validate = a.validate := rfl
      rw [hclosure, Automaton.validate_eq_ok_iff]
      constructor
      · rintro ⟨hstates, hts⟩ _ _ heq
        cases heq
        exact .intro hstates (fun t ht => (hts t ht).source) (fun t ht => (hts t ht).target)
          fun t ht => (ih t ht).mp (hts t ht).label
      · intro h
        cases h kind a rfl with
        | intro hstates hsource htarget hnested =>
            exact ⟨hstates, fun t ht => ⟨hsource t ht, htarget t ht, (ih t ht).mpr (hnested t ht)⟩⟩

theorem Automaton.valid_iff {a : Automaton} : a.Valid ↔ a.validate = .ok () := by
  have hlabel : (Label.closure .zeroOrMore a).validate = a.validate := rfl
  rw [← hlabel, Label.validate_eq_ok_iff]
  constructor
  · rintro h _ _ heq
    cases heq
    exact h
  · exact fun h => h _ a rfl

namespace Transition

/-- Both ends have names that there are, and what is nested is valid. -/
structure Admissible (named : StateName → Prop) (t : Transition) : Prop where
  source : named t.source
  target : named t.target
  nested : ∀ kind a, t.label = .closure kind a → a.Valid

/-- What is told of a transition: its source, else its target, if there is no such name, else what
is told of the automaton that is nested in it. -/
inductive Offends (named : StateName → Prop) (t : Transition) : PathFault → Prop
  | source : ¬ named t.source → Offends named t (.unknownState t.source)
  | target : named t.source → ¬ named t.target → Offends named t (.unknownState t.target)
  | nested {kind : Closure} {a : Automaton} {f : PathFault} : named t.source → named t.target →
      t.label = .closure kind a → a.validate = .error f → Offends named t f

variable {states : List State} {ts : List Transition}

theorem proper_iff {t : Transition} : t.Proper states ↔ t.Admissible (State.Has states) := by
  constructor
  · rintro ⟨hsource, htarget, hlabel⟩
    exact ⟨hsource, htarget, (Label.validate_eq_ok_iff _).mp hlabel⟩
  · rintro ⟨hsource, htarget, hnested⟩
    exact ⟨hsource, htarget, (Label.validate_eq_ok_iff _).mpr hnested⟩

theorem label_validate_eq_error_iff {l : Label} {f : PathFault} :
    l.validate = .error f ↔ ∃ kind a, l = .closure kind a ∧ a.validate = .error f := by
  cases l with
  | closure kind a =>
      have hclosure : (Label.closure kind a).validate = a.validate := rfl
      simp [hclosure]
  | _ => exact ⟨nofun, nofun⟩

/-- A transition is refused for what is told of it, or it is fine and one of those behind it is
refused. -/
theorem validateAll_cons_eq_error_iff {t : Transition} {f : PathFault} :
    validateAll states (t :: ts) = .error f ↔
      t.Offends (State.Has states) f ∨
      t.Admissible (State.Has states) ∧ validateAll states ts = .error f := by
  obtain ⟨source, target, label⟩ := t
  simp only [validateAll, check_bind_eq_error_iff, State.checkEnd_eq_error_iff,
    State.checkEnd_eq_ok_iff,
    label_validate_eq_error_iff, Label.validate_eq_ok_iff]
  constructor
  · rintro (⟨hnone, rfl⟩ |
      ⟨hsource, ⟨hnone, rfl⟩ | ⟨htarget, ⟨kind, a, rfl, ha⟩ | ⟨hnested, hrest⟩⟩⟩)
    · exact Or.inl (.source hnone)
    · exact Or.inl (.target hsource hnone)
    · exact Or.inl (.nested hsource htarget rfl ha)
    · exact Or.inr ⟨⟨hsource, htarget, hnested⟩, hrest⟩
  · rintro (h | ⟨⟨hsource, htarget, hnested⟩, hrest⟩)
    · cases h with
      | source hnone => exact Or.inl ⟨hnone, rfl⟩
      | target hsource hnone => exact Or.inr ⟨hsource, Or.inl ⟨hnone, rfl⟩⟩
      | nested hsource htarget hlabel ha =>
          exact Or.inr ⟨hsource, Or.inr ⟨htarget, Or.inl ⟨_, _, hlabel, ha⟩⟩⟩
    · exact Or.inr ⟨hsource, Or.inr ⟨htarget, Or.inr ⟨hnested, hrest⟩⟩⟩

/-- Transitions are refused for what is told of the first of them that is not admissible. -/
theorem validateAll_eq_error_iff {f : PathFault} :
    validateAll states ts = .error f ↔ ∃ before t after, ts = before ++ t :: after ∧
      (∀ u ∈ before, u.Admissible (State.Has states)) ∧ t.Offends (State.Has states) f := by
  induction ts with
  | nil => simp [validateAll]
  | cons t ts ih =>
      rw [validateAll_cons_eq_error_iff, ih]
      constructor
      · rintro (h | ⟨ht, before, u, after, rfl, hbefore, hu⟩)
        · exact ⟨[], t, ts, rfl, List.forall_mem_nil _, h⟩
        · exact ⟨t :: before, u, after, rfl, List.forall_mem_cons.mpr ⟨ht, hbefore⟩, hu⟩
      · rintro ⟨before, u, after, heq, hbefore, hu⟩
        cases before with
        | nil =>
            cases heq
            exact Or.inl hu
        | cons v before =>
            cases heq
            obtain ⟨hv, hbefore⟩ := List.forall_mem_cons.mp hbefore
            exact Or.inr ⟨hv, before, u, after, rfl, hbefore, hu⟩

end Transition

namespace Automaton
variable {states : List State} {ts : List Transition}

theorem has_sortByName : State.Has (State.sortByName states) = State.Has states := by
  funext name
  simp only [State.Has, (State.perm_sortByName states).mem_iff]

theorem make_eq_ok_iff {a : Automaton} :
    make states ts = .ok a ↔ a = ⟨State.sortByName states, ts⟩ ∧ (states.map (·.name)).Nodup ∧
      State.OneInitial states ∧ ∀ t ∈ ts, t.Admissible (State.Has states) := by
  simp only [make, check_bind_eq_ok_iff, pure_eq_ok_iff, validate_eq_ok_iff, State.proper_iff,
    State.ascending_sortByName, State.oneInitial_sortByName, Transition.proper_iff, has_sortByName]
  constructor
  · rintro ⟨⟨⟨hnodup, hone⟩, hts⟩, rfl⟩
    exact ⟨rfl, hnodup, hone, hts⟩
  · rintro ⟨rfl, hnodup, hone, hts⟩
    exact ⟨⟨⟨hnodup, hone⟩, hts⟩, rfl⟩

theorem make_eq_error_iff {f : PathFault} :
    make states ts = .error f ↔
      (∃ name, IsLeast (State.Repeated states) name ∧ f = .duplicateState name) ∨
      (states.map (·.name)).Nodup ∧ ¬ State.OneInitial states ∧ f = State.initialFault states ∨
      (states.map (·.name)).Nodup ∧ State.OneInitial states ∧ ∃ before t after,
        ts = before ++ t :: after ∧ (∀ u ∈ before, u.Admissible (State.Has states)) ∧
          t.Offends (State.Has states) f := by
  have hpure : (pure ⟨State.sortByName states, ts⟩ : Except PathFault Automaton) ≠ .error f := nofun
  simp only [make, check_bind_eq_error_iff, validate, hpure, and_false, or_false,
    State.check_eq_error_iff (State.pairwise_sortByName states),
    State.check_eq_ok_iff, State.proper_iff,
    Transition.validateAll_eq_error_iff, State.ascending_sortByName, State.oneInitial_sortByName,
    State.repeated_sortByName, State.initialFault_sortByName, has_sortByName,
    or_assoc, and_assoc]

/-- States in any order and transitions make an automaton exactly when the names are different, one
state is initial and named `0`, and each transition joins two of the states and nests what is valid.
What is made has the states by name, the transitions as they are, the initial state first, and for
every name the state of this name, by whichever bisection it is looked up. What is refused is
refused for the smallest name that is repeated, else for the initial states, else for the first
transition that breaks a rule. -/
theorem make_outcome (states : List State) (ts : List Transition) :
    ((∃ a, make states ts = .ok a) ↔ (states.map (·.name)).Nodup ∧ State.OneInitial states ∧
      ∀ t ∈ ts, t.Admissible (State.Has states)) ∧
    (∀ a, make states ts = .ok a →
      (a.states.Perm states ∧ a.states.Pairwise fun s t => s.name < t.name) ∧ a.transitions = ts ∧
      (∃ s, a.initial? = some s ∧ s.name = start ∧ ∀ t ∈ states, t.isInitial = true ↔ t = s) ∧
      ∀ name, (∀ s, a.state? name = some s ↔ s ∈ states ∧ s.name = name) ∧
        ∀ result, State.Bisects name a.states result ↔ a.state? name = result) ∧
    ∀ f, make states ts = .error f ↔
      (∃ name, IsLeast (State.Repeated states) name ∧ f = .duplicateState name) ∨
      (states.map (·.name)).Nodup ∧ ¬ State.OneInitial states ∧ f = State.initialFault states ∨
      (states.map (·.name)).Nodup ∧ State.OneInitial states ∧ ∃ before t after,
        ts = before ++ t :: after ∧ (∀ u ∈ before, u.Admissible (State.Has states)) ∧
          t.Offends (State.Has states) f := by
  refine ⟨by simp only [make_eq_ok_iff, exists_and_right, exists_eq, true_and], ?_,
    fun f => make_eq_error_iff⟩
  intro a ha
  obtain ⟨rfl, hnodup, hone, _⟩ := make_eq_ok_iff.mp ha
  have hascending := State.ascending_sortByName.mpr hnodup
  have hperm := State.perm_sortByName states
  have hproper := State.proper_iff.mpr ⟨hascending, State.oneInitial_sortByName.mpr hone⟩
  refine ⟨⟨hperm, hascending⟩, rfl, ?_,
    fun name => ⟨fun s => ?_, fun result => State.bisects_iff hascending⟩⟩
  · obtain ⟨final, rest, hstates, _⟩ := hproper.headed
    refine ⟨⟨start, true, final⟩, by rw [initial?, hstates]; rfl, rfl, fun t ht => ?_⟩
    have hhead : (⟨start, true, final⟩ : State) ∈ State.sortByName states :=
      hstates ▸ List.mem_cons_self
    have ht' := hperm.mem_iff.mpr ht
    rw [hproper.isInitial_iff ht']
    exact ⟨fun hname => hproper.name_inj ht' hhead hname, fun heq => heq ▸ rfl⟩
  · rw [state?, ← hperm.mem_iff]
    constructor
    · intro hs
      exact ⟨List.mem_of_find?_eq_some hs, by simpa using List.find?_some hs⟩
    · rintro ⟨hs, rfl⟩
      rw [← State.bisects_iff hascending]
      obtain ⟨before, after, hsplit⟩ := List.append_of_mem hs
      rw [hsplit]
      exact .found rfl

/-- Two states in the wrong order are put in order, and a second transition that leads out of them
is told. -/
theorem make_outcome_swapped :
    (∃ a, make [⟨1, false, true⟩, ⟨0, true, false⟩]
        [⟨0, 1, .closure .zeroOrMore ⟨[⟨0, true, true⟩], []⟩⟩] = .ok a ∧
      a.state? 1 = some ⟨1, false, true⟩ ∧ State.Bisects 2 a.states none) ∧
    make [⟨1, false, true⟩, ⟨0, true, false⟩] [⟨0, 1, .alternative []⟩, ⟨1, 2, .alternative []⟩] =
      .error (.unknownState 2) := by
  have hone : State.OneInitial [⟨1, false, true⟩, ⟨0, true, false⟩] := ⟨⟨0, true, false⟩, rfl, rfl⟩
  have hzero : State.Has [⟨1, false, true⟩, ⟨0, true, false⟩] 0 := ⟨⟨0, true, false⟩, by simp, rfl⟩
  have hfirst : State.Has [⟨1, false, true⟩, ⟨0, true, false⟩] 1 := ⟨⟨1, false, true⟩, by simp, rfl⟩
  have hsecond : ¬ State.Has [⟨1, false, true⟩, ⟨0, true, false⟩] 2 := by simp [State.Has]
  constructor
  · have hnested : Valid ⟨[⟨0, true, true⟩], []⟩ := valid_iff.mpr rfl
    obtain ⟨hmade, hparts, _⟩ := make_outcome [⟨1, false, true⟩, ⟨0, true, false⟩]
      [⟨0, 1, .closure .zeroOrMore ⟨[⟨0, true, true⟩], []⟩⟩]
    obtain ⟨a, ha⟩ := hmade.mpr ⟨by decide, hone, List.forall_mem_singleton.mpr
      ⟨hzero, hfirst, fun _ _ heq => by cases heq; exact hnested⟩⟩
    obtain ⟨_, _, _, hlookup⟩ := hparts a ha
    refine ⟨a, ha, ((hlookup 1).1 _).mpr ⟨by simp, rfl⟩, ((hlookup 2).2 none).mpr ?_⟩
    rw [Option.eq_none_iff_forall_ne_some]
    intro s hs
    exact hsecond ⟨s, ((hlookup 2).1 s).mp hs⟩
  · refine ((make_outcome _ _).2.2 _).mpr
      (Or.inr (Or.inr ⟨by decide, hone, [⟨0, 1, .alternative []⟩],
      ⟨1, 2, .alternative []⟩, [], rfl, ?_, .target hfirst hsecond⟩))
    exact List.forall_mem_singleton.mpr ⟨hzero, hfirst, nofun⟩

end Automaton

end PropertyPath
