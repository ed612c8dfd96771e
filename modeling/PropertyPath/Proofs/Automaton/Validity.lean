import PropertyPath.Automaton.Valid
import PropertyPath.Proofs.Outcome

/-!
# What a valid automaton looks like

The checks of `validate`, said of the states and of every transition, and the one way to make an
automaton of states that are in order already.
-/
namespace PropertyPath

/-- The states are listed by name, and only the first of them, named `0`, is initial. -/
structure State.Proper (states : List State) : Prop where
  ascending : states.Pairwise fun s t => s.name < t.name
  headed : ∃ final rest, states = ⟨Automaton.start, true, final⟩ :: rest ∧
    ∀ s ∈ rest, s.isInitial = false

namespace State

theorem check_eq_ok_iff {states : List State} : State.check states = .ok () ↔ Proper states := by
  unfold State.check
  cases hrepeated : repeatedName? states with
  | some name =>
      refine ⟨nofun, fun h => ?_⟩
      rw [repeatedName?_eq_none_iff.mpr h.ascending] at hrepeated
      cases hrepeated
  | none =>
      have hascending := repeatedName?_eq_none_iff.mp hrepeated
      change (if (states.filter (·.isInitial)).length ≠ 1 then _ else _) = _ ↔ _
      by_cases hcount : (states.filter (·.isInitial)).length = 1
      · rw [if_neg (not_not_intro hcount)]
        split
        · next hhead =>
            refine ⟨fun _ => ⟨hascending, ?_⟩, fun _ => rfl⟩
            cases states with
            | nil => simp at hhead
            | cons s rest =>
                obtain ⟨name, initial, final⟩ := s
                simp only [List.head?_cons, Option.any_some, Bool.and_eq_true, beq_iff_eq] at hhead
                obtain ⟨rfl, rfl⟩ := hhead
                exact ⟨final, rest, rfl, by simpa using hcount⟩
        · next hhead =>
            refine ⟨nofun, fun h => ?_⟩
            obtain ⟨final, rest, rfl, _⟩ := h.headed
            simp at hhead
      · rw [if_pos hcount]
        refine ⟨nofun, fun h => ?_⟩
        obtain ⟨final, rest, rfl, hrest⟩ := h.headed
        have hnone : rest.filter (·.isInitial) = [] := by simpa using hrest
        simp [hnone] at hcount

theorem checkEnd_eq_ok_iff {states : List State} {name : StateName} :
    State.checkEnd states name = .ok () ↔ ∃ s ∈ states, s.name = name := by
  unfold State.checkEnd
  split <;> simp_all

/-- Names that ascend strictly are left where they are. -/
theorem sortByName_of_ascending {states : List State}
    (h : states.Pairwise fun s t => s.name < t.name) : sortByName states = states := by
  induction states with
  | nil => rfl
  | cons s rest ih =>
      rw [List.pairwise_cons] at h
      have hrest : sortByName (s :: rest) = insertByName s (sortByName rest) := rfl
      rw [hrest, ih h.2]
      cases rest with
      | nil => rfl
      | cons t rest => rw [insertByName, if_pos (Nat.le_of_lt (h.1 t List.mem_cons_self))]

namespace Proper
variable {states : List State}

theorem name_inj (h : Proper states) {s t : State} (hs : s ∈ states) (ht : t ∈ states)
    (hname : s.name = t.name) : s = t := by
  have hforth : states.Pairwise fun a b => a.name = b.name → a = b :=
    h.ascending.imp fun hlt heq => absurd heq (Nat.ne_of_lt hlt)
  have hback : states.Pairwise fun a b => b.name = a.name → b = a :=
    h.ascending.imp fun hlt heq => absurd heq (Nat.ne_of_gt hlt)
  exact List.Pairwise.forall_of_forall_of_flip (fun _ _ _ => rfl) hforth hback hs ht hname

theorem mem_start (h : Proper states) : ∃ s ∈ states, s.name = Automaton.start := by
  obtain ⟨final, rest, rfl, _⟩ := h.headed
  exact ⟨_, List.mem_cons_self, rfl⟩

/-- Being initial and being named `0` are the same. -/
theorem isInitial_iff (h : Proper states) {s : State} (hs : s ∈ states) :
    s.isInitial = true ↔ s.name = Automaton.start := by
  obtain ⟨final, rest, rfl, hrest⟩ := h.headed
  rcases List.mem_cons.mp hs with rfl | hs'
  · simp
  · constructor
    · intro hinitial
      rw [hrest s hs'] at hinitial
      cases hinitial
    · intro hname
      have hlt := (List.pairwise_cons.mp h.ascending).1 s hs'
      exact absurd hname (Nat.ne_of_gt hlt)

/-- Dropping states other than the initial one keeps the states in order. -/
theorem filter (h : Proper states) {keep : State → Bool}
    (hstart : ∀ s ∈ states, s.name = Automaton.start → keep s = true) :
    Proper (states.filter keep) := by
  refine ⟨h.ascending.filter keep, ?_⟩
  obtain ⟨final, rest, rfl, hrest⟩ := h.headed
  refine ⟨final, rest.filter keep, ?_, ?_⟩
  · rw [List.filter_cons_of_pos (hstart _ List.mem_cons_self rfl)]
  · intro s hs
    exact hrest s (List.mem_filter.mp hs).1

end Proper

end State

namespace Transition

/-- Both ends are states, and so is everything in a nested automaton. -/
structure Proper (states : List State) (t : Transition) : Prop where
  source : ∃ s ∈ states, s.name = t.source
  target : ∃ s ∈ states, s.name = t.target
  label : t.label.validate = .ok ()

theorem validateAll_eq_ok_iff {states : List State} {ts : List Transition} :
    validateAll states ts = .ok () ↔ ∀ t ∈ ts, Proper states t := by
  induction ts with
  | nil => simp [validateAll]
  | cons t ts ih =>
      obtain ⟨source, target, label⟩ := t
      simp only [validateAll, check_bind_eq_ok_iff, State.checkEnd_eq_ok_iff, ih,
        List.forall_mem_cons]
      constructor
      · intro h
        rcases h with ⟨hsource, htarget, hlabel, hrest⟩
        exact ⟨⟨hsource, htarget, hlabel⟩, hrest⟩
      · intro h
        rcases h with ⟨⟨hsource, htarget, hlabel⟩, hrest⟩
        exact ⟨hsource, htarget, hlabel, hrest⟩

end Transition

/-- There is nothing to check in chains. -/
theorem Label.validate_of_branches {l : Label} {branches : List (List Instruction)}
    (h : l.branches? = some branches) : l.validate = .ok () := by
  cases l with
  | closure kind nested => cases h
  | _ => rfl

namespace Automaton

theorem validate_eq_ok_iff {a : Automaton} :
    a.validate = .ok () ↔ State.Proper a.states ∧ ∀ t ∈ a.transitions, t.Proper a.states := by
  obtain ⟨states, transitions⟩ := a
  simp only [validate, check_bind_eq_ok_iff, State.check_eq_ok_iff,
    Transition.validateAll_eq_ok_iff]

theorem validate_of_make {states : List State} {ts : List Transition} {a : Automaton}
    (h : make states ts = .ok a) : a.validate = .ok () := by
  simp only [make, check_bind_eq_ok_iff, pure_eq_ok_iff] at h
  obtain ⟨hvalid, rfl⟩ := h
  exact hvalid

/-- States in order and transitions between them make an automaton, and it is what was given. -/
theorem make_of_proper {states : List State} {ts : List Transition} (hstates : State.Proper states)
    (hts : ∀ t ∈ ts, t.Proper states) :
    make states ts = .ok ⟨states, ts⟩ ∧ validate ⟨states, ts⟩ = .ok () := by
  have hvalid : validate ⟨states, ts⟩ = .ok () := validate_eq_ok_iff.mpr ⟨hstates, hts⟩
  refine ⟨?_, hvalid⟩
  simp only [make, check_bind_eq_ok_iff, pure_eq_ok_iff]
  rw [State.sortByName_of_ascending hstates.ascending]
  exact ⟨hvalid, rfl⟩

theorem isFinal_iff {a : Automaton} (h : State.Proper a.states) {q : StateName} :
    a.isFinal q = true ↔ ∃ s ∈ a.states, s.name = q ∧ s.isFinal = true := by
  rw [isFinal, state?, Option.any_eq_true]
  constructor
  · intro hstops
    rcases hstops with ⟨s, hs, hfinal⟩
    have hname := List.find?_some hs
    exact ⟨s, List.mem_of_find?_eq_some hs, by simpa using hname, hfinal⟩
  · intro hends
    rcases hends with ⟨s, hs, rfl, hfinal⟩
    have hfound : (a.states.find? (·.name == s.name)).isSome = true := by
      rw [List.find?_isSome]
      exact ⟨s, hs, by simp⟩
    obtain ⟨t, ht⟩ := Option.isSome_iff_exists.mp hfound
    have hname : t.name = s.name := by simpa using List.find?_some ht
    obtain rfl := h.name_inj (List.mem_of_find?_eq_some ht) hs hname
    exact ⟨t, ht, hfinal⟩

theorem isNullable_iff {a : Automaton} (h : a.validate = .ok ()) :
    a.isNullable = a.isFinal start := by
  obtain ⟨final, rest, hstates, _⟩ := (validate_eq_ok_iff.mp h).1.headed
  simp [isNullable, isFinal, initial?, state?, hstates]

end Automaton

end PropertyPath
