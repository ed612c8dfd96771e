import PropertyPath.Proofs.Automaton.Relation

/-!
# Accepting runs and how long they are

A run of an automaton is a list of steps. A step takes a hop, or it takes a closure by a run of the
nested automaton, whatever the length of that is. So a run has a shape, which tells its length and
those of all runs within it. What hops join is a parameter. When no run, at any level of nesting,
may have more than so many steps, the automaton relates the terms that are joined by runs of the
shapes that are left.
-/
namespace PropertyPath
open Relation (Comp ReflTransGen)

/-- The second limit allows no less than the first one. -/
def NoTighter (limit limit' : Option Nat) : Prop :=
  ∀ n', limit' = some n' → ∃ n, limit = some n ∧ n ≤ n'

theorem NoTighter.refl (limit : Option Nat) : NoTighter limit limit :=
  fun n hn => ⟨n, hn, Nat.le_refl n⟩

theorem noTighter_none (limit : Option Nat) : NoTighter limit none := by
  intro n hn
  cases hn

/-- One step of a run, with the steps of the run that is taken within it. -/
inductive Shape where
  | hop
  | closure (steps : List Shape)

namespace Shape

mutual

/-- No run within the step is longer than the limit. -/
def Fits (limit : Option Nat) : Shape → Prop
  | hop => True
  | closure steps => (∀ d, limit = some d → steps.length ≤ d) ∧ AllFit limit steps

def AllFit (limit : Option Nat) : List Shape → Prop
  | [] => True
  | s :: steps => Fits limit s ∧ AllFit limit steps

end

/-- Neither a run nor any run within it is longer than the limit. -/
def Within (limit : Option Nat) (steps : List Shape) : Prop :=
  (∀ d, limit = some d → steps.length ≤ d) ∧ AllFit limit steps

theorem allFit_append {limit : Option Nat} {steps more : List Shape} :
    AllFit limit (steps ++ more) ↔ AllFit limit steps ∧ AllFit limit more := by
  induction steps with
  | nil => simp [AllFit]
  | cons s steps ih => rw [List.cons_append, AllFit, AllFit, ih, and_assoc]

mutual

theorem fits_none (s : Shape) : s.Fits none := by
  cases s with
  | hop => trivial
  | closure steps => exact ⟨nofun, allFit_none steps⟩

theorem allFit_none (steps : List Shape) : AllFit none steps := by
  cases steps with
  | nil => trivial
  | cons s steps => exact ⟨fits_none s, allFit_none steps⟩

end

theorem length_le_of_noTighter {limit limit' : Option Nat} (hlimit : NoTighter limit limit')
    {steps : List Shape} (h : ∀ d, limit = some d → steps.length ≤ d) :
    ∀ d, limit' = some d → steps.length ≤ d := by
  intro d hd
  obtain ⟨n, hn, hle⟩ := hlimit d hd
  exact (h n hn).trans hle

mutual

theorem Fits.mono {limit limit' : Option Nat} (hlimit : NoTighter limit limit') {s : Shape}
    (h : s.Fits limit) : s.Fits limit' := by
  cases s with
  | hop => trivial
  | closure steps => exact ⟨length_le_of_noTighter hlimit h.1, AllFit.mono hlimit h.2⟩

theorem AllFit.mono {limit limit' : Option Nat}
    (hlimit : NoTighter limit limit') {steps : List Shape}
    (h : AllFit limit steps) : AllFit limit' steps := by
  cases steps with
  | nil => trivial
  | cons s steps => exact ⟨Fits.mono hlimit h.1, AllFit.mono hlimit h.2⟩

end

theorem Within.mono {limit limit' : Option Nat}
    (hlimit : NoTighter limit limit') {steps : List Shape}
    (h : Within limit steps) : Within limit' steps :=
  ⟨length_le_of_noTighter hlimit h.1, AllFit.mono hlimit h.2⟩

end Shape

section runs
variable {α β : Type} {r : α → β → β → Prop}

/-- The steps are taken one after the other. -/
def Runs (r : α → β → β → Prop) : List α → β → β → Prop
  | [] => Eq
  | a :: as => Comp (r a) (Runs r as)

theorem runs_append (as bs : List α) : Runs r (as ++ bs) = Comp (Runs r as) (Runs r bs) := by
  induction as with
  | nil => rw [List.nil_append, Runs, Relation.eq_comp]
  | cons a as ih => rw [List.cons_append, Runs, Runs, ih, Relation.comp_assoc]

theorem runs_single (a : α) : Runs r [a] = r a := by
  rw [Runs, Runs, Relation.comp_eq]

/-- A run goes on as the same run elsewhere if each of its steps does. -/
theorem Runs.lift {r' : α → β → β → Prop} {f : β → β}
    (h : ∀ a x y, r a x y → r' a (f x) (f y)) {as : List α}
    {x y : β} (hrun : Runs r as x y) : Runs r' as (f x) (f y) := by
  induction as generalizing x with
  | nil => exact congrArg f hrun
  | cons a as ih =>
      obtain ⟨z, hstep, hrest⟩ := hrun
      exact ⟨f z, h a x z hstep, ih hrest⟩

end runs

section accepts
variable (hop : List (List Instruction) → Term → Term → Prop)

mutual

/-- A run of the given steps joins two terms. -/
def Automaton.accepts : Automaton → List Shape → Term → Term → Prop
  | ⟨states, transitions⟩ => fun steps x y =>
      ∃ q, Automaton.isFinal ⟨states, transitions⟩ q = true ∧
        Runs (Transition.takes transitions) steps (Automaton.start, x) (q, y)

def Transition.takes : List Transition → Shape → StateName × Term → StateName × Term → Prop
  | [] => fun _ _ _ => False
  | ⟨source, target, label⟩ :: ts => fun s c d =>
      (source = c.1 ∧ target = d.1 ∧ Label.takes label s c.2 d.2) ∨ Transition.takes ts s c d

/-- A step of the given shape passes the label. -/
def Label.takes : Label → Shape → Term → Term → Prop
  | .property i => fun s x y => s = .hop ∧ hop [[i]] x y
  | .sequence is => fun s x y => s = .hop ∧ hop [is] x y
  | .alternative branches => fun s x y => s = .hop ∧ hop branches x y
  | .closure _ nested =>
      fun s x y => ∃ steps, s = .closure steps ∧ Automaton.accepts nested steps x y

end

/-- The pairs of terms that are joined by a run within the limit. -/
def Automaton.within (limit : Option Nat) (a : Automaton) (x y : Term) : Prop :=
  ∃ steps, Shape.Within limit steps ∧ a.accepts hop steps x y

/-- The pairs of terms that a step within the limit passes to. -/
def Label.within (limit : Option Nat) (l : Label) (x y : Term) : Prop :=
  ∃ s : Shape, s.Fits limit ∧ l.takes hop s x y

/-- A run of so many steps, within which no run is longer than the limit. -/
def Automaton.Reaches (limit : Option Nat) (a : Automaton) (n : Nat)
    (c d : StateName × Term) : Prop :=
  ∃ steps : List Shape, steps.length = n ∧ Shape.AllFit limit steps ∧
    Runs (Transition.takes hop a.transitions) steps c d

end accepts

section
variable {hop : List (List Instruction) → Term → Term → Prop} {limit : Option Nat} {a : Automaton}

theorem Transition.takes_iff {ts : List Transition} {s : Shape} {c d : StateName × Term} :
    takes hop ts s c d ↔
      ∃ t ∈ ts, t.source = c.1 ∧ t.target = d.1 ∧ t.label.takes hop s c.2 d.2 := by
  induction ts with
  | nil => simp [takes]
  | cons t ts ih =>
      obtain ⟨source, target, label⟩ := t
      simp [takes, ih]

theorem Automaton.accepts_iff {steps : List Shape} {x y : Term} : a.accepts hop steps x y ↔
    ∃ q, a.isFinal q = true ∧
    Runs (Transition.takes hop a.transitions) steps (start, x) (q, y) := by
  cases a
  rfl

namespace Label
variable {l : Label} {x y : Term}

theorem takes_of_branches {branches : List (List Instruction)}
    (h : l.branches? = some branches) {s : Shape} :
    l.takes hop s x y ↔ s = .hop ∧ hop branches x y := by
  cases l with
  | closure kind nested => cases h
  | _ =>
      cases h
      exact Iff.rfl

theorem within_of_branches {branches : List (List Instruction)} (h : l.branches? = some branches) :
    l.within hop limit x y ↔ hop branches x y := by
  constructor
  · intro hpassed
    rcases hpassed with ⟨s, _, hs⟩
    exact ((takes_of_branches h).mp hs).2
  · intro hhop
    exact ⟨.hop, trivial, (takes_of_branches h).mpr ⟨rfl, hhop⟩⟩

theorem within_closure {kind : Closure} :
    (Label.closure kind a).within hop limit x y ↔ a.within hop limit x y := by
  constructor
  · intro h
    rcases h with ⟨_, hfits, steps, rfl, haccepts⟩
    exact ⟨steps, hfits, haccepts⟩
  · intro h
    rcases h with ⟨steps, hwithin, haccepts⟩
    exact ⟨.closure steps, hwithin, steps, rfl, haccepts⟩

end Label

namespace Automaton
variable {n : Nat} {c d : StateName × Term} {x y : Term}

theorem reaches_zero : a.Reaches hop limit 0 c d ↔ c = d := by
  constructor
  · intro h
    rcases h with ⟨steps, hlength, _, hrun⟩
    rw [List.eq_nil_of_length_eq_zero hlength] at hrun
    exact hrun
  · intro heq
    exact ⟨[], rfl, trivial, heq⟩

/-- The last step of a run passes a transition. -/
theorem reaches_succ : a.Reaches hop limit (n + 1) c d ↔ ∃ e, a.Reaches hop limit n c e ∧
    ∃ t ∈ a.transitions, t.source = e.1 ∧ t.target = d.1 ∧ t.label.within hop limit e.2 d.2 := by
  constructor
  · intro h
    rcases h with ⟨steps, hlength, hfits, hrun⟩
    have hne : steps ≠ [] := List.ne_nil_of_length_eq_add_one hlength
    obtain ⟨before, s, rfl⟩ := (List.eq_nil_or_concat' steps).resolve_left hne
    rw [runs_append, runs_single] at hrun
    obtain ⟨e, hbefore, hlast⟩ := hrun
    obtain ⟨t, ht, hsource, htarget, hlabel⟩ := Transition.takes_iff.mp hlast
    obtain ⟨hbefits, hsfits, _⟩ := Shape.allFit_append.mp hfits
    rw [List.length_append, List.length_singleton, Nat.add_right_cancel_iff] at hlength
    exact ⟨e, ⟨before, hlength, hbefits, hbefore⟩, t, ht, hsource, htarget, s, hsfits, hlabel⟩
  · intro h
    rcases h with ⟨e, ⟨before, hlength, hbefits, hbefore⟩, t, ht, hsource,
      htarget, s, hsfits, hlabel⟩
    refine ⟨before ++ [s], ?_, Shape.allFit_append.mpr ⟨hbefits, hsfits, trivial⟩, ?_⟩
    · rw [List.length_append, hlength, List.length_singleton]
    · rw [runs_append, runs_single]
      exact ⟨e, hbefore, Transition.takes_iff.mpr ⟨t, ht, hsource, htarget, hlabel⟩⟩

/-- A looser limit adds pairs and takes none away. -/
theorem within_mono {limit' : Option Nat} (hlimit : NoTighter limit limit')
    (h : a.within hop limit x y) :
    a.within hop limit' x y := h.imp fun _ hsteps => ⟨Shape.Within.mono hlimit hsteps.1, hsteps.2⟩

theorem within_iff : a.within hop limit x y ↔ ∃ n q, (∀ d, limit = some d → n ≤ d) ∧
    a.isFinal q = true ∧ a.Reaches hop limit n (start, x) (q, y) := by
  constructor
  · intro h
    rcases h with ⟨steps, ⟨hlength, hfits⟩, haccepts⟩
    obtain ⟨q, hq, hrun⟩ := accepts_iff.mp haccepts
    exact ⟨steps.length, q, hlength, hq, steps, rfl, hfits, hrun⟩
  · intro h
    rcases h with ⟨_, q, hlength, hq, steps, rfl, hfits, hrun⟩
    exact ⟨steps, ⟨hlength, hfits⟩, accepts_iff.mpr ⟨q, hq, hrun⟩⟩

end Automaton

section relation
variable {G : Set Triple} {x y : Term}

/-- What one of the chains joins in a graph. -/
def joined (G : Set Triple) (branches : List (List Instruction)) (x y : Term) : Prop :=
  ∃ is ∈ branches, chainRelation G is x y

@[simp] theorem joined_single (is : List Instruction) :
    joined G [is] x y ↔ chainRelation G is x y := by
  simp [joined]

theorem Automaton.moves_of_reaches_labels
    (h : ∀ t ∈ a.transitions, ∀ x y, t.label.within (joined G) limit x y → t.label.relation G x y)
    {n : Nat} {c d : StateName × Term} (hreaches : a.Reaches (joined G) limit n c d) :
    ReflTransGen (a.Moves G) c d := by
  induction n generalizing d with
  | zero => rw [reaches_zero.mp hreaches]
  | succ n ih =>
      obtain ⟨e, hbefore, t, ht, hsource, htarget, hlabel⟩ := reaches_succ.mp hreaches
      exact (ih hbefore).tail
        (Transition.moves_iff.mpr ⟨t, ht, hsource, htarget, h t ht _ _ hlabel⟩)

theorem Automaton.relation_of_within_labels
    (h : ∀ t ∈ a.transitions, ∀ x y, t.label.within (joined G) limit x y → t.label.relation G x y)
    (hwithin : a.within (joined G) limit x y) : a.relation G x y := by
  obtain ⟨n, q, _, hq, hreaches⟩ := within_iff.mp hwithin
  rw [relation_eq]
  exact ⟨q, hq, moves_of_reaches_labels h hreaches⟩

/-- Some run of an automaton joins any two terms that it relates. -/
theorem Automaton.accepts_of_relation_labels
    (h : ∀ t ∈ a.transitions, ∀ x y, t.label.relation G x y → ∃ s, t.label.takes (joined G) s x y)
    (hrelated : a.relation G x y) : ∃ steps, a.accepts (joined G) steps x y := by
  have hruns : ∀ c d, ReflTransGen (a.Moves G) c d →
      ∃ steps, Runs (Transition.takes (joined G) a.transitions) steps c d := by
    intro c d hmoves
    induction hmoves using ReflTransGen.head_induction_on with
    | refl => exact ⟨[], rfl⟩
    | head hmove _ ih =>
        obtain ⟨t, ht, hsource, htarget, hlabel⟩ := Transition.moves_iff.mp hmove
        obtain ⟨s, hs⟩ := h t ht _ _ hlabel
        obtain ⟨steps, hruns⟩ := ih
        exact ⟨s :: steps, _, Transition.takes_iff.mpr ⟨t, ht, hsource, htarget, hs⟩, hruns⟩
  rw [relation_eq] at hrelated
  obtain ⟨q, hq, hmoves⟩ := hrelated
  obtain ⟨steps, hsteps⟩ := hruns _ _ hmoves
  exact ⟨steps, accepts_iff.mpr ⟨q, hq, hsteps⟩⟩

/-- A limit only leaves pairs out. -/
theorem Label.relation_of_within (l : Label) :
    ∀ x y, l.within (joined G) limit x y → l.relation G x y := by
  induction l using Label.nested_induction with
  | branches l bs hbs =>
      intro x y h
      rw [relation_of_branches hbs]
      exact (within_of_branches hbs).mp h
  | closure kind a ih =>
      intro x y h
      rw [relation]
      exact Automaton.relation_of_within_labels ih (within_closure.mp h)

theorem Automaton.relation_of_within (h : a.within (joined G) limit x y) : a.relation G x y :=
  relation_of_within_labels (fun t _ => Label.relation_of_within t.label) h

/-- A run within a limit is a run. -/
theorem Automaton.moves_of_reaches {n : Nat} {c d : StateName × Term}
    (h : a.Reaches (joined G) limit n c d) : ReflTransGen (a.Moves G) c d :=
  moves_of_reaches_labels (fun t _ => Label.relation_of_within t.label) h

/-- From nodes of the graph only nodes of the graph are reached. -/
theorem Automaton.mem_nodesOf_of_within (h : a.within (joined G) limit x y) (hx : x ∈ nodesOf G) :
    y ∈ nodesOf G := by
  rcases inside_relation a x y (relation_of_within h) with rfl | hends
  · exact hx
  · exact hends.2

theorem Label.relation_iff_takes (l : Label) :
    ∀ x y, l.relation G x y ↔ ∃ s, l.takes (joined G) s x y := by
  have htakes : ∀ x y, l.relation G x y → ∃ s, l.takes (joined G) s x y := by
    induction l using Label.nested_induction with
    | branches l bs hbs =>
        intro x y h
        rw [relation_of_branches hbs] at h
        have hwithin : l.within (joined G) none x y := (within_of_branches hbs).mpr h
        exact hwithin.imp fun _ hs => hs.2
    | closure kind a ih =>
        intro x y h
        rw [relation] at h
        obtain ⟨steps, hsteps⟩ := Automaton.accepts_of_relation_labels ih h
        exact ⟨.closure steps, steps, rfl, hsteps⟩
  intro x y
  constructor
  · exact htakes x y
  · intro hpassed
    rcases hpassed with ⟨s, hs⟩
    have hwithin : l.within (joined G) none x y := ⟨s, s.fits_none, hs⟩
    exact relation_of_within l x y hwithin

/-- An automaton relates the terms that some run of it joins. -/
theorem Automaton.relation_iff_accepts :
    a.relation G x y ↔ ∃ steps, a.accepts (joined G) steps x y := by
  constructor
  · exact accepts_of_relation_labels fun t _ x y => (Label.relation_iff_takes t.label x y).mp
  · intro h
    rcases h with ⟨steps, haccepts⟩
    have hwithin : a.within (joined G) none x y :=
      ⟨steps, ⟨nofun, Shape.allFit_none steps⟩, haccepts⟩
    exact relation_of_within hwithin

theorem Automaton.within_none_iff : a.within (joined G) none x y ↔ a.relation G x y := by
  constructor
  · exact relation_of_within
  · intro h
    obtain ⟨steps, haccepts⟩ := relation_iff_accepts.mp h
    exact ⟨steps, ⟨nofun, Shape.allFit_none steps⟩, haccepts⟩

end relation

end

end PropertyPath
