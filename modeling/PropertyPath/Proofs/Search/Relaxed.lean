import PropertyPath.Proofs.Automaton.Shapes
import PropertyPath.Proofs.Search.Parts
import PropertyPath.Proofs.Search.Sweep
import PropertyPath.Proofs.Search.Termination

/-!
# Looser limits cut later

What a graph announces, how many closures may be nested and how many configurations may be visited
limit a run, and do nothing else to it: with looser limits the run is the same, or it goes on where
it was stopped by a limit. It is shown of two searches side by side, whose progress differs in the
limit that it knows of.
-/
namespace PropertyPath
open Evaluation

/-- What becomes of a run when limits are looser: it ends like the first one, or the first one is
stopped for one of the given reasons and it goes on from there. -/
inductive Run.Outlasts {α β : Type} (E : Halt → Prop) (R : α → β → Prop) : Run α → Run β → Prop
  | ok {a : α} {b : β} (events : List Event) : R a b → Outlasts E R ⟨events, .ok a⟩ ⟨events, .ok b⟩
  | error (events : List Event) (stop : Halt) :
      Outlasts E R ⟨events, .error stop⟩ ⟨events, .error stop⟩
  | onward {events : List Event} {stop : Halt} {r : Run β} :
      E stop → events <+: r.events → Outlasts E R ⟨events, .error stop⟩ r

theorem Run.Outlasts.after {α β : Type} {E : Halt → Prop} {R : α → β → Prop}
    {r : Run α} {r' : Run β}
    (h : Run.Outlasts E R r r') (events : List Event) :
    Run.Outlasts E R ⟨events ++ r.events, r.result⟩ ⟨events ++ r'.events, r'.result⟩ := by
  cases h with
  | ok more hab => exact .ok _ hab
  | error more stop => exact .error _ stop
  | onward hstop hbegins => exact .onward hstop ((List.prefix_append_right_inj events).mpr hbegins)

/-- A run that is outlasted with the same result is the same, or it was stopped on the way. -/
theorem Run.Outlasts.eq_or_prefix {α : Type} {E : Halt → Prop} {r r' : Run α}
    (h : Run.Outlasts E Eq r r') :
    r' = r ∨ ∃ stop, E stop ∧ r.result = .error stop ∧ r.solutions <+: r'.solutions := by
  cases h with
  | ok events heq => exact Or.inl (heq ▸ rfl)
  | error events stop => exact Or.inl rfl
  | onward hstop hbegins => exact Or.inr ⟨_, hstop, rfl, hbegins.filterMap _⟩

namespace Evaluation
variable {α β γ δ : Type} {E : Halt → Prop} {R : α → β → Prop} {S : γ → δ → Prop}
  {m : Evaluation α} {m' : Evaluation β} {f : α → Evaluation γ} {f' : β → Evaluation δ}

/-- However many calls have been made before, the second evaluation outlasts the first one. -/
def Outlasts (E : Halt → Prop) (R : α → β → Prop) (m : Evaluation α) (m' : Evaluation β) : Prop :=
  ∀ k, Run.Outlasts E R (m k) (m' k)

theorem outlasts_pure {a : α} {b : β} (h : R a b) : Outlasts E R (Pure.pure a) (Pure.pure b) :=
  fun _ => .ok [] h

theorem outlasts_self (m : Evaluation α) : Outlasts E Eq m m := by
  intro k
  cases m k with
  | mk events result =>
      cases result with
      | ok a => exact .ok events rfl
      | error stop => exact .error events stop

theorem prefix_bind (m : Evaluation α) (f : α → Evaluation γ) (k : Nat) :
    (m k).events <+: ((m >>= f) k).events := by
  cases hrun : m k with
  | mk events result =>
      cases result with
      | error stop => rw [bind_run_of_error hrun]
      | ok a =>
          rw [bind_run_of_ok hrun]
          exact List.prefix_append _ _

theorem Outlasts.bind (h : Outlasts E R m m') (hf : ∀ a b, R a b → Outlasts E S (f a) (f' b)) :
    Outlasts E S (m >>= f) (m' >>= f') := by
  intro k
  have hk := h k
  generalize hrun : m k = r at hk
  generalize hrun' : m' k = r' at hk
  cases hk with
  | ok events hab =>
      rw [bind_run_of_ok hrun, bind_run_of_ok hrun']
      exact (hf _ _ hab _).after events
  | error events stop =>
      rw [bind_run_of_error hrun, bind_run_of_error hrun']
      exact .error events stop
  | onward hstop hbegins =>
      rw [bind_run_of_error hrun]
      exact .onward hstop (hbegins.trans (hrun' ▸ prefix_bind m' f' k))

theorem Outlasts.bind_same {m' : Evaluation α} {f' : α → Evaluation δ} (h : Outlasts E Eq m m')
    (hf : ∀ a, Outlasts E S (f a) (f' a)) : Outlasts E S (m >>= f) (m' >>= f') := by
  refine h.bind ?_
  rintro a _ rfl
  exact hf a

theorem Outlasts.collect (h : Outlasts E R m m') : Outlasts E Eq (collect m) (collect m') := by
  intro k
  have hk := h k
  rw [Evaluation.collect, Evaluation.collect]
  generalize m k = r at hk
  generalize m' k = r' at hk
  cases hk with
  | ok events _ => exact .ok _ rfl
  | error events stop => exact .error _ stop
  | onward hstop hbegins => exact .onward hstop (hbegins.filter _)

end Evaluation

/-- The same graph, when it announces so many nodes. -/
def GraphService.announcing (g : GraphService) (bound : Nat) : GraphService :=
  { g with nodeBound := bound }

theorem joinedPairs_announcing (g : GraphService) (bound : Nat) (context : CallContext)
    (start : Endpoint) (branches : List (List Instruction)) :
    joinedPairs (g.announcing bound) context start branches =
      joinedPairs g context start branches := by
  have hbranches : pairsByChain (g.announcing bound) context start branches =
      pairsByChain g context start branches := by
    induction branches with
    | nil => rfl
    | cons is branches ih =>
        rw [pairsByChain, pairsByChain, ih]
        rfl
  rw [joinedPairs, joinedPairs, hbranches]

/-- What limits a run. -/
structure Limits where
  /-- How many nodes the graph announces. -/
  nodes : Nat
  nesting : Nat
  visited : Option Nat

/-- The second limits are no tighter than the first, and where they are looser, the first are
reasons to stop. -/
structure Limits.Loosens (E : Halt → Prop) (l l' : Limits) : Prop where
  nodes : l.nodes ≤ l'.nodes
  nesting : l.nesting ≤ l'.nesting
  visited : NoTighter l.visited l'.visited
  givenUp : l.nodes < l'.nodes → E .givenUp
  tooDeep : l.nesting < l'.nesting → E (.fault (.nestingTooDeep l.nesting))
  exceeded : ∀ n, l.visited = some n → l'.visited ≠ some n → E (.fault (.visitLimitExceeded n))

namespace Visits
variable {v w : Visits} {limit : Option Nat}

/-- The same visits under another limit. -/
def relax (limit : Option Nat) (v : Visits) : Visits := { v with limit }

theorem visit_relax {c : Configuration} {new : Bool} (h : v.visit c = (w, .ok new))
    (hlimit : NoTighter v.limit limit) :
    (v.relax limit).visit c = (w.relax limit, .ok new) := by
  rcases visit_eq_ok_iff.mp h with ⟨hc, rfl, rfl⟩ | ⟨hc, hcheck, rfl, rfl⟩
  · exact visit_eq_ok_iff.mpr (Or.inl ⟨hc, rfl, rfl⟩)
  · refine visit_eq_ok_iff.mpr (Or.inr ⟨hc, checkLimit_eq_ok_iff.mpr ?_, rfl, rfl⟩)
    intro n' hn'
    obtain ⟨n, hn, hle⟩ := hlimit n' hn'
    exact (checkLimit_eq_ok_iff.mp hcheck n hn).trans hle

/-- What a limit lets through is let through by a looser one. -/
theorem visitAll_relax {cs fresh : List Configuration} (h : v.visitAll cs = .ok (w, fresh))
    (hlimit : NoTighter v.limit limit) :
    (v.relax limit).visitAll cs = .ok (w.relax limit, fresh) := by
  induction cs generalizing v fresh with
  | nil =>
      cases h
      rfl
  | cons c cs ih =>
      obtain ⟨u, new, later, hvisit, hrest, rfl⟩ := visitAll_cons_eq_ok_iff.mp h
      refine visitAll_cons_eq_ok_iff.mpr ⟨_, new, later, visit_relax hvisit hlimit, ?_, rfl⟩
      rw [← (grows_of_visit hvisit).limit] at hlimit
      exact ih hrest hlimit

theorem deliver_relax (limit : Option Nat) (v : Visits) (x y : Term) :
    (v.relax limit).deliver x y = ((v.deliver x y).1.relax limit, (v.deliver x y).2) := by
  rw [deliver, deliver]
  by_cases h : (x, y) ∈ v.delivered
  · rw [if_pos h]
    exact if_pos h
  · rw [if_neg h]
    exact if_neg h

end Visits

/-- The same progress under another limit on the visits. -/
def Progress.relax (limit : Option Nat) (p : Progress) : Progress :=
  { p with visits := p.visits.relax limit }

/-- The second progress is the first one under the other limit. -/
def Progress.Relaxes (limit limit' : Option Nat) (p p' : Progress) : Prop :=
  p.visits.limit = limit ∧ p' = p.relax limit'

namespace Search
variable {s : Search} {l : Limits} {E : Halt → Prop}
  {close close' : ClosureSearch} {p p' : Progress}

def limits (s : Search) : Limits :=
  ⟨s.graph.nodeBound, s.options.maxNestingDepth, s.options.maxVisited⟩

/-- The same search under other limits. -/
def relax (s : Search) (l : Limits) : Search :=
  { s with
    graph := s.graph.announcing l.nodes
    options := { s.options with maxNestingDepth := l.nesting, maxVisited := l.visited } }

section steps
variable (hl : s.limits.Loosens E l)
include hl

theorem outlasts_visitAll {v : Visits} (hv : v.limit = s.options.maxVisited)
    (cs : List Configuration) :
    Outlasts E (fun r r' => r.1.limit = s.options.maxVisited ∧ r' = (r.1.relax l.visited, r.2))
      (ofExcept (v.visitAll cs)) (ofExcept ((v.relax l.visited).visitAll cs)) := by
  cases hvisited : v.visitAll cs with
  | ok r =>
      obtain ⟨w, fresh⟩ := r
      rw [Visits.visitAll_relax hvisited (hv ▸ hl.visited)]
      exact outlasts_pure ⟨(Visits.grows_of_visitAll hvisited).1.limit.trans hv, rfl⟩
  | error fault =>
      obtain ⟨n, _, _, rfl, hlimit, _⟩ := Visits.exists_of_visitAll_eq_error hvisited
      by_cases hsame : l.visited = some n
      · have heq : v.relax l.visited = v := by rw [hsame, ← hlimit]; rfl
        rw [heq, hvisited]
        exact fun _ => .error [] _
      · exact fun _ => .onward (hl.exceeded n (hv.symm.trans hlimit) hsame) List.nil_prefix

omit hl in
theorem outlasts_follow (hclose : ∀ a x, Outlasts E Eq (close a x) (close' a x)) (i : Nat)
    (t : Transition) (x : Term) (hp : p.Relaxes s.options.maxVisited l.visited p') :
    Outlasts E (fun r r' => r.1 = r'.1 ∧ r.2.Relaxes s.options.maxVisited l.visited r'.2)
      (s.follow close i t x p) ((s.relax l).follow close' i t x p') := by
  obtain ⟨hlimit, rfl⟩ := hp
  cases hbranches : t.label.branches? with
  | some branches =>
      have hpairs := joinedPairs_announcing s.graph l.nodes s.context (.term x) branches
      rw [follow_of_branches hbranches, follow_of_branches hbranches]
      change Outlasts E _ _
        (joinedPairs (s.graph.announcing l.nodes) s.context (.term x) branches >>= _)
      rw [hpairs]
      exact (outlasts_self _).bind_same fun pairs => outlasts_pure ⟨rfl, hlimit, rfl⟩
  | none =>
      obtain ⟨kind, nested, hlabel⟩ := Label.exists_closure_of_branches hbranches
      cases hfound : s.remembered? i x p with
      | some nodes =>
          have hfound' : (s.relax l).remembered? i x (p.relax l.visited) = some nodes := hfound
          rw [follow_of_remembered hlabel hfound, follow_of_remembered hlabel hfound']
          exact outlasts_pure ⟨rfl, hlimit, rfl⟩
      | none =>
          have hfound' : (s.relax l).remembered? i x (p.relax l.visited) = none := hfound
          rw [follow_of_closure hlabel hfound, follow_of_closure hlabel hfound']
          refine (hclose nested x).bind_same fun nodes => ?_
          exact (outlasts_self _).bind_same fun _ => outlasts_pure ⟨rfl, hlimit, rfl⟩

theorem outlasts_followAll (hclose : ∀ a x, Outlasts E Eq (close a x) (close' a x))
    (c : Configuration)
    (ts : List (Transition × Nat)) (hp : p.Relaxes s.options.maxVisited l.visited p') :
    Outlasts E (fun r r' => r.1 = r'.1 ∧ r.2.Relaxes s.options.maxVisited l.visited r'.2)
      (s.followAll close c ts p) ((s.relax l).followAll close' c ts p') := by
  induction ts generalizing p p' with
  | nil => exact outlasts_pure ⟨rfl, hp⟩
  | cons t ts ih =>
      rw [followAll, followAll]
      refine (outlasts_follow hclose t.2 t.1 c.node hp).bind ?_
      rintro ⟨nodes, p₁⟩ ⟨_, _⟩ ⟨rfl, hlimit, rfl⟩
      refine (outlasts_visitAll hl hlimit _).bind ?_
      rintro ⟨visits, fresh⟩ _ ⟨hlimit, rfl⟩
      refine (ih ⟨hlimit, rfl⟩).bind ?_
      rintro ⟨later, p₂⟩ ⟨_, _⟩ ⟨rfl, hp₂⟩
      exact outlasts_pure ⟨rfl, hp₂⟩

omit hl in
theorem mark_relax (s : Search) (l : Limits) (c : Configuration) (p : Progress) :
    (s.relax l).mark c (p.relax l.visited) = ((s.mark c p).1.relax l.visited, (s.mark c p).2) := by
  have hhits : (s.relax l).hits c = s.hits c := rfl
  rw [mark, mark, hhits]
  by_cases h : s.hits c = true
  · rw [if_pos h, if_pos h]
    have hdeliver : (p.relax l.visited).visits.deliver c.subject c.node = _ :=
      Visits.deliver_relax l.visited p.visits c.subject c.node
    rw [hdeliver]
    rfl
  · rw [if_neg h, if_neg h]
    rfl

theorem outlasts_expand (hclose : ∀ a x, Outlasts E Eq (close a x) (close' a x)) (c : Configuration)
    (hp : p.Relaxes s.options.maxVisited l.visited p') :
    Outlasts E (fun r r' => r.1 = r'.1 ∧ r.2.Relaxes s.options.maxVisited l.visited r'.2)
      (s.expand close c p) ((s.relax l).expand close' c p') := by
  obtain ⟨hlimit, rfl⟩ := hp
  have hstops : (s.relax l).stopsAt c = s.stopsAt c := rfl
  have hdeep : (s.relax l).isTooDeep c = s.isTooDeep c := rfl
  have hmarked :
      (s.mark c p).1.Relaxes s.options.maxVisited l.visited ((s.mark c p).1.relax l.visited) :=
    ⟨(marks_mark s c p).limit.trans hlimit, rfl⟩
  rw [expand_eq, expand_eq, hstops, mark_relax]
  refine (outlasts_self _).bind_same fun _ => ?_
  split
  · exact (outlasts_self _).bind_same fun _ => outlasts_pure ⟨rfl, hmarked⟩
  · rw [onward, onward, hdeep]
    split
    · exact (outlasts_self _).bind_same fun _ => outlasts_pure ⟨rfl, hmarked⟩
    · refine (outlasts_followAll hl hclose c _ hmarked).bind ?_
      rintro ⟨fresh, p₁⟩ ⟨_, _⟩ ⟨rfl, hp₁⟩
      exact (outlasts_self _).bind_same fun _ => outlasts_pure ⟨rfl, hp₁⟩

/-- A search that may take more rounds goes on where it has been given up. -/
theorem outlasts_explore (hclose : ∀ a x, Outlasts E Eq (close a x) (close' a x)) {n n' : Nat}
    (hn : n ≤ n') (hgivenUp : n < n' → E .givenUp) (queue : List Configuration)
    (hp : p.Relaxes s.options.maxVisited l.visited p') :
    Outlasts E (Progress.Relaxes s.options.maxVisited l.visited) (s.explore close n queue p)
      ((s.relax l).explore close' n' queue p') := by
  induction n generalizing n' queue p p' with
  | zero =>
      cases queue with
      | nil =>
          intro k
          rw [explore_nil, explore_nil]
          exact .ok [] hp
      | cons c queue =>
          cases n' with
          | zero => exact fun _ => .error [] .givenUp
          | succ n' => exact fun _ => .onward (hgivenUp (Nat.succ_pos n')) List.nil_prefix
  | succ n ih =>
      cases queue with
      | nil =>
          intro k
          rw [explore_nil, explore_nil]
          exact .ok [] hp
      | cons c queue =>
          obtain ⟨n', rfl⟩ := Nat.exists_eq_add_of_lt hn
          rw [explore, explore]
          refine (outlasts_expand hl hclose c hp).bind ?_
          rintro ⟨next, p₁⟩ ⟨_, _⟩ ⟨rfl, hp₁⟩
          cases next with
          | none => exact outlasts_pure hp₁
          | some fresh =>
              refine ih (Nat.le_add_right n n') (fun hlt => hgivenUp ?_) (queue ++ fresh) hp₁
              exact Nat.succ_lt_succ hlt

theorem outlasts_searchFrom (hclose : ∀ a x, Outlasts E Eq (close a x) (close' a x))
    (origins : List Term) (hp : p.Relaxes s.options.maxVisited l.visited p') :
    Outlasts E (Progress.Relaxes s.options.maxVisited l.visited) (s.searchFrom close origins p)
      ((s.relax l).searchFrom close' origins p') := by
  have hrounds : s.rounds ≤ (s.relax l).rounds := Nat.mul_le_mul_right _ (Nat.succ_le_succ hl.nodes)
  have hgivenUp : s.rounds < (s.relax l).rounds → E .givenUp := by
    intro hlt
    exact hl.givenUp (Nat.lt_of_succ_lt_succ (Nat.lt_of_mul_lt_mul_right hlt))
  induction origins generalizing p p' with
  | nil => exact outlasts_pure hp
  | cons x origins ih =>
      obtain ⟨hlimit, rfl⟩ := hp
      rw [searchFrom, searchFrom]
      refine (outlasts_visitAll hl hlimit _).bind ?_
      rintro ⟨visits, fresh⟩ _ ⟨hlimit, rfl⟩
      exact (outlasts_explore hl hclose hrounds hgivenUp fresh ⟨hlimit, rfl⟩).bind
        fun _ _ hp => ih hp

/-- The searches behind closures, when as many more closures may be nested as the limits differ
by. -/
theorem outlasts_closureSearch {allowed allowed' : Nat}
    (hallowed : allowed + l.nesting = allowed' + s.options.maxNestingDepth)
    (a : Automaton) (x : Term) :
    Outlasts E Eq (s.closureSearch allowed a x) ((s.relax l).closureSearch allowed' a x) := by
  induction allowed generalizing allowed' a x with
  | zero =>
      cases allowed' with
      | zero =>
          have hsame : l.nesting = s.options.maxNestingDepth := by omega
          intro k
          change Run.Outlasts E Eq (fail (.nestingTooDeep s.options.maxNestingDepth) k)
            (fail (.nestingTooDeep l.nesting) k)
          rw [hsame]
          exact .error [] _
      | succ allowed' =>
          have hlt : s.options.maxNestingDepth < l.nesting := by omega
          exact fun _ => .onward (hl.tooDeep hlt) List.nil_prefix
  | succ allowed ih =>
      have hle : s.options.maxNestingDepth ≤ l.nesting := hl.nesting
      obtain ⟨allowed', rfl⟩ : ∃ n, allowed' = n + 1 := ⟨allowed' - 1, by omega⟩
      have hinner : Outlasts E (Progress.Relaxes s.options.maxVisited l.visited)
          ((s.nested a).searchFrom (s.closureSearch allowed) [x] (s.nested a).start)
          (((s.nested a).relax l).searchFrom ((s.relax l).closureSearch allowed') [x]
            ((s.nested a).relax l).start) :=
        outlasts_searchFrom (s := s.nested a) hl (fun b y => ih (by omega) b y) [x] ⟨rfl, rfl⟩
      rw [closureSearch, closureSearch]
      exact hinner.collect.bind_same fun solutions => outlasts_pure rfl

theorem outlasts_run (origins : List Term) :
    Outlasts E (Progress.Relaxes s.options.maxVisited l.visited) (s.run origins)
      ((s.relax l).run origins) :=
  outlasts_searchFrom hl (fun a x => outlasts_closureSearch hl (Nat.add_comm _ _) a x) origins
    ⟨rfl, rfl⟩

end steps

theorem probe_relax (s : Search) (l : Limits) : (s.relax l).probe = s.probe := by
  have hall : ∀ openings, (s.relax l).probeAll openings = s.probeAll openings := by
    intro openings
    induction openings with
    | nil => rfl
    | cons branches openings ih =>
        have hpairs :=
          joinedPairs_announcing s.graph l.nodes s.context (.var originVariable) branches
        rw [probeAll, probeAll, ih]
        change (joinedPairs (s.graph.announcing l.nodes) s.context _ branches >>= _) = _
        rw [hpairs]
  rw [probe, probe, hall]
  rfl

theorem reflexive_relax (s : Search) (l : Limits) (limit : Option Nat) (p : Progress) :
    (s.relax l).reflexive (p.relax limit) = s.reflexive p := by
  have hsame :
      ∀ xs, ((p.relax limit).visits.deliverReflexive xs).2 = (p.visits.deliverReflexive xs).2 :=
    Visits.deliverReflexive_congr rfl
  rw [reflexive, reflexive]
  simp only [hsame]
  rfl

end Search

namespace Evaluator
variable {e : Evaluator} {l : Limits} {E : Halt → Prop}
  {subject object : Endpoint} {path : CompiledPath}

def limits (e : Evaluator) : Limits :=
  ⟨e.graph.nodeBound, e.options.maxNestingDepth, e.options.maxVisited⟩

/-- The same evaluator under other limits. -/
def relax (e : Evaluator) (l : Limits) : Evaluator :=
  { e with
    graph := e.graph.announcing l.nodes
    options := { e.options with maxNestingDepth := l.nesting, maxVisited := l.visited } }

theorem searchFor_relax (e : Evaluator) (l : Limits) (subject : Endpoint) (path : CompiledPath)
    (object : Endpoint) :
    (e.relax l).searchFor subject path object = (e.searchFor subject path object).relax l := by
  cases subject <;> cases object <;> rfl

theorem originsFor_relax (e : Evaluator) (l : Limits) (subject : Endpoint) (path : CompiledPath)
    (object : Endpoint) :
    (e.relax l).originsFor subject path object = e.originsFor subject path object := by
  unfold originsFor
  split
  · rfl
  · rfl
  · rw [searchFor_relax, Search.probe_relax]

theorem closing_relax (e : Evaluator) (l : Limits) (limit : Option Nat) (subject : Endpoint)
    (path : CompiledPath) (object : Endpoint) (p : Progress) :
    (e.relax l).closing subject path object (p.relax limit) = e.closing subject path object p := by
  unfold closing
  split
  · rw [searchFor_relax]
    dsimp only
    rw [Search.reflexive_relax]
    rfl
  · rfl

/-- Under looser limits an evaluation does the same, or goes on where it was stopped by a limit. -/
theorem outlasts_evaluation (hl : e.limits.Loosens E l) :
    Outlasts E Eq (e.evaluation subject path object)
      ((e.relax l).evaluation subject path object) := by
  have hs : (e.searchFor subject path object).limits.Loosens E l := by
    rw [Search.limits, graph_searchFor, options_searchFor]
    exact hl
  rw [evaluation_eq, evaluation_eq, originsFor_relax, searchFor_relax]
  refine (outlasts_self _).bind_same fun origins => ?_
  refine (Search.outlasts_run hs origins).bind ?_
  rintro p _ ⟨_, rfl⟩
  rw [closing_relax]
  exact outlasts_self _

end Evaluator

end PropertyPath
