import Mathlib.Data.List.Perm.Subperm
import Mathlib.Data.List.ProdSigma
import PropertyPath.Proofs.Search.Explore

/-!
# A run finds what its automaton relates

A search that nothing limits ends for every origin: the configurations of one origin are pairs of a
state and of a node, and each of them is expanded at most once. The nodes behind a closure are found
in the same way, by induction on how many closures may still be evaluated within each other.
-/
namespace PropertyPath
open Relation (ReflTransGen)

/-- The state that a run from the initial state is in is one of the states. -/
theorem Automaton.exists_state_of_moves {G : Set Triple} {a : Automaton} (h : a.validate = .ok ())
    {x : Term} {d : StateName × Term} (hrun : ReflTransGen (a.Moves G) (start, x) d) :
    d.1 ∈ a.states.map State.name := by
  obtain ⟨hstates, hts⟩ := validate_eq_ok_iff.mp h
  rw [List.mem_map]
  cases hrun with
  | refl => exact hstates.mem_start
  | tail _ hmove =>
      obtain ⟨t, ht, _, htarget, _⟩ := Transition.moves_iff.mp hmove
      rw [← htarget]
      exact (hts t ht).target

namespace Search
variable {G : Set Triple} {s : Search} {close : ClosureSearch} {x : Term} {p p' : Progress}

/-- A search that neither the graph nor an option stops. -/
structure Unlimited (s : Search) (G : Set Triple) : Prop where
  serves : s.graph.Serves G
  depth : s.options.maxSearchDepth = none
  visited : s.options.maxVisited = none

/-- How many configurations of an origin have been reached. -/
def reachedFrom (x : Term) (p : Progress) : Nat := p.visits.reached.countP fun k => k.1 = x

theorem Underway.reachedFrom_le (hg : s.graph.Serves G) (hvalid : s.automaton.validate = .ok ())
    {queue : List Configuration} (h : s.Underway G x queue p) : reachedFrom x p ≤ s.rounds := by
  obtain ⟨nodes, hlength, hnodes⟩ := hg.bound
  let names := s.automaton.states.map State.name
  let all := ((x :: nodes) ×ˢ names).map fun k => (x, k)
  have hsub : (p.visits.reached.filter fun k => k.1 = x) ⊆ all := by
    intro key hk
    obtain ⟨x', y, q⟩ := key
    obtain ⟨hmem, hx⟩ := List.mem_filter.mp hk
    obtain rfl := of_decide_eq_true hx
    have hrun := h.sound y q hmem
    have hy : y ∈ x' :: nodes := by
      have hinside := inside_of_moves (fun t _ => Label.inside_relation t.label) hrun
      rcases hinside with heq | hin
      · exact List.mem_cons.mpr (Or.inl heq.symm)
      · exact List.mem_cons_of_mem _ (hnodes y hin.2)
    have hq := Automaton.exists_state_of_moves hvalid hrun
    exact List.mem_map_of_mem (List.mem_product.mpr ⟨hy, hq⟩)
  have hle := ((h.nodup.filter _).subperm hsub).length_le
  have hall : all.length = (nodes.length + 1) * s.automaton.states.length := by
    simp only [all, names, List.length_map, List.length_product, List.length_cons]
  rw [reachedFrom, List.countP_eq_length_filter]
  calc (p.visits.reached.filter fun k => k.1 = x).length
      ≤ all.length := hle
    _ = (nodes.length + 1) * s.automaton.states.length := hall
    _ ≤ s.rounds := Nat.mul_le_mul_right _ (Nat.succ_le_succ hlength)

/-- The queue is empty before the rounds are used up: each of them takes one configuration out of
it. -/
theorem yields_explore (hs : s.Unlimited G) (hvalid : s.automaton.validate = .ok ())
    (hclose : s.Closes G close) {n : Nat} {queue : List Configuration} (h : s.Underway G x queue p)
    (hn : queue.length + s.rounds ≤ n + reachedFrom x p) :
    (s.explore close n queue p).Yields fun solutions p' => ∃ pairs, solutions = pairs.map s.told ∧
      s.Advances G x p pairs p' ∧ s.Kept G p' ∧ s.Settled G x p' := by
  induction n generalizing queue p with
  | zero =>
      cases queue with
      | nil =>
          rw [explore]
          exact Evaluation.yields_pure ⟨[], rfl, Advances.refl p, h.toKept, h.settled⟩
      | cons c queue =>
          have hle := h.reachedFrom_le hs.serves hvalid
          rw [List.length_cons] at hn
          omega
  | succ n ih =>
      cases queue with
      | nil =>
          rw [explore]
          exact Evaluation.yields_pure ⟨[], rfl, Advances.refl p, h.toKept, h.settled⟩
      | cons c queue =>
          rw [explore]
          refine Evaluation.Yields.bind (yields_expand hs.serves hclose hs.depth h) ?_
          intro _ outcome hstep
          obtain ⟨next, p₁⟩ := outcome
          rcases hstep with ⟨pairs, rfl, hadvances, hcontinues⟩
          cases next with
          | none =>
              obtain ⟨hkept, hsettled⟩ := hcontinues
              exact Evaluation.yields_pure
                ⟨pairs, List.append_nil _, hadvances, hkept, hsettled⟩
          | some fresh =>
              obtain ⟨hunderway, hreached⟩ := hcontinues
              have hfresh : ∀ d ∈ fresh, d.key.1 = x := fun d hd =>
                (hunderway.queued d (List.mem_append_right _ hd)).1
              have hcount : reachedFrom x p₁ = fresh.length + reachedFrom x p := by
                rw [reachedFrom, hreached, List.countP_append, List.countP_reverse,
                  List.countP_map, List.countP_eq_length.mpr]
                · rfl
                · intro d hd
                  exact decide_eq_true (hfresh d hd)
              have hn' : (queue ++ fresh).length + s.rounds ≤ n + reachedFrom x p₁ := by
                rw [List.length_cons] at hn
                rw [List.length_append, hcount]
                omega
              refine (ih hunderway hn').mono ?_
              intro _ p₂ hgiven
              rcases hgiven with ⟨more, rfl, hadvances', hkept, hsettled⟩
              refine ⟨pairs ++ more, ?_, hadvances.trans hadvances', hkept, hsettled⟩
              rw [List.map_append]

/-- What holds when the search of some origins is over and the next one has not begun. -/
structure Covers (s : Search) (G : Set Triple) (xs : List Term) (p : Progress) : Prop
    extends s.Kept G p where
  reached : ∀ k ∈ p.visits.reached, k.1 ∈ xs
  begun : ∀ x ∈ xs, (x, x, Automaton.start) ∈ p.visits.reached
  delivered : ∀ x y, (x, y) ∈ p.visits.delivered ↔ x ∈ xs ∧ s.Finds G x y

theorem covers_start (hs : s.Unlimited G) : s.Covers G [] s.start where
  limit := hs.visited
  nodup := List.nodup_nil
  remembers := nofun
  reached := nofun
  begun := nofun
  delivered := by simp [start, Visits.withLimit]

/-- The invariant when the search of a new origin begins. -/
theorem Covers.underway {xs : List Term} (h : s.Covers G xs p) (hx : x ∉ xs) :
    s.Underway G x [.origin x] { p with visits := p.visits.add (.origin x) } := by
  have hfirst : ∀ y q, (x, y, q) ∈ (p.visits.add (.origin x)).reached →
      y = x ∧ q = Automaton.start := by
    intro y q hmem
    rcases List.mem_cons.mp hmem with heq | hmem
    · cases heq
      exact ⟨rfl, rfl⟩
    · exact absurd (h.reached _ hmem) hx
  have hnew : (Configuration.origin x).key ∉ p.visits.reached := fun hmem => hx (h.reached _ hmem)
  refine
    { limit := h.limit
      nodup := List.nodup_cons.mpr ⟨hnew, h.nodup⟩
      remembers := h.remembers
      origin := List.mem_cons_self
      sound := ?_
      queued := ?_
      closed := ?_ }
  · intro y q hmem
    obtain ⟨rfl, rfl⟩ := hfirst y q hmem
    exact ReflTransGen.refl
  · intro c hc
    rw [List.mem_singleton.mp hc]
    exact ⟨rfl, List.mem_cons_self⟩
  · intro y q hmem
    obtain ⟨rfl, rfl⟩ := hfirst y q hmem
    exact Or.inl ⟨_, List.mem_cons_self, rfl, rfl⟩

/-- The search of a new origin delivers what is to be found from there, and leaves the rest
alone. -/
theorem Covers.advance {xs : List Term} {pairs : List (Term × Term)} (h : s.Covers G xs p)
    (hadvances : s.Advances G x { p with visits := p.visits.add (.origin x) } pairs p')
    (hkept : s.Kept G p') (hsettled : s.Settled G x p') : s.Covers G (xs ++ [x]) p' := by
  refine { hkept with reached := ?_, begun := ?_, delivered := ?_ }
  · intro k hk
    rw [List.mem_append, List.mem_singleton]
    rcases hadvances.reached k hk with hk | hk
    · rcases List.mem_cons.mp hk with rfl | hk
      · exact Or.inr rfl
      · exact Or.inl (h.reached k hk)
    · exact Or.inr hk
  · intro z hz
    refine hadvances.grown (List.mem_cons.mpr ?_)
    rcases List.mem_append.mp hz with hz | hz
    · exact Or.inr (h.begun z hz)
    · rw [List.mem_singleton.mp hz]
      exact Or.inl rfl
  · intro z y
    rw [List.mem_append, List.mem_singleton]
    constructor
    · intro hmem
      rw [hadvances.delivered, List.mem_append, List.mem_reverse] at hmem
      rcases hmem with hmem | hmem
      · obtain ⟨rfl, hfinds⟩ := hadvances.found _ hmem
        exact ⟨Or.inr rfl, hfinds⟩
      · obtain ⟨hz, hfinds⟩ := (h.delivered z y).mp hmem
        exact ⟨Or.inl hz, hfinds⟩
    · intro hcase
      rcases hcase with ⟨hz | rfl, hfinds⟩
      · exact hadvances.delivered_subset ((h.delivered z y).mpr ⟨hz, hfinds⟩)
      · exact hsettled y hfinds

/-- The solutions that a search has told, and what has been delivered since, are the same. -/
def Tells (s : Search) (p : Progress) (solutions : List Solution) (p' : Progress) : Prop :=
  ∃ pairs : List (Term × Term), solutions = pairs.map s.told ∧
    p'.visits.delivered = pairs.reverse ++ p.visits.delivered

theorem Tells.append {p'' : Progress} {solutions more : List Solution} (h : s.Tells p solutions p')
    (h' : s.Tells p' more p'') : s.Tells p (solutions ++ more) p'' := by
  obtain ⟨pairs, rfl, hpairs⟩ := h
  obtain ⟨pairs', rfl, hpairs'⟩ := h'
  refine ⟨pairs ++ pairs', by rw [List.map_append], ?_⟩
  rw [hpairs', hpairs, List.reverse_append, List.append_assoc]

/-- An origin that has been searched before is not searched again. -/
theorem exists_visited (hs : s.Unlimited G) (hvalid : s.automaton.validate = .ok ())
    (hclose : s.Closes G close) {xs : List Term} (h : s.Covers G xs p) (x : Term) :
    ∃ visits fresh, p.visits.visitAll [.origin x] = .ok (visits, fresh) ∧
      (s.explore close s.rounds fresh { p with visits }).Yields fun solutions p' =>
        s.Tells p solutions p' ∧ s.Covers G (xs ++ [x]) p' := by
  by_cases hx : x ∈ xs
  · refine ⟨p.visits, [], Visits.visitAll_single_of_mem (h.begun x hx), ?_⟩
    have hmem : ∀ y, y ∈ xs ++ [x] ↔ y ∈ xs := by
      intro y
      rw [List.mem_append, List.mem_singleton]
      constructor
      · intro hcase
        rcases hcase with hy | rfl
        · exact hy
        · exact hx
      · exact Or.inl
    rw [explore]
    refine Evaluation.yields_pure ⟨⟨[], rfl, rfl⟩, ?_⟩
    refine { h.toKept with reached := ?_, begun := ?_, delivered := ?_ }
    · exact fun k hk => (hmem k.1).mpr (h.reached k hk)
    · exact fun y hy => h.begun y ((hmem y).mp hy)
    · intro z y
      rw [hmem]
      exact h.delivered z y
  · have hnew : (Configuration.origin x).key ∉ p.visits.reached :=
      fun hmem => hx (h.reached _ hmem)
    refine ⟨_, _, Visits.visitAll_single_of_not_mem h.limit hnew, ?_⟩
    have hunderway := h.underway hx
    have hpos : 0 < reachedFrom x { p with visits := p.visits.add (.origin x) } :=
      List.countP_pos_iff.mpr ⟨_, hunderway.origin, decide_eq_true rfl⟩
    have hrounds : [Configuration.origin x].length + s.rounds ≤
        s.rounds + reachedFrom x { p with visits := p.visits.add (.origin x) } := by
      rw [List.length_singleton]
      omega
    refine (yields_explore hs hvalid hclose hunderway hrounds).mono ?_
    intro _ p' hgiven
    rcases hgiven with ⟨pairs, rfl, hadvances, hkept, hsettled⟩
    exact ⟨⟨pairs, rfl, hadvances.delivered⟩, h.advance hadvances hkept hsettled⟩

/-- After the search of several origins everything to be found from them has been delivered. -/
theorem yields_searchFrom (hs : s.Unlimited G) (hvalid : s.automaton.validate = .ok ())
    (hclose : s.Closes G close) {origins xs : List Term} (h : s.Covers G xs p) :
    (s.searchFrom close origins p).Yields fun solutions p' =>
      s.Tells p solutions p' ∧ s.Covers G (xs ++ origins) p' := by
  induction origins generalizing xs p with
  | nil =>
      rw [List.append_nil]
      exact Evaluation.yields_pure ⟨⟨[], rfl, rfl⟩, h⟩
  | cons x origins ih =>
      obtain ⟨visits, fresh, hvisited, hexplore⟩ := exists_visited hs hvalid hclose h x
      have hvisit : (Evaluation.ofExcept (p.visits.visitAll [.origin x])).Returns
          (· = (visits, fresh)) := Evaluation.returns_ofExcept hvisited rfl
      rw [searchFrom, List.append_cons]
      refine Evaluation.Returns.bind hvisit ?_
      intro _ heq
      subst heq
      refine Evaluation.Yields.bind hexplore ?_
      intro solutions p₁ hgiven
      rcases hgiven with ⟨htells, hcovers⟩
      refine (ih hcovers).mono ?_
      intro more p₂ hmore
      rcases hmore with ⟨htells', hcovers'⟩
      exact ⟨htells.append htells', hcovers'⟩

/-- The nodes that a search from the beginning tells are those that it is for. -/
theorem Covers.mem_solutions {xs : List Term} {solutions : List Solution} (h : s.Covers G xs p)
    (htells : s.Tells s.start solutions p) {t : Solution} :
    t ∈ solutions ↔ ∃ x ∈ xs, ∃ y, s.Finds G x y ∧ s.told (x, y) = t := by
  obtain ⟨pairs, rfl, hdelivered⟩ := htells
  have hpairs : ∀ pair, pair ∈ pairs ↔ pair ∈ p.visits.delivered := by
    intro pair
    rw [hdelivered, List.mem_append, List.mem_reverse]
    simp [start, Visits.withLimit]
  rw [List.mem_map]
  constructor
  · intro hfound
    rcases hfound with ⟨⟨x, y⟩, hmem, ht⟩
    obtain ⟨hx, hfinds⟩ := (h.delivered x y).mp ((hpairs _).mp hmem)
    exact ⟨x, hx, y, hfinds, ht⟩
  · intro hgiven
    rcases hgiven with ⟨x, hx, y, hfinds, ht⟩
    exact ⟨(x, y), (hpairs _).mpr ((h.delivered x y).mpr ⟨hx, hfinds⟩), ht⟩

/-- The nested automata of a valid automaton are valid and nested less deep. -/
theorem closes_of_nested (hvalid : s.automaton.validate = .ok ()) {allowed : Nat}
    (hnesting : s.automaton.nesting ≤ allowed)
    (h : ∀ a : Automaton, a.validate = .ok () → a.nesting < allowed → ∀ x,
      (close a x).Returns fun nodes => ∀ y, y ∈ nodes ↔ a.relation G x y) : s.Closes G close := by
  intro t ht kind nested hlabel
  have hproper := ((Automaton.validate_eq_ok_iff.mp hvalid).2 t ht).label
  have hle := Automaton.nesting_le_iff.mp hnesting t ht
  rw [hlabel] at hproper hle
  exact h nested hproper hle

/-- The nodes behind a closure are those that its nested automaton relates, if there is allowance
for the closures within it. -/
theorem returns_closureSearch (hs : s.Unlimited G) {allowed : Nat} {a : Automaton}
    (hvalid : a.validate = .ok ()) (hnesting : a.nesting < allowed) (x : Term) :
    (s.closureSearch allowed a x).Returns fun nodes => ∀ y, y ∈ nodes ↔ a.relation G x y := by
  induction allowed generalizing a x with
  | zero => omega
  | succ allowed ih =>
      have hinner : (s.nested a).Unlimited G := ⟨hs.serves, hs.depth, hs.visited⟩
      have hclose : (s.nested a).Closes G (s.closureSearch allowed) :=
        closes_of_nested hvalid (Nat.le_of_lt_succ hnesting) fun b hb hlt y => ih hb hlt y
      have hsearch : ((s.nested a).searchFrom (s.closureSearch allowed) [x]
          (s.nested a).start).Yields fun solutions p =>
          (s.nested a).Tells (s.nested a).start solutions p ∧ (s.nested a).Covers G [x] p :=
        yields_searchFrom hinner hvalid hclose (covers_start hinner)
      rw [closureSearch]
      refine Evaluation.Returns.bind (Evaluation.returns_collect hsearch) ?_
      intro solutions h
      rcases h with ⟨p, htells, hcovers⟩
      refine Evaluation.returns_pure ?_
      intro y
      rw [List.mem_map]
      constructor
      · intro h
        rcases h with ⟨t, ht, rfl⟩
        obtain ⟨z, hz, y, hfinds, rfl⟩ := (hcovers.mem_solutions htells).mp ht
        rw [List.mem_singleton.mp hz] at hfinds
        exact hfinds.1
      · intro hrelation
        refine ⟨⟨x, y⟩, (hcovers.mem_solutions htells).mpr ?_, rfl⟩
        exact ⟨x, List.mem_cons_self, y, ⟨hrelation, trivial⟩, rfl⟩

theorem yields_run (hs : s.Unlimited G) (hvalid : s.automaton.validate = .ok ())
    (hnesting : s.automaton.nesting ≤ s.options.maxNestingDepth) (origins : List Term) :
    (s.run origins).Yields fun solutions p =>
      s.Tells s.start solutions p ∧ s.Covers G origins p :=
  have hclose : s.Closes G (s.closureSearch s.options.maxNestingDepth) :=
    closes_of_nested hvalid hnesting fun _ ha hlt x => returns_closureSearch hs ha hlt x
  yields_searchFrom hs hvalid hclose (covers_start hs)

end Search

end PropertyPath
