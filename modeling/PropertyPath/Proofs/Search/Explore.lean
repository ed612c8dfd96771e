import Mathlib.Data.List.Nodup
import PropertyPath.Proofs.Automaton.Nesting
import PropertyPath.Proofs.Automaton.Validity
import PropertyPath.Proofs.Search.Hop
import PropertyPath.Proofs.Search.Visits
import PropertyPath.Search.Explore

/-!
# A search finds what its automaton relates

The invariant of the search of one origin: whatever has been reached is reached by moves of the
automaton, and every reached configuration either waits in the queue or has had its transitions
followed and its pair delivered. Every expansion takes one configuration from the queue and adds
those that it reaches for the first time, so the queue is empty after as many rounds as there can be
configurations. What is reached then is closed under moves.
-/
namespace PropertyPath
open Relation (ReflTransGen)

/-- The pairs that a target lets through. -/
def Target.Allows (target : Target) (x y : Term) : Prop :=
  match target with
  | any => True
  | term t => t = y
  | origin => x = y

theorem Target.admits_iff {target : Target} {c : Configuration} :
    target.admits c = true ↔ target.Allows c.subject c.node := by
  cases target with
  | any => exact ⟨fun _ => trivial, fun _ => rfl⟩
  | term t => exact beq_iff_eq
  | origin => exact beq_iff_eq

/-- An origin has at most one node that a fixed target lets through. -/
theorem Target.Allows.unique {target : Target} (hfixed : target.isFixed = true) {x y z : Term}
    (hy : target.Allows x y) (hz : target.Allows x z) : y = z := by
  cases target with
  | any => cases hfixed
  | term t => exact Eq.trans (Eq.symm hy) hz
  | origin => exact Eq.trans (Eq.symm hy) hz

namespace Search
variable {G : Set Triple} {s : Search} {close : ClosureSearch} {x : Term} {p p' p'' : Progress}

/-- The pairs that a search is for. -/
def Finds (s : Search) (G : Set Triple) (x y : Term) : Prop :=
  s.automaton.relation G x y ∧ s.target.Allows x y

/-- The nodes behind every closure of the automaton are found. -/
def Closes (s : Search) (G : Set Triple) (close : ClosureSearch) : Prop :=
  ∀ t ∈ s.automaton.transitions, ∀ kind nested, t.label = .closure kind nested → ∀ x,
    (close nested x).Returns fun nodes => ∀ y, y ∈ nodes ↔ nested.relation G x y

/-- The nodes that are remembered about a transition are of the given kind. -/
def Recalls (s : Search) (P : Label → Term → List Term → Prop) (p : Progress) : Prop :=
  ∀ t i, (t, i) ∈ s.automaton.transitions.zipIdx → ∀ node nodes,
    p.closures.lookup (i, node) = some nodes → P t.label node nodes

/-- Nothing wrong is remembered about transitions. -/
def Remembers (s : Search) (G : Set Triple) (p : Progress) : Prop :=
  ∀ t i, (t, i) ∈ s.automaton.transitions.zipIdx → ∀ node nodes,
    p.closures.lookup (i, node) = some nodes → ∀ y, y ∈ nodes ↔ t.label.relation G node y

section follow
variable {t : Transition} {i : Nat}

theorem follow_of_branches {branches : List (List Instruction)}
    (h : t.label.branches? = some branches) (node : Term) :
    s.follow close i t node p = do
      let pairs ← joinedPairs s.graph s.context (.term node) branches
      return (pairs.map (·.2), p) := by
  unfold follow
  cases hlabel : t.label with
  | closure kind nested =>
      rw [hlabel] at h
      cases h
  | _ =>
      rw [hlabel] at h
      cases h
      rfl

theorem follow_of_remembered {kind : Closure} {nested : Automaton}
    (h : t.label = .closure kind nested)
    {node : Term} {nodes : List Term} (hfound : s.remembered? i node p = some nodes) :
    s.follow close i t node p = return (nodes, p) := by
  unfold follow
  rw [h]
  dsimp only
  rw [hfound]

theorem follow_of_closure {kind : Closure} {nested : Automaton} (h : t.label = .closure kind nested)
    {node : Term} (hfound : s.remembered? i node p = none) :
    s.follow close i t node p = do
      let nodes ← close nested node
      .log [.closure i node]
      return (nodes, { p with closures := ((i, node), nodes) :: p.closures }) := by
  unfold follow
  rw [h]
  dsimp only
  rw [hfound]

theorem lookup_of_remembered {node : Term} {nodes : List Term}
    (h : s.remembered? i node p = some nodes) : p.closures.lookup (i, node) = some nodes := by
  rw [remembered?] at h
  split at h
  · exact h
  · cases h

theorem Recalls.cons {P : Label → Term → List Term → Prop} (hp : s.Recalls P p)
    (hi : (t, i) ∈ s.automaton.transitions.zipIdx) {node : Term} {nodes : List Term}
    (hnodes : P t.label node nodes) :
    s.Recalls P { p with closures := ((i, node), nodes) :: p.closures } := by
  intro u j hj node' nodes' hlookup
  rw [List.lookup_cons] at hlookup
  by_cases heq : (j, node') = (i, node)
  · obtain ⟨rfl, rfl⟩ := Prod.mk.inj heq
    have hu := List.mk_mem_zipIdx_iff_getElem?.mp hj
    rw [List.mk_mem_zipIdx_iff_getElem?.mp hi] at hu
    obtain rfl := Option.some.inj hu
    rw [beq_self_eq_true] at hlookup
    cases hlookup
    exact hnodes
  · have hne : ((j, node') == (i, node)) = false := beq_eq_false_iff_ne.mpr heq
    rw [hne] at hlookup
    exact hp u j hj node' nodes' hlookup

theorem remembers_cons (hp : s.Remembers G p) (hi : (t, i) ∈ s.automaton.transitions.zipIdx)
    {node : Term} {nodes : List Term} (hnodes : ∀ y, y ∈ nodes ↔ t.label.relation G node y) :
    s.Remembers G { p with closures := ((i, node), nodes) :: p.closures } :=
  Recalls.cons (P := fun l node nodes => ∀ y, y ∈ nodes ↔ l.relation G node y) hp hi hnodes

/-- The nodes that are joined to a term by the chains of a label are those that the label
relates. -/
theorem returns_joinedPairs_of_branches (hg : s.graph.Serves G) {l : Label}
    {branches : List (List Instruction)} (hbranches : l.branches? = some branches) (node : Term) :
    (joinedPairs s.graph s.context (.term node) branches).Returns fun pairs =>
      ∀ y, y ∈ pairs.map (·.2) ↔ l.relation G node y := by
  have hstart : ∀ v, Endpoint.term node = .var v → ¬ v.IsFresh 0 := by
    intro v hv
    cases hv
  refine Evaluation.Yields.mono (returns_joinedPairs hg hstart fun _ => ⟨node, rfl⟩) ?_
  intro _ pairs hboth
  rcases hboth with ⟨rfl, hpairs⟩
  refine ⟨rfl, ?_⟩
  intro y
  rw [Label.relation_of_branches hbranches, List.mem_map]
  constructor
  · intro h
    rcases h with ⟨⟨z, y⟩, hmem, rfl⟩
    obtain ⟨hchain, hz⟩ := (hpairs z y).mp hmem
    rw [Endpoint.admits_term.mp hz] at hchain
    exact hchain
  · intro hchain
    exact ⟨(node, y), (hpairs node y).mpr ⟨hchain, Endpoint.admits_term.mpr rfl⟩, rfl⟩

theorem returns_follow_branches (hg : s.graph.Serves G) (hp : s.Remembers G p)
    {branches : List (List Instruction)}
    (hbranches : t.label.branches? = some branches) (node : Term) :
    (s.follow close i t node p).Returns fun r => (∀ y, y ∈ r.1 ↔ t.label.relation G node y) ∧
      r.2.visits = p.visits ∧ s.Remembers G r.2 := by
  rw [follow_of_branches hbranches]
  refine Evaluation.Returns.bind (returns_joinedPairs_of_branches hg hbranches node) ?_
  intro pairs hpairs
  exact Evaluation.returns_pure ⟨hpairs, rfl, hp⟩

theorem returns_follow_closure (hclose : s.Closes G close)
    (hi : (t, i) ∈ s.automaton.transitions.zipIdx) (hp : s.Remembers G p) {kind : Closure}
    {nested : Automaton} (hlabel : t.label = .closure kind nested) (node : Term) :
    (s.follow close i t node p).Returns fun r => (∀ y, y ∈ r.1 ↔ t.label.relation G node y) ∧
      r.2.visits = p.visits ∧ s.Remembers G r.2 := by
  cases hfound : s.remembered? i node p with
  | some nodes =>
      rw [follow_of_remembered hlabel hfound]
      exact Evaluation.returns_pure ⟨hp t i hi node nodes (lookup_of_remembered hfound), rfl, hp⟩
  | none =>
      have ht := List.fst_mem_of_mem_zipIdx hi
      rw [follow_of_closure hlabel hfound, hlabel]
      refine Evaluation.Returns.bind (hclose t ht kind nested hlabel node) ?_
      intro nodes hnodes
      have hlog : ∀ e ∈ [Event.closure i node], e.isSolution = false := by
        simp [Event.isSolution]
      refine Evaluation.Returns.bind (Evaluation.returns_log hlog) ?_
      intro _ _
      refine Evaluation.returns_pure ⟨hnodes, rfl, remembers_cons hp hi ?_⟩
      rw [hlabel]
      exact hnodes

/-- The nodes behind a transition are those that its label relates. -/
theorem returns_follow (hg : s.graph.Serves G) (hclose : s.Closes G close)
    (hi : (t, i) ∈ s.automaton.transitions.zipIdx) (hp : s.Remembers G p) (node : Term) :
    (s.follow close i t node p).Returns fun r => (∀ y, y ∈ r.1 ↔ t.label.relation G node y) ∧
      r.2.visits = p.visits ∧ s.Remembers G r.2 := by
  cases hbranches : t.label.branches? with
  | some branches => exact returns_follow_branches hg hp hbranches node
  | none =>
      obtain ⟨kind, nested, hlabel⟩ := Label.exists_closure_of_branches hbranches
      exact returns_follow_closure hclose hi hp hlabel node

end follow

/-- What holds of the progress at any time. -/
structure Kept (s : Search) (G : Set Triple) (p : Progress) : Prop where
  limit : p.visits.limit = none
  nodup : p.visits.reached.Nodup
  remembers : s.Remembers G p

/-- What is visited for the first time when transitions are followed lies behind one of them, and
everything that lies behind one of them has been reached then. -/
theorem returns_followAll (hg : s.graph.Serves G) (hclose : s.Closes G close) (c : Configuration)
    {ts : List (Transition × Nat)} (hts : ts ⊆ s.automaton.transitions.zipIdx) (hp : s.Kept G p) :
    (s.followAll close c ts p).Returns fun r => s.Kept G r.2 ∧ p.visits.Grows r.1 r.2.visits ∧
      (∀ d ∈ r.1, ∃ t ∈ ts, ∃ y, t.1.label.relation G c.node y ∧ d = c.successor y t.1.target) ∧
      ∀ t ∈ ts, ∀ y, t.1.label.relation G c.node y →
        (c.successor y t.1.target).key ∈ r.2.visits.reached := by
  induction ts generalizing p with
  | nil => exact Evaluation.returns_pure ⟨hp, Visits.Grows.refl _, nofun, nofun⟩
  | cons t ts ih =>
      obtain ⟨t, i⟩ := t
      obtain ⟨hi, hrest⟩ := List.cons_subset.mp hts
      rw [followAll]
      refine Evaluation.Returns.bind (returns_follow hg hclose hi hp.remembers c.node) ?_
      intro answer hanswer
      obtain ⟨nodes, p₁⟩ := answer
      obtain ⟨hnodes, hvisits, hremembers⟩ := hanswer
      obtain ⟨visits, fresh, hvisited, hgrows, hfresh, hreached⟩ :=
        Visits.visitAll_grows (v := p₁.visits) (hvisits ▸ hp.limit)
          (nodes.map fun node => c.successor node t.target)
      have hvisit : (Evaluation.ofExcept (p₁.visits.visitAll
          (nodes.map fun node => c.successor node t.target))).Returns (· = (visits, fresh)) :=
        Evaluation.returns_ofExcept hvisited rfl
      refine Evaluation.Returns.bind hvisit ?_
      intro _ heq
      subst heq
      rw [hvisits] at hgrows
      have hp₂ : s.Kept G { p₁ with visits } :=
        ⟨hgrows.limit.trans hp.limit, hgrows.nodup hp.nodup, hremembers⟩
      refine Evaluation.Returns.bind (ih hrest hp₂) ?_
      intro answer hanswer
      obtain ⟨later, p₃⟩ := answer
      obtain ⟨hkept, hgrows', hlater, hreached'⟩ := hanswer
      refine Evaluation.returns_pure ⟨hkept, hgrows.trans hgrows', ?_, ?_⟩
      · intro d hd
        rcases List.mem_append.mp hd with hd | hd
        · obtain ⟨y, hy, rfl⟩ := List.mem_map.mp (hfresh hd)
          exact ⟨(t, i), List.mem_cons_self, y, (hnodes y).mp hy, rfl⟩
        · obtain ⟨u, hu, hd⟩ := hlater d hd
          exact ⟨u, List.mem_cons_of_mem _ hu, hd⟩
      · rw [List.forall_mem_cons]
        refine ⟨?_, hreached'⟩
        intro y hy
        have hmem := List.mem_map_of_mem (f := fun node => c.successor node t.target)
          ((hnodes y).mpr hy)
        exact hgrows'.subset (hreached _ hmem)

theorem mem_leaving {q : StateName} {t : Transition × Nat} :
    t ∈ s.leaving q ↔ t ∈ s.automaton.transitions.zipIdx ∧ t.1.source = q := by
  simp [leaving]

/-- The transitions that leave a state are the moves from there. -/
theorem moves_iff_leaving {q q' : StateName} {y y' : Term} :
    s.automaton.Moves G (q, y) (q', y') ↔
      ∃ t ∈ s.leaving q, t.1.target = q' ∧ t.1.label.relation G y y' := by
  refine Transition.moves_iff.trans ?_
  constructor
  · intro h
    rcases h with ⟨t, ht, hsource, htarget, hlabel⟩
    obtain ⟨i, hi⟩ := List.mem_iff_getElem?.mp ht
    have hmem : (t, i) ∈ s.automaton.transitions.zipIdx := List.mk_mem_zipIdx_iff_getElem?.mpr hi
    exact ⟨(t, i), mem_leaving.mpr ⟨hmem, hsource⟩, htarget, hlabel⟩
  · intro h
    rcases h with ⟨t, ht, htarget, hlabel⟩
    obtain ⟨hmem, hsource⟩ := mem_leaving.mp ht
    exact ⟨t.1, List.fst_mem_of_mem_zipIdx hmem, hsource, htarget, hlabel⟩

/-- The transitions out of a configuration have been followed, and its pair has been delivered. -/
structure Expanded (s : Search) (G : Set Triple) (x : Term) (p : Progress)
    (q : StateName) (y : Term) :
    Prop where
  followed : ∀ q' y', s.automaton.Moves G (q, y) (q', y') → (x, y', q') ∈ p.visits.reached
  delivered : s.automaton.isFinal q = true → s.target.Allows x y → (x, y) ∈ p.visits.delivered

theorem Expanded.mono {q : StateName} {y : Term} (h : s.Expanded G x p q y)
    (hreached : p.visits.reached ⊆ p'.visits.reached)
    (hdelivered : p.visits.delivered ⊆ p'.visits.delivered) : s.Expanded G x p' q y :=
  ⟨fun q' y' hmove => hreached (h.followed q' y' hmove),
    fun hfinal hallows => hdelivered (h.delivered hfinal hallows)⟩

/-- The invariant of the search of one origin. -/
structure Underway (s : Search) (G : Set Triple) (x : Term) (queue : List Configuration)
    (p : Progress) : Prop extends s.Kept G p where
  origin : (x, x, Automaton.start) ∈ p.visits.reached
  sound : ∀ y q, (x, y, q) ∈ p.visits.reached →
    ReflTransGen (s.automaton.Moves G) (Automaton.start, x) (q, y)
  queued : ∀ c ∈ queue, c.subject = x ∧ c.key ∈ p.visits.reached
  closed : ∀ y q, (x, y, q) ∈ p.visits.reached →
    (∃ c ∈ queue, c.node = y ∧ c.state = q) ∨ s.Expanded G x p q y

/-- What is new since `p`: only what belongs to the origin, and of its pairs only those looked
for. -/
structure Advances (s : Search) (G : Set Triple) (x : Term) (p : Progress)
    (pairs : List (Term × Term))
    (p' : Progress) : Prop where
  grown : p.visits.reached ⊆ p'.visits.reached
  reached : ∀ k ∈ p'.visits.reached, k ∈ p.visits.reached ∨ k.1 = x
  delivered : p'.visits.delivered = pairs.reverse ++ p.visits.delivered
  found : ∀ pair ∈ pairs, pair.1 = x ∧ s.Finds G x pair.2

namespace Advances
variable {pairs more : List (Term × Term)}

theorem refl (p : Progress) : s.Advances G x p [] p :=
  ⟨List.Subset.refl _, fun _ hk => Or.inl hk, rfl, nofun⟩

theorem trans (h : s.Advances G x p pairs p') (h' : s.Advances G x p' more p'') :
    s.Advances G x p (pairs ++ more) p'' where
  grown := List.Subset.trans h.grown h'.grown
  reached k hk := by
    rcases h'.reached k hk with hk | hk
    · exact h.reached k hk
    · exact Or.inr hk
  delivered := by rw [h'.delivered, h.delivered, List.reverse_append, List.append_assoc]
  found pair hpair := (List.mem_append.mp hpair).elim (h.found pair) (h'.found pair)

theorem delivered_subset (h : s.Advances G x p pairs p') :
    p.visits.delivered ⊆ p'.visits.delivered := by
  rw [h.delivered]
  exact List.subset_append_right _ _

end Advances

/-- Everything that is looked for from the origin has been delivered. -/
def Settled (s : Search) (G : Set Triple) (x : Term) (p : Progress) : Prop :=
  ∀ y, s.Finds G x y → (x, y) ∈ p.visits.delivered

/-- Every pair that the target lets through from the origin has been delivered. -/
def Answered (s : Search) (x : Term) (p : Progress) : Prop :=
  ∀ y, s.target.Allows x y → (x, y) ∈ p.visits.delivered

theorem Answered.settled (h : s.Answered x p) : s.Settled G x p := fun y hy => h y hy.2

/-- Nothing is left to be found when the queue is empty. -/
theorem Underway.settled (h : s.Underway G x [] p) : s.Settled G x p := by
  have hexpanded : ∀ y q, (x, y, q) ∈ p.visits.reached → s.Expanded G x p q y := by
    intro y q hmem
    rcases h.closed y q hmem with ⟨c, hc, _⟩ | hexpanded
    · cases hc
    · exact hexpanded
  have hreached : ∀ d, ReflTransGen (s.automaton.Moves G) (Automaton.start, x) d →
      (x, d.2, d.1) ∈ p.visits.reached := by
    intro d hrun
    induction hrun with
    | refl => exact h.origin
    | tail _ hmove ih => exact (hexpanded _ _ ih).followed _ _ hmove
  intro y hrelated
  rcases hrelated with ⟨hrelation, hallows⟩
  rw [Automaton.relation_eq] at hrelation
  obtain ⟨q, hfinal, hrun⟩ := hrelation
  exact (hexpanded y q (hreached _ hrun)).delivered hfinal hallows

theorem Underway.head {c : Configuration} {queue : List Configuration}
    (h : s.Underway G x (c :: queue) p) :
    c.subject = x ∧ (x, c.node, c.state) ∈ p.visits.reached := by
  obtain ⟨hsubject, hkey⟩ := h.queued c List.mem_cons_self
  refine ⟨hsubject, ?_⟩
  rw [← hsubject]
  exact hkey

/-- What is reached for the first time in an expansion comes last in the queue. -/
theorem Underway.step {c : Configuration} {queue fresh : List Configuration}
    (h : s.Underway G x (c :: queue) p) (hkept : s.Kept G p')
    (hreached : ∀ k, k ∈ p'.visits.reached ↔ (∃ d ∈ fresh, d.key = k) ∨ k ∈ p.visits.reached)
    (hdelivered : p.visits.delivered ⊆ p'.visits.delivered)
    (hfresh : ∀ d ∈ fresh,
      ∃ q y, s.automaton.Moves G (c.state, c.node) (q, y) ∧ d = c.successor y q)
    (hexpanded : s.Expanded G x p' c.state c.node) : s.Underway G x (queue ++ fresh) p' := by
  have hold : p.visits.reached ⊆ p'.visits.reached := fun k hk => (hreached k).mpr (Or.inr hk)
  obtain ⟨hsubject, hc⟩ := h.head
  refine { hkept with origin := hold h.origin, sound := ?_, queued := ?_, closed := ?_ }
  · intro y q hmem
    rcases (hreached _).mp hmem with ⟨d, hd, hkey⟩ | hmem
    · obtain ⟨q', y', hmove, rfl⟩ := hfresh d hd
      cases hkey
      exact (h.sound _ _ hc).tail hmove
    · exact h.sound y q hmem
  · intro d hd
    rcases List.mem_append.mp hd with hd | hd
    · obtain ⟨hdsubject, hkey⟩ := h.queued d (List.mem_cons_of_mem c hd)
      exact ⟨hdsubject, hold hkey⟩
    · have hkey := (hreached d.key).mpr (Or.inl ⟨d, hd, rfl⟩)
      obtain ⟨q, y, _, rfl⟩ := hfresh d hd
      exact ⟨hsubject, hkey⟩
  · intro y q hmem
    rcases (hreached _).mp hmem with ⟨d, hd, hkey⟩ | hmem
    · cases hkey
      exact Or.inl ⟨d, List.mem_append_right _ hd, rfl, rfl⟩
    · rcases h.closed y q hmem with ⟨d, hd, rfl, rfl⟩ | hdone
      · rcases List.mem_cons.mp hd with rfl | hd
        · exact Or.inr hexpanded
        · exact Or.inl ⟨d, List.mem_append_left _ hd, rfl, rfl⟩
      · exact Or.inr (hdone.mono hold hdelivered)

/-- A solution as it is told of a pair of origin and node. -/
def told (s : Search) (pair : Term × Term) : Solution :=
  if s.backward then ⟨pair.2, pair.1⟩ else ⟨pair.1, pair.2⟩

theorem told_self (x : Term) : s.told (x, x) = ⟨x, x⟩ := by
  rw [told]
  split <;> rfl

theorem hits_iff {c : Configuration} :
    s.hits c = true ↔ s.automaton.isFinal c.state = true ∧ s.target.Allows c.subject c.node := by
  rw [hits, Bool.and_eq_true, Target.admits_iff]

/-- The pair of a configuration is delivered when it is looked for and new. -/
theorem exists_delivered (c : Configuration) (v : Visits) :
    ∃ (new : Bool) (pairs : List (Term × Term)),
    (if s.hits c then v.deliver c.subject c.node else (v, false)) =
        ({ v with delivered := pairs.reverse ++ v.delivered }, new) ∧
      (if new then [s.solution c] else []) = pairs.map s.told ∧
      (∀ pair ∈ pairs, pair = (c.subject, c.node) ∧ s.hits c = true) ∧
      (s.hits c = true → (c.subject, c.node) ∈ pairs.reverse ++ v.delivered) ∧
      (v.delivered.Nodup → (pairs.reverse ++ v.delivered).Nodup) := by
  by_cases hhits : s.hits c = true
  · obtain ⟨new, hdeliver, hmem, hnodup⟩ := v.deliver_spec c.subject c.node
    refine ⟨new, if new then [(c.subject, c.node)] else [], ?_⟩
    rw [if_pos hhits, hdeliver]
    cases new with
    | false => exact ⟨rfl, rfl, nofun, fun _ => hmem, hnodup⟩
    | true =>
        refine ⟨rfl, rfl, ?_, fun _ => hmem, hnodup⟩
        intro pair hpair
        exact ⟨List.mem_singleton.mp hpair, hhits⟩
  · exact ⟨false, [], if_neg hhits, rfl, nofun, fun h => absurd h hhits, id⟩

section expand
variable {c : Configuration} {queue fresh : List Configuration} {pairs : List (Term × Term)}

theorem Underway.finds_of_hits (h : s.Underway G x (c :: queue) p) (hhits : s.hits c = true) :
    s.Finds G x c.node := by
  obtain ⟨hsubject, hc⟩ := h.head
  obtain ⟨hfinal, hallows⟩ := hits_iff.mp hhits
  rw [hsubject] at hallows
  refine ⟨?_, hallows⟩
  rw [Automaton.relation_eq]
  exact ⟨c.state, hfinal, h.sound _ _ hc⟩

/-- When the only node to look for has been delivered, there is nothing else to be found. -/
theorem answered_of_hits (hsubject : c.subject = x) (hhits : s.hits c = true)
    (hfixed : s.target.isFixed = true) (hmem : (c.subject, c.node) ∈ p.visits.delivered) :
    s.Answered x p := by
  intro y hy
  have hallows := (hits_iff.mp hhits).2
  rw [hsubject] at hallows hmem
  rw [← hallows.unique hfixed hy]
  exact hmem

/-- An expansion delivers the pair of its configuration or nothing. -/
theorem Underway.advances (h : s.Underway G x (c :: queue) p)
    (hpairs : ∀ pair ∈ pairs, pair = (c.subject, c.node) ∧ s.hits c = true)
    (hgrown : p.visits.reached ⊆ p'.visits.reached)
    (hreached : ∀ k ∈ p'.visits.reached, k ∈ p.visits.reached ∨ k.1 = x)
    (hdelivered : p'.visits.delivered = pairs.reverse ++ p.visits.delivered) :
    s.Advances G x p pairs p' := by
  refine ⟨hgrown, hreached, hdelivered, ?_⟩
  intro pair hpair
  obtain ⟨rfl, hhits⟩ := hpairs pair hpair
  exact ⟨h.head.1, h.finds_of_hits hhits⟩

/-- When all transitions out of a configuration have been followed and its pair has been delivered,
the search goes on with what has been reached by that for the first time. -/
theorem Underway.followed (h : s.Underway G x (c :: queue) p) (hkept : s.Kept G p')
    (hreached : ∀ k, k ∈ p'.visits.reached ↔ (∃ d ∈ fresh, d.key = k) ∨ k ∈ p.visits.reached)
    (hdelivered : p'.visits.delivered = pairs.reverse ++ p.visits.delivered)
    (hpairs : ∀ pair ∈ pairs, pair = (c.subject, c.node) ∧ s.hits c = true)
    (hmem : s.hits c = true → (c.subject, c.node) ∈ pairs.reverse ++ p.visits.delivered)
    (hfresh : ∀ d ∈ fresh, ∃ t ∈ s.leaving c.state, ∃ y,
      t.1.label.relation G c.node y ∧ d = c.successor y t.1.target)
    (hfollowed : ∀ t ∈ s.leaving c.state, ∀ y, t.1.label.relation G c.node y →
      (c.successor y t.1.target).key ∈ p'.visits.reached) :
    s.Advances G x p pairs p' ∧ s.Underway G x (queue ++ fresh) p' := by
  obtain ⟨hsubject, _⟩ := h.head
  have hmoves : ∀ d ∈ fresh, ∃ q y, s.automaton.Moves G (c.state, c.node) (q, y) ∧
      d = c.successor y q := by
    intro d hd
    obtain ⟨t, ht, y, hy, rfl⟩ := hfresh d hd
    exact ⟨t.1.target, y, moves_iff_leaving.mpr ⟨t, ht, rfl, hy⟩, rfl⟩
  have hexpanded : s.Expanded G x p' c.state c.node := by
    constructor
    · intro q y hmove
      obtain ⟨t, ht, rfl, hy⟩ := moves_iff_leaving.mp hmove
      rw [← hsubject]
      exact hfollowed t ht y hy
    · intro hfinal hallows
      rw [hdelivered, ← hsubject]
      exact hmem (hits_iff.mpr ⟨hfinal, hsubject ▸ hallows⟩)
  have hnew : ∀ k ∈ p'.visits.reached, k ∈ p.visits.reached ∨ k.1 = x := by
    intro k hk
    rcases (hreached k).mp hk with ⟨d, hd, rfl⟩ | hk
    · obtain ⟨_, _, _, rfl⟩ := hmoves d hd
      exact Or.inr hsubject
    · exact Or.inl hk
  have hadvances := h.advances hpairs (fun k hk => (hreached k).mpr (Or.inr hk)) hnew hdelivered
  exact ⟨hadvances, h.step hkept hreached hadvances.delivered_subset hmoves hexpanded⟩

/-- What an expansion leaves to do: nothing, or to go on with the queue. -/
def Continues (s : Search) (G : Set Triple) (x : Term) (queue : List Configuration) (p : Progress)
    (r : Option (List Configuration) × Progress) : Prop :=
  match r.1 with
  | none => s.Kept G r.2 ∧ s.Settled G x r.2
  | some fresh => s.Underway G x (queue ++ fresh) r.2 ∧
      r.2.visits.reached = (fresh.map Configuration.key).reverse ++ p.visits.reached

theorem yields_expand (hg : s.graph.Serves G) (hclose : s.Closes G close)
    (hdepth : s.options.maxSearchDepth = none) (h : s.Underway G x (c :: queue) p) :
    (s.expand close c p).Yields fun solutions r => ∃ pairs, solutions = pairs.map s.told ∧
      s.Advances G x p pairs r.2 ∧ s.Continues G x queue p r := by
  obtain ⟨new, pairs, hdeliver, hbatch, hpairs, hmem, _⟩ := exists_delivered (s := s) c p.visits
  have hlog : ∀ e ∈ [Event.expand c], e.isSolution = false := by
    simp [Event.isSolution]
  have hshallow : s.isTooDeep c = false := by
    rw [isTooDeep, hdepth]
    rfl
  rw [expand]
  refine Evaluation.Returns.bind (Evaluation.returns_log hlog) ?_
  intro _ _
  rw [hdeliver]
  dsimp only
  rw [hbatch, hshallow, if_neg Bool.false_ne_true]
  let p₁ : Progress :=
    { p with visits := { p.visits with delivered := pairs.reverse ++ p.visits.delivered } }
  have hkept₁ : s.Kept G p₁ := ⟨h.limit, h.nodup, h.remembers⟩
  by_cases hdone : (s.hits c && s.options.earlyTermination && s.target.isFixed) = true
  · rw [if_pos hdone]
    simp only [Bool.and_eq_true] at hdone
    obtain ⟨⟨hhits, _⟩, hfixed⟩ := hdone
    have hadvances : s.Advances G x p pairs p₁ :=
      h.advances hpairs (List.Subset.refl _) (fun _ hk => Or.inl hk) rfl
    have hsettled : s.Settled G x p₁ :=
      (answered_of_hits h.head.1 hhits hfixed (hmem hhits)).settled
    refine Evaluation.Yields.bind (Evaluation.yields_deliver _) ?_
    intro _ _ heq
    subst heq
    exact Evaluation.yields_pure ⟨pairs, List.append_nil _, hadvances, hkept₁, hsettled⟩
  · rw [if_neg hdone]
    have hsub : s.leaving c.state ⊆ s.automaton.transitions.zipIdx :=
      fun _ ht => (mem_leaving.mp ht).1
    refine Evaluation.Returns.bind (returns_followAll hg hclose c hsub hkept₁) ?_
    intro answer hanswer
    obtain ⟨fresh, p₂⟩ := answer
    obtain ⟨hkept₂, hgrows, hfresh, hfollowed⟩ := hanswer
    obtain ⟨hadvances, hunderway⟩ := h.followed hkept₂ (fun k => hgrows.mem_reached)
      hgrows.delivered hpairs hmem hfresh hfollowed
    refine Evaluation.Yields.bind (Evaluation.yields_deliver _) ?_
    intro _ _ heq
    subst heq
    exact Evaluation.yields_pure
      ⟨pairs, List.append_nil _, hadvances, hunderway, hgrows.reached⟩

end expand

end Search

end PropertyPath
