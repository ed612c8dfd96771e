import PropertyPath.Proofs.Search.Distinct
import PropertyPath.Proofs.Search.Explore

/-!
# What one expansion does

Whatever the options are, and however the graph behaves, an expansion that ends with a value visits
successors of its configuration, each for the first time, and delivers the pair of its configuration
or nothing. What is known of the nodes behind transitions is a parameter, for as far as it is kept
by what is remembered about closures.
-/
namespace PropertyPath
open Evaluation

namespace Search
variable {s : Search} {close : ClosureSearch} {p p' p'' : Progress} {E : Halt → Prop}
  {P : Label → Term → List Term → Prop} {c : Configuration}

/-- What is found behind the transitions is of the given kind, if it is found. -/
structure Supplies (s : Search) (close : ClosureSearch) (E : Halt → Prop)
    (P : Label → Term → List Term → Prop) : Prop where
  fault : ∀ fault, E (.fault fault)
  branches : ∀ t ∈ s.automaton.transitions, ∀ branches, t.label.branches? = some branches → ∀ x,
    (joinedPairs s.graph s.context (.term x) branches).Ends E fun pairs =>
      P t.label x (pairs.map (·.2))
  closures : ∀ t ∈ s.automaton.transitions, ∀ kind nested, t.label = .closure kind nested → ∀ x,
    (close nested x).Ends E (P t.label x)

theorem ends_follow (hs : s.Supplies close E P) {t : Transition} {i : Nat}
    (hi : (t, i) ∈ s.automaton.transitions.zipIdx) (hp : s.Recalls P p) (x : Term) :
    (s.follow close i t x p).Ends E fun r =>
      P t.label x r.1 ∧ r.2.visits = p.visits ∧ s.Recalls P r.2 := by
  have ht := List.fst_mem_of_mem_zipIdx hi
  cases hbranches : t.label.branches? with
  | some branches =>
      rw [follow_of_branches hbranches]
      refine Ends.bind (hs.branches t ht branches hbranches x) ?_
      exact fun pairs hpairs => ends_pure ⟨hpairs, rfl, hp⟩
  | none =>
      obtain ⟨kind, nested, hlabel⟩ := Label.exists_closure_of_branches hbranches
      cases hfound : s.remembered? i x p with
      | some nodes =>
          rw [follow_of_remembered hlabel hfound]
          exact ends_pure ⟨hp t i hi x nodes (lookup_of_remembered hfound), rfl, hp⟩
      | none =>
          rw [follow_of_closure hlabel hfound]
          refine Ends.bind (hs.closures t ht kind nested hlabel x) ?_
          intro nodes hnodes
          refine Ends.bind (ends_log _) ?_
          exact fun _ _ => ends_pure ⟨hnodes, rfl, hp.cons hi hnodes⟩

/-- The configuration lies behind one of the transitions. -/
def Leads (P : Label → Term → List Term → Prop)
    (ts : List (Transition × Nat)) (c d : Configuration) :
    Prop :=
  ∃ t ∈ ts, ∃ nodes, P t.1.label c.node nodes ∧ ∃ y ∈ nodes, d = c.successor y t.1.target

theorem Leads.subject {ts : List (Transition × Nat)} {d : Configuration} (h : Leads P ts c d) :
    d.subject = c.subject := by
  obtain ⟨_, _, _, _, _, _, rfl⟩ := h
  rfl

theorem ends_followAll (hs : s.Supplies close E P) (c : Configuration)
    {ts : List (Transition × Nat)}
    (hts : ts ⊆ s.automaton.transitions.zipIdx) (hp : s.Recalls P p) :
    (s.followAll close c ts p).Ends E fun r => s.Recalls P r.2 ∧ p.visits.Grows r.1 r.2.visits ∧
      ∀ d ∈ r.1, Leads P ts c d := by
  induction ts generalizing p with
  | nil => exact ends_pure ⟨hp, Visits.Grows.refl _, nofun⟩
  | cons t ts ih =>
      obtain ⟨t, i⟩ := t
      obtain ⟨hi, hrest⟩ := List.cons_subset.mp hts
      rw [followAll]
      refine Ends.bind (ends_follow hs hi hp c.node) ?_
      intro answer hanswer
      obtain ⟨nodes, p₁⟩ := answer
      obtain ⟨hnodes, hvisits, hp₁⟩ := hanswer
      refine Ends.bind
        (ends_ofExcept (fun _ hvisited => Visits.grows_of_visitAll hvisited) hs.fault) ?_
      intro marked hmarked
      obtain ⟨visits, fresh⟩ := marked
      obtain ⟨hgrows, hfresh⟩ := hmarked
      refine Ends.bind (ih (p := { p₁ with visits }) hrest hp₁) ?_
      intro answer hanswer
      obtain ⟨later, p₂⟩ := answer
      obtain ⟨hp₂, hgrows', hlater⟩ := hanswer
      rw [hvisits] at hgrows
      refine ends_pure ⟨hp₂, hgrows.trans hgrows', ?_⟩
      intro d hd
      rcases List.mem_append.mp hd with hd | hd
      · obtain ⟨y, hy, rfl⟩ := List.mem_map.mp (hfresh hd)
        exact ⟨(t, i), List.mem_cons_self, nodes, hnodes, y, hy, rfl⟩
      · obtain ⟨u, hu, hlead⟩ := hlater d hd
        exact ⟨u, List.mem_cons_of_mem _ hu, hlead⟩

/-- The progress when the pair of a configuration is marked as delivered, if it is looked for, and
what is to be delivered of it. -/
def mark (s : Search) (c : Configuration) (p : Progress) : Progress × List Solution :=
  let (visits, new) := if s.hits c then p.visits.deliver c.subject c.node else (p.visits, false)
  ({ p with visits }, if new then [s.solution c] else [])

/-- Whether the origin of a configuration is done with. -/
def stopsAt (s : Search) (c : Configuration) : Bool :=
  s.hits c && s.options.earlyTermination && s.target.isFixed

/-- What is left of an expansion when the origin is not done with. -/
def onward (s : Search) (close : ClosureSearch) (c : Configuration) (p : Progress)
    (batch : List Solution) : Evaluation (Option (List Configuration) × Progress) :=
  if s.isTooDeep c then do
    .deliver batch
    return (some [], p)
  else do
    let (fresh, p) ← s.followAll close c (s.leaving c.state) p
    .deliver batch
    return (some fresh, p)

theorem expand_eq (s : Search) (close : ClosureSearch) (c : Configuration) (p : Progress) :
    s.expand close c p = (do
      .log [.expand c]
      if s.stopsAt c then do
        .deliver (s.mark c p).2
        return (none, (s.mark c p).1)
      else s.onward close c (s.mark c p).1 (s.mark c p).2) := rfl

/-- What has been delivered when the pair of a configuration is marked. -/
structure Marks (s : Search) (c : Configuration) (p p' : Progress) : Prop where
  delivered : p'.visits.delivered = p.visits.delivered ∨ (s.hits c = true ∧
    (c.subject, c.node) ∉ p.visits.delivered ∧
      p'.visits.delivered = (c.subject, c.node) :: p.visits.delivered)
  told : s.hits c = true → (c.subject, c.node) ∈ p'.visits.delivered
  reached : p'.visits.reached = p.visits.reached
  limit : p'.visits.limit = p.visits.limit
  closures : p'.closures = p.closures

theorem marks_mark (s : Search) (c : Configuration) (p : Progress) :
    s.Marks c p (s.mark c p).1 := by
  by_cases hhits : s.hits c = true
  · rw [mark, if_pos hhits, Visits.deliver]
    by_cases hmem : (c.subject, c.node) ∈ p.visits.delivered
    · rw [if_pos hmem]
      exact ⟨Or.inl rfl, fun _ => hmem, rfl, rfl, rfl⟩
    · rw [if_neg hmem]
      exact ⟨Or.inr ⟨hhits, hmem, rfl⟩, fun _ => List.mem_cons_self, rfl, rfl, rfl⟩
  · rw [mark, if_neg hhits]
    exact ⟨Or.inl rfl, fun h => absurd h hhits, rfl, rfl, rfl⟩

/-- The progress and what comes next after the expansion of a configuration. -/
structure Expands (s : Search) (P : Label → Term → List Term → Prop)
    (c : Configuration) (p : Progress)
    (next : Option (List Configuration)) (p' : Progress) : Prop where
  delivered : p'.visits.delivered = p.visits.delivered ∨ (s.hits c = true ∧
    (c.subject, c.node) ∉ p.visits.delivered ∧
      p'.visits.delivered = (c.subject, c.node) :: p.visits.delivered)
  told : s.hits c = true → (c.subject, c.node) ∈ p'.visits.delivered
  reached : p'.visits.reached = ((next.getD []).map Configuration.key).reverse ++ p.visits.reached
  nodup : p.visits.reached.Nodup → p'.visits.reached.Nodup
  limit : p'.visits.limit = p.visits.limit
  recalls : s.Recalls P p'
  leads : ∀ d ∈ next.getD [], Leads P (s.leaving c.state) c d
  stops : next = none → s.stopsAt c = true

/-- What is new depends on what has been delivered alone. -/
theorem mark_congr (s : Search) (c : Configuration)
    (h : p'.visits.delivered = p.visits.delivered) :
    (s.mark c p').1.visits.delivered = (s.mark c p).1.visits.delivered ∧
      (s.mark c p').2 = (s.mark c p).2 := by
  by_cases hhits : s.hits c = true
  · rw [mark, mark, if_pos hhits, if_pos hhits, Visits.deliver, Visits.deliver, h]
    by_cases hmem : (c.subject, c.node) ∈ p.visits.delivered
    · rw [if_pos hmem, if_pos hmem]
      exact ⟨h, rfl⟩
    · rw [if_neg hmem, if_neg hmem]
      exact ⟨rfl, rfl⟩
  · rw [mark, mark, if_neg hhits, if_neg hhits]
    exact ⟨h, rfl⟩

theorem leaving_subset (q : StateName) : s.leaving q ⊆ s.automaton.transitions.zipIdx :=
  fun _ ht => (mem_leaving.mp ht).1

theorem Marks.expands {fresh : List Configuration} (h : s.Marks c p p')
    (hgrows : p'.visits.Grows fresh p''.visits) (hrecalls : s.Recalls P p'')
    (hleads : ∀ d ∈ fresh, Leads P (s.leaving c.state) c d) {next : Option (List Configuration)}
    (hnext : next.getD [] = fresh) (hstops : next = none → s.stopsAt c = true) :
    s.Expands P c p next p'' := by
  subst hnext
  refine ⟨?_, ?_, ?_, ?_, hgrows.limit.trans h.limit, hrecalls, hleads, hstops⟩
  · rw [hgrows.delivered]
    exact h.delivered
  · rw [hgrows.delivered]
    exact h.told
  · rw [hgrows.reached, h.reached]
  · rw [← h.reached]
    exact hgrows.nodup

theorem Recalls.mark (hp : s.Recalls P p) (c : Configuration) : s.Recalls P (s.mark c p).1 := by
  intro t i hi node nodes
  rw [(marks_mark s c p).closures]
  exact hp t i hi node nodes

theorem ends_expand (hs : s.Supplies close E P) (c : Configuration) (hp : s.Recalls P p) :
    (s.expand close c p).Ends E fun r => s.Expands P c p r.1 r.2 := by
  have hmarks := marks_mark s c p
  have hp' := hp.mark c
  have hsame := Visits.Grows.refl (s.mark c p).1.visits
  have hnone : ∀ d ∈ ([] : List Configuration), Leads P (s.leaving c.state) c d := nofun
  rw [expand_eq]
  refine Ends.bind (ends_log _) ?_
  intro _ _
  split
  · next hstops =>
      refine Ends.bind (ends_log _) ?_
      exact fun _ _ => ends_pure (hmarks.expands hsame hp' hnone rfl fun _ => hstops)
  · rw [onward]
    split
    · refine Ends.bind (ends_log _) ?_
      exact fun _ _ => ends_pure (hmarks.expands hsame hp' hnone rfl nofun)
    · refine Ends.bind (ends_followAll hs c (leaving_subset _) hp') ?_
      intro answer hanswer
      obtain ⟨fresh, p'⟩ := answer
      obtain ⟨hrecalls, hgrows, hleads⟩ := hanswer
      refine Ends.bind (ends_log _) ?_
      exact fun _ _ => ends_pure (hmarks.expands hgrows hrecalls hleads rfl nofun)

end Search

end PropertyPath
