import PropertyPath.Proofs.Search.Expansion

/-!
# What one expansion leaves behind, and why it may fail

An expansion that goes on has followed all transitions out of its configuration, and everything
behind them has been reached by then. It fails for no other reason than one for which nothing is
found behind one of the transitions, or because the configurations behind them are more than may be
visited.
-/
namespace PropertyPath
open Evaluation

namespace Evaluation
variable {α : Type} {m : Evaluation α} {E E' : Halt → Prop} {P Q : α → Prop}

theorem Ends.imp (h : m.Ends E P) (hstop : ∀ stop, E stop → E' stop) (hvalue : ∀ a, P a → Q a) :
    m.Ends E' Q := by
  refine Finishes.mono h ?_
  intro _ r hr
  cases r with
  | ok a => exact hvalue a hr
  | error stop => exact hstop stop hr

theorem ends_ofExcept_of {r : Except EvaluationFault α} (hok : ∀ a, r = .ok a → P a)
    (hfault : ∀ fault, r = .error fault → E (.fault fault)) : (ofExcept r).Ends E P := by
  cases r with
  | ok a => exact ends_pure (hok a rfl)
  | error fault => exact ends_fail (hfault fault rfl)

end Evaluation

namespace Visits
variable {v w : Visits} {fresh : List Configuration}

/-- What has been visited without being refused is reached. -/
theorem reached_of_visitAll {cs : List Configuration} (h : v.visitAll cs = .ok (w, fresh)) :
    ∀ c ∈ cs, c.key ∈ w.reached := by
  induction cs generalizing v fresh with
  | nil => exact nofun
  | cons c cs ih =>
      obtain ⟨u, new, later, hvisit, hrest, rfl⟩ := visitAll_cons_eq_ok_iff.mp h
      have hc : c.key ∈ u.reached := by
        have hmem := mem_reached_visit v c
        rw [hvisit] at hmem
        exact hmem
      exact List.forall_mem_cons.mpr ⟨(grows_of_visitAll hrest).1.subset hc, ih hrest⟩

/-- No more is reached than the limit allows. -/
def Fits (v : Visits) : Prop := ∀ limit, v.limit = some limit → v.size ≤ limit

theorem fits_of_visitAll {cs : List Configuration}
    (h : v.visitAll cs = .ok (w, fresh)) (hv : v.Fits) :
    w.Fits := by
  induction cs generalizing v fresh with
  | nil =>
      cases h
      exact hv
  | cons c cs ih =>
      obtain ⟨u, new, later, hvisit, hrest, rfl⟩ := visitAll_cons_eq_ok_iff.mp h
      refine ih hrest ?_
      rcases visit_eq_ok_iff.mp hvisit with ⟨_, rfl, _⟩ | ⟨_, hcheck, rfl, _⟩
      · exact hv
      · exact checkLimit_eq_ok_iff.mp hcheck

theorem checkLimit_eq_error {fault : EvaluationFault} (h : v.checkLimit = .error fault) :
    ∃ limit, fault = .visitLimitExceeded limit ∧ v.limit = some limit ∧ limit < v.size := by
  unfold checkLimit at h
  split at h
  · next limit hlimit =>
      split at h
      · next hlt =>
          cases h
          exact ⟨limit, rfl, hlimit, hlt⟩
      · cases h
  · cases h

theorem visit_eq_error {c : Configuration} {fault : EvaluationFault}
    (h : v.visit c = (w, .error fault)) :
    v.Grows [c] w ∧ ∃ limit, fault = .visitLimitExceeded limit ∧
    v.limit = some limit ∧ limit < w.size := by
  unfold visit at h
  split at h
  · cases h
  · next hc =>
      obtain ⟨rfl, hcheck⟩ := Prod.mk.inj h
      cases hlimit : (v.add c).checkLimit with
      | ok _ =>
          rw [hlimit] at hcheck
          cases hcheck
      | error fault' =>
          rw [hlimit] at hcheck
          cases hcheck
          exact ⟨⟨rfl, rfl, rfl, fun hnodup => List.nodup_cons.mpr ⟨hc, hnodup⟩⟩,
            checkLimit_eq_error hlimit⟩

/-- Visits are refused only when with them more would be reached than the limit allows. -/
theorem exists_of_visitAll_eq_error {cs : List Configuration} {fault : EvaluationFault}
    (h : v.visitAll cs = .error fault) : ∃ limit fresh w, fault = .visitLimitExceeded limit ∧
      v.limit = some limit ∧ v.Grows fresh w ∧ fresh ⊆ cs ∧ limit < w.size := by
  induction cs generalizing v with
  | nil => cases h
  | cons c cs ih =>
      rw [visitAll] at h
      split at h
      · next u fault' hvisit =>
          cases h
          obtain ⟨hgrows, limit, hfault, hlimit, hlt⟩ := visit_eq_error hvisit
          exact ⟨limit, [c], u, hfault, hlimit, hgrows, by simp, hlt⟩
      · next u new hvisit =>
          have hgrows := grows_of_visit hvisit
          cases hrest : u.visitAll cs with
          | ok _ =>
              rw [hrest] at h
              cases h
          | error fault' =>
              rw [hrest] at h
              cases h
              obtain ⟨limit, fresh, w, hfault, hlimit, hmore, hsub, hlt⟩ := ih hrest
              refine ⟨limit, _, w, hfault, hgrows.limit.symm.trans hlimit,
                hgrows.trans hmore, ?_, hlt⟩
              cases new with
              | false => exact List.subset_cons_of_subset c hsub
              | true => exact List.cons_subset_cons c hsub

end Visits

namespace Search
variable {s : Search} {close : ClosureSearch} {p p' : Progress}
  {E : Label → Term → Halt → Prop} {P : Label → Term → List Term → Prop} {c : Configuration}

/-- What is found behind the transitions is of the given kind, and if nothing is found, it is for
one of the given reasons. -/
structure Provides (s : Search) (close : ClosureSearch) (E : Label → Term → Halt → Prop)
    (P : Label → Term → List Term → Prop) : Prop where
  branches : ∀ t ∈ s.automaton.transitions, ∀ branches, t.label.branches? = some branches → ∀ x,
    (joinedPairs s.graph s.context (.term x) branches).Ends (E t.label x) fun pairs =>
      P t.label x (pairs.map (·.2))
  closures : ∀ t ∈ s.automaton.transitions, ∀ kind nested, t.label = .closure kind nested → ∀ x,
    (close nested x).Ends (E t.label x) (P t.label x)

theorem Provides.follow (hs : s.Provides close E P) {t : Transition} {i : Nat}
    (hi : (t, i) ∈ s.automaton.transitions.zipIdx) (hp : s.Recalls P p) (x : Term) :
    (s.follow close i t x p).Ends (E t.label x) fun r =>
      P t.label x r.1 ∧ r.2.visits = p.visits ∧ s.Recalls P r.2 := by
  have ht := List.fst_mem_of_mem_zipIdx hi
  cases hbranches : t.label.branches? with
  | some branches =>
      rw [follow_of_branches hbranches]
      refine Ends.bind (hs.branches t ht branches hbranches x) ?_
      exact fun pairs hpairs => ends_pure ⟨hpairs, rfl, hp⟩
  | none =>
      obtain ⟨kind, nested, hlabel⟩ := Label.exists_closure_of_branches hbranches
      cases hfound : s.remembered? i x p with
      | some nodes =>
          rw [follow_of_remembered hlabel hfound]
          exact ends_pure ⟨hp t i hi x nodes (lookup_of_remembered hfound), rfl, hp⟩
      | none =>
          rw [follow_of_closure hlabel hfound]
          refine Ends.bind (hs.closures t ht kind nested hlabel x) ?_
          intro nodes hnodes
          refine Ends.bind (ends_log _) ?_
          exact fun _ _ => ends_pure ⟨hnodes, rfl, hp.cons hi hnodes⟩

/-- With the configurations behind some transitions more would be reached than may be visited. -/
def Overflows (P : Label → Term → List Term → Prop)
    (ts : List (Transition × Nat)) (c : Configuration)
    (v : Visits) (stop : Halt) : Prop :=
  ∃ limit fresh w, stop = .fault (.visitLimitExceeded limit) ∧ v.limit = some limit ∧
    v.Grows fresh w ∧ (∀ d ∈ fresh, Leads P ts c d) ∧ limit < w.size

/-- Why transitions out of a configuration are not all followed. -/
def Sticks (E : Label → Term → Halt → Prop) (P : Label → Term → List Term → Prop)
    (ts : List (Transition × Nat)) (c : Configuration) (v : Visits) (stop : Halt) : Prop :=
  (∃ t ∈ ts, E t.1.label c.node stop) ∨ Overflows P ts c v stop

/-- The transitions have been followed: everything behind them is reached. -/
def Followed (P : Label → Term → List Term → Prop)
    (ts : List (Transition × Nat)) (c : Configuration)
    (v : Visits) : Prop :=
  ∀ t ∈ ts, ∃ nodes, P t.1.label c.node nodes ∧
    ∀ y ∈ nodes, (c.successor y t.1.target).key ∈ v.reached

section follow
variable {ts us : List (Transition × Nat)} {t : Transition × Nat} {v w : Visits} {stop : Halt}

theorem Leads.mono {d : Configuration} (h : Leads P ts c d) (hsub : ts ⊆ us) : Leads P us c d := by
  obtain ⟨t, ht, hleads⟩ := h
  exact ⟨t, hsub ht, hleads⟩

theorem Leads.of_map (ht : t ∈ ts) {nodes : List Term} (hnodes : P t.1.label c.node nodes)
    {d : Configuration} (hd : d ∈ nodes.map fun node => c.successor node t.1.target) :
    Leads P ts c d := by
  obtain ⟨y, hy, rfl⟩ := List.mem_map.mp hd
  exact ⟨t, ht, nodes, hnodes, y, hy, rfl⟩

/-- What is left of the transitions gets stuck after some have been followed. -/
theorem Sticks.later {fresh : List Configuration} (h : Sticks E P ts c w stop)
    (hgrows : v.Grows fresh w) (hfresh : ∀ d ∈ fresh, Leads P us c d) (hsub : ts ⊆ us) :
    Sticks E P us c v stop := by
  rcases h with ⟨t, ht, hstop⟩ | ⟨limit, later, w', hstop, hlimit, hmore, hlater, hlt⟩
  · exact Or.inl ⟨t, hsub ht, hstop⟩
  · refine Or.inr ⟨limit, fresh ++ later, w', hstop, hgrows.limit.symm.trans hlimit,
      hgrows.trans hmore, ?_, hlt⟩
    intro d hd
    rcases List.mem_append.mp hd with hd | hd
    · exact hfresh d hd
    · exact (hlater d hd).mono hsub

theorem Provides.followAll (hs : s.Provides close E P) (c : Configuration)
    (hts : ts ⊆ s.automaton.transitions.zipIdx) (hp : s.Recalls P p) :
    (s.followAll close c ts p).Ends (Sticks E P ts c p.visits) fun r => s.Recalls P r.2 ∧
      p.visits.Grows r.1 r.2.visits ∧ (p.visits.Fits → r.2.visits.Fits) ∧
        (∀ d ∈ r.1, Leads P ts c d) ∧ Followed P ts c r.2.visits := by
  induction ts generalizing p with
  | nil => exact ends_pure ⟨hp, Visits.Grows.refl _, id, nofun, nofun⟩
  | cons t ts ih =>
      obtain ⟨t, i⟩ := t
      obtain ⟨hi, hrest⟩ := List.cons_subset.mp hts
      have hhead : (t, i) ∈ (t, i) :: ts := List.mem_cons_self
      rw [Search.followAll]
      refine Ends.bind ((hs.follow hi hp c.node).imp
        (fun stop hstop => Or.inl ⟨(t, i), hhead, hstop⟩) fun _ h => h) ?_
      intro answer hanswer
      obtain ⟨nodes, p₁⟩ := answer
      obtain ⟨hnodes, hvisits, hp₁⟩ := hanswer
      dsimp only at hnodes hvisits hp₁
      let cs := nodes.map fun node => c.successor node t.target
      have hcs : ∀ d ∈ cs, Leads P ((t, i) :: ts) c d := fun d hd => Leads.of_map hhead hnodes hd
      have hmarks : (ofExcept (p₁.visits.visitAll cs)).Ends (Sticks E P ((t, i) :: ts) c p.visits)
          fun marked => p₁.visits.visitAll cs = .ok marked := by
        refine ends_ofExcept_of (fun _ h => h) ?_
        intro fault hrefused
        obtain ⟨limit, fresh, w, rfl, hlimit, hgrows, hsub, hlt⟩ :=
          Visits.exists_of_visitAll_eq_error hrefused
        rw [hvisits] at hlimit hgrows
        exact Or.inr ⟨limit, fresh, w, rfl, hlimit, hgrows, fun d hd => hcs d (hsub hd), hlt⟩
      refine Ends.bind hmarks ?_
      intro marked hvisited
      obtain ⟨visits, fresh⟩ := marked
      obtain ⟨hgrows, hsub⟩ := Visits.grows_of_visitAll hvisited
      have hfits := Visits.fits_of_visitAll hvisited
      rw [hvisits] at hgrows hfits
      have hfresh : ∀ d ∈ fresh, Leads P ((t, i) :: ts) c d := fun d hd => hcs d (hsub hd)
      have htail : ts ⊆ (t, i) :: ts := List.subset_cons_self _ _
      refine Ends.bind ((ih (p := { p₁ with visits }) hrest hp₁).imp
        (fun stop hstop => hstop.later hgrows hfresh htail) fun _ h => h) ?_
      intro answer hanswer
      obtain ⟨later, p₂⟩ := answer
      obtain ⟨hp₂, hmore, hfits', hlater, hfollowed⟩ := hanswer
      refine ends_pure ⟨hp₂, hgrows.trans hmore, fun hp => hfits' (hfits hp), ?_, ?_⟩
      · intro d hd
        rcases List.mem_append.mp hd with hd | hd
        · exact hfresh d hd
        · exact (hlater d hd).mono htail
      · refine List.forall_mem_cons.mpr ⟨⟨nodes, hnodes, ?_⟩, hfollowed⟩
        intro y hy
        apply hmore.subset
        exact Visits.reached_of_visitAll hvisited _ (List.mem_map_of_mem hy)

end follow

/-- What an expansion leaves behind, when it goes on after it. -/
structure Sweeps (s : Search) (P : Label → Term → List Term → Prop)
    (c : Configuration) (p : Progress)
    (next : Option (List Configuration)) (p' : Progress) :
    Prop extends s.Expands P c p next p' where
  fits : p.visits.Fits → p'.visits.Fits
  goes : next ≠ none → s.stopsAt c = false
  shallow : next.getD [] ≠ [] → s.isTooDeep c = false
  followed : next ≠ none → s.isTooDeep c = false → Followed P (s.leaving c.state) c p'.visits

/-- What is reached for the first time lies one level deeper, in the search of the same origin. -/
theorem Sweeps.mem_fresh {P : Label → Term → List Term → Prop}
    {c d : Configuration} {p p' : Progress}
    {next : Option (List Configuration)} (h : s.Sweeps P c p next p') (hd : d ∈ next.getD []) :
    d.subject = c.subject ∧ d.depth = c.depth + 1 := by
  obtain ⟨t, _, _, _, y, _, rfl⟩ := h.leads d hd
  exact ⟨rfl, rfl⟩

/-- Why an expansion fails. -/
structure Fails (s : Search) (E : Label → Term → Halt → Prop) (P : Label → Term → List Term → Prop)
    (c : Configuration) (p : Progress) (stop : Halt) : Prop where
  onward : s.stopsAt c = false
  shallow : s.isTooDeep c = false
  sticks : Sticks E P (s.leaving c.state) c (s.mark c p).1.visits stop

theorem Provides.expand (hs : s.Provides close E P) (c : Configuration) (hp : s.Recalls P p) :
    (s.expand close c p).Ends (s.Fails E P c p) fun r => s.Sweeps P c p r.1 r.2 := by
  have hmarks := marks_mark s c p
  have hp' := hp.mark c
  have hsame := Visits.Grows.refl (s.mark c p).1.visits
  have hnone : ∀ d ∈ ([] : List Configuration), Leads P (s.leaving c.state) c d :=
    List.forall_mem_nil _
  have hsome (fresh : List Configuration) (heq : some fresh = none) : s.stopsAt c = true :=
    absurd heq (Option.some_ne_none fresh)
  have hfits : p.visits.Fits → (s.mark c p).1.visits.Fits := by
    intro hfits limit hlimit
    rw [Visits.size, hmarks.reached]
    exact hfits limit (hmarks.limit ▸ hlimit)
  rw [expand_eq]
  refine Ends.bind (ends_log _) ?_
  intro _ _
  split
  · next hstops =>
      refine Ends.bind (ends_log _) ?_
      intro _ _
      refine ends_pure ⟨hmarks.expands hsame hp' hnone rfl fun _ => hstops, hfits, ?_, ?_, ?_⟩
      · exact fun hne => absurd rfl hne
      · exact fun hne => absurd rfl hne
      · exact fun hne => absurd rfl hne
  · next hgoes =>
      have hgoes' := Bool.eq_false_iff.mpr hgoes
      rw [Search.onward]
      split
      · next hdeep =>
          refine Ends.bind (ends_log _) ?_
          intro _ _
          refine ends_pure ⟨hmarks.expands hsame hp' hnone rfl (hsome []), hfits,
            fun _ => hgoes', ?_, ?_⟩
          · exact fun hne => absurd rfl hne
          · exact fun _ hshallow => absurd hdeep (by simp [hshallow])
      · next hshallow =>
          have hshallow' := Bool.eq_false_iff.mpr hshallow
          refine Ends.bind ((hs.followAll c (leaving_subset _) hp').imp
            (fun stop hstop => ⟨hgoes', hshallow', hstop⟩) fun _ h => h) ?_
          intro answer hanswer
          obtain ⟨fresh, p'⟩ := answer
          obtain ⟨hrecalls, hgrows, hmore, hleads, hfollowed⟩ := hanswer
          refine Ends.bind (ends_log _) ?_
          intro _ _
          refine ends_pure ⟨hmarks.expands hgrows hrecalls hleads rfl (hsome fresh),
            fun hp => hmore (hfits hp), fun _ => hgoes', ?_, ?_⟩
          · exact fun _ => hshallow'
          · exact fun _ _ => hfollowed

end Search

end PropertyPath
