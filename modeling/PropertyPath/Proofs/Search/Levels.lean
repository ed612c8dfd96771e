import PropertyPath.Proofs.Automaton.Shapes
import PropertyPath.Proofs.Search.Sweep
import PropertyPath.Proofs.Search.Termination

/-!
# A search goes up level by level

The queue of an origin is in order of depth, and nothing that has been put in it lies deeper than
one level above its head. So a configuration is put in the queue at the least depth at which it can
be reached, and a limit on the depth keeps nothing back but what takes more steps than that.
-/
namespace PropertyPath
open Evaluation

theorem Visits.visitAll_single_eq_ok {v w : Visits} {c : Configuration} {fresh : List Configuration}
    (h : v.visitAll [c] = .ok (w, fresh)) :
    (c.key ∈ v.reached ∧ fresh = []) ∨ (c.key ∉ v.reached ∧ fresh = [c]) := by
  obtain ⟨u, new, later, hvisit, hrest, rfl⟩ := visitAll_cons_eq_ok_iff.mp h
  cases hrest
  rcases visit_eq_ok_iff.mp hvisit with ⟨hc, _, rfl⟩ | ⟨hc, _, _, rfl⟩
  · exact Or.inl ⟨hc, rfl⟩
  · exact Or.inr ⟨hc, rfl⟩

namespace Search
variable {s : Search} {close : ClosureSearch} {st st' : Stage} {events : List Event}
  {E : Label → Term → Halt → Prop} {P : Label → Term → List Term → Prop}
  {hop : List (List Instruction) → Term → Term → Prop} {origins : List Term}

section makes
variable {n : Nat}

/-- A search of one origin that is not given up is a sequence of polls. -/
theorem empties_explore_of_ne (st : Stage)
    (h : (s.explore close n st.queue st.progress st.calls).result ≠ .error .givenUp) :
    s.Empties close st (s.explore close n st.queue st.progress st.calls) := by
  let kept (n : Nat) (st : Stage) : Prop :=
    (s.explore close n st.queue st.progress st.calls).result ≠ .error .givenUp
  refine empties_explore_of (I := kept) ?_ ?_ h
  · intro st h
    cases hqueue : st.queue with
    | nil => rfl
    | cons c queue =>
        change (s.explore close 0 st.queue st.progress st.calls).result ≠ _ at h
        rw [hqueue] at h
        exact absurd rfl h
  · intro n st c queue told r h hqueue hexpand
    change (s.explore close (n + 1) st.queue st.progress st.calls).result ≠ _ at h
    rw [hqueue, explore_cons_of_ok hexpand] at h
    exact h

/-- A search that is not given up is polled to its end. -/
theorem makes_searchFrom_of_ne (st : Stage) {left : List Term} (hqueue : st.queue = [])
    (horigins : st.origins = left)
    (h : (s.searchFrom close left st.progress st.calls).result ≠ .error .givenUp) :
    s.Makes close st (s.searchFrom close left st.progress st.calls) := by
  induction left generalizing st with
  | nil => exact Makes.done (poll_of_done hqueue horigins)
  | cons x left ih =>
      refine makes_searchFrom_cons hqueue horigins ?_ ?_
      · intro visits fresh hvisited
        rw [searchFrom_cons_of_ok hvisited] at h
        refine empties_explore_of_ne (st.begin left visits fresh) fun hgivenUp => h ?_
        exact result_bind_of_error hgivenUp
      · intro visits fresh events last hvisited hrun hpolls hdone hleft
        rw [searchFrom_cons_of_ok hvisited, bind_run_of_ok hrun] at h
        apply ih last hdone hleft
        rw [hpolls.calls]
        exact h

end makes

/-- A configuration of one of the origins is reached by a run of as many steps as it lies deep. -/
structure Climbs (s : Search)
    (hop : List (List Instruction) → Term → Term → Prop) (origins : List Term)
    (c : Configuration) : Prop where
  subject : c.subject ∈ origins
  reaches : s.automaton.Reaches hop s.options.maxSearchDepth c.depth (Automaton.start, c.subject)
    (c.state, c.node)

/-- What is found behind a label is what a step within the limit passes to. -/
def Passes (s : Search) (hop : List (List Instruction) → Term → Term → Prop)
    (P : Label → Term → List Term → Prop) : Prop :=
  ∀ l x ys, P l x ys → ∀ y, y ∈ ys ↔ l.within hop s.options.maxSearchDepth x y

theorem climbs_origin {x : Term} (hx : x ∈ origins) : s.Climbs hop origins (.origin x) :=
  ⟨hx, Automaton.reaches_zero.mpr rfl⟩

theorem Passes.preserves (hP : s.Passes hop P) : s.Preserves P (s.Climbs hop origins) := by
  intro c d hc hleads
  obtain ⟨t, ht, nodes, hnodes, y, hy, rfl⟩ := hleads
  obtain ⟨hmem, hsource⟩ := mem_leaving.mp ht
  have hstep := (hP _ _ _ hnodes y).mp hy
  refine ⟨hc.subject, Automaton.reaches_succ.mpr ⟨_, hc.reaches, ?_⟩⟩
  exact ⟨t.1, List.fst_mem_of_mem_zipIdx hmem, hsource, rfl, hstep⟩

/-- The search of the origin has stopped at a node that was looked for. -/
def Stopped (s : Search) (st : Stage) (x : Term) : Prop :=
  ∃ d ∈ st.queued, d.subject = x ∧ s.stopsAt d = true ∧
    (d.subject, d.node) ∈ st.progress.visits.delivered

/-- The configuration is done with: its pair has been delivered, and what lies behind it has been
put in the queue, no deeper than one level above it. -/
structure Done (s : Search) (P : Label → Term → List Term → Prop) (st : Stage) (c : Configuration) :
    Prop where
  told : s.hits c = true → (c.subject, c.node) ∈ st.progress.visits.delivered
  followed : s.isTooDeep c = false → ∀ t ∈ s.leaving c.state, ∃ nodes, P t.1.label c.node nodes ∧
    ∀ y ∈ nodes, ∃ d ∈ st.queued, d.key = (c.successor y t.1.target).key ∧ d.depth ≤ c.depth + 1

/-- The invariant of a search by levels. -/
structure Levelled (s : Search) (hop : List (List Instruction) → Term → Term → Prop)
    (P : Label → Term → List Term → Prop) (origins : List Term) (st : Stage) : Prop
    extends s.Sound P (s.Climbs hop origins) st where
  limit : st.progress.visits.limit = s.options.maxVisited
  fits : st.progress.visits.Fits
  shallow : ∀ c ∈ st.queued, ∀ d, s.options.maxSearchDepth = some d → c.depth ≤ d
  ascending : st.queue.Pairwise fun c d => c.depth ≤ d.depth
  alike : ∀ c ∈ st.queue, ∀ d ∈ st.queue, c.subject = d.subject
  near : ∀ c ∈ st.queue, ∀ d ∈ st.queued, d.subject = c.subject → d.depth ≤ c.depth + 1
  rooted : ∀ c ∈ st.queued, .origin c.subject ∈ st.queued
  begun : ∀ x ∈ origins, x ∈ st.origins ∨ .origin x ∈ st.queued
  settled : ∀ c ∈ st.queued, c ∈ st.queue ∨ s.Stopped st c.subject ∨ s.Done P st c

section levelled
variable {c : Configuration} {queue : List Configuration}

theorem levelled_first (origins : List Term) (k : Nat) :
    s.Levelled hop P origins (s.first origins k) where
  toSound := sound_first (fun _ hx => climbs_origin hx) k
  limit := rfl
  fits _ _ := Nat.zero_le _
  shallow := nofun
  ascending := List.Pairwise.nil
  alike := nofun
  near := nofun
  rooted := nofun
  begun _ hx := Or.inl hx
  settled := nofun

theorem Sound.mem_reached {Q : Configuration → Prop} (h : s.Sound P Q st)
    {key : Term × Term × StateName} :
    key ∈ st.progress.visits.reached ↔ ∃ c ∈ st.queued, c.key = key := by
  rw [h.reached, List.mem_reverse, List.mem_map]

theorem Sound.queue_subset {Q : Configuration → Prop} (h : s.Sound P Q st) : st.queue ⊆ st.queued :=
  fun _ hc => h.order.subset (List.mem_append_right _ hc)

/-- What has been done with stays done with. -/
theorem settled_mono (hqueued : st.queued ⊆ st'.queued)
    (hdelivered : st.progress.visits.delivered ⊆ st'.progress.visits.delivered)
    (h : s.Stopped st c.subject ∨ s.Done P st c) : s.Stopped st' c.subject ∨ s.Done P st' c := by
  rcases h with ⟨d, hd, hsubject, hstops, htold⟩ | hdone
  · exact Or.inl ⟨d, hqueued hd, hsubject, hstops, hdelivered htold⟩
  · refine Or.inr ⟨fun hhits => hdelivered (hdone.told hhits), ?_⟩
    intro hshallow t ht
    obtain ⟨nodes, hnodes, hput⟩ := hdone.followed hshallow t ht
    refine ⟨nodes, hnodes, ?_⟩
    intro y hy
    obtain ⟨d, hd, hkey⟩ := hput y hy
    exact ⟨d, hqueued hd, hkey⟩

theorem Levelled.begin (h : s.Levelled hop P origins st) {x : Term}
    {left : List Term} {visits : Visits} {fresh : List Configuration} (hqueue : st.queue = [])
    (horigins : st.origins = x :: left)
    (hvisited : st.progress.visits.visitAll [.origin x] = .ok (visits, fresh)) :
    s.Levelled hop P origins (st.begin left visits fresh) := by
  have hsound := h.toSound.begin hqueue horigins hvisited
  obtain ⟨hgrows, hsub⟩ := Visits.grows_of_visitAll hvisited
  have hfresh : ∀ c ∈ fresh, c = .origin x := fun c hc => List.mem_singleton.mp (hsub hc)
  have hnew : ∀ c ∈ fresh, ∀ d ∈ st.queued, d.subject ≠ x := by
    intro c hc d hd hx
    rcases Visits.visitAll_single_eq_ok hvisited with ⟨_, rfl⟩ | ⟨hnot, _⟩
    · cases hc
    · exact hnot (h.mem_reached.mpr ⟨_, hx ▸ h.rooted d hd, rfl⟩)
  have hx : .origin x ∈ st.queued ++ fresh := by
    rcases Visits.visitAll_single_eq_ok hvisited with ⟨hreached, _⟩ | ⟨_, rfl⟩
    · obtain ⟨c, hc, hkey⟩ := h.mem_reached.mp hreached
      have hsubject : c.subject = x := congrArg Prod.fst hkey
      exact List.mem_append_left _ (hsubject ▸ h.rooted c hc)
    · exact List.mem_append_right _ List.mem_cons_self
  refine ⟨hsound, hgrows.limit.trans h.limit, Visits.fits_of_visitAll hvisited h.fits,
    ?_, ?_, ?_, ?_, ?_, ?_, ?_⟩
  · intro c hc d hd
    rcases List.mem_append.mp hc with hc | hc
    · exact h.shallow c hc d hd
    · rw [hfresh c hc]
      exact Nat.zero_le d
  · rcases Visits.visitAll_single_eq_ok hvisited with ⟨_, rfl⟩ | ⟨_, rfl⟩
    · exact List.Pairwise.nil
    · exact List.pairwise_singleton _ _
  · intro c hc d hd
    rw [hfresh c hc, hfresh d hd]
  · intro c hc d hd hsubject
    rw [hfresh c hc] at hsubject
    rcases List.mem_append.mp hd with hd | hd
    · exact absurd hsubject (hnew c hc d hd)
    · rw [hfresh d hd]
      exact Nat.zero_le _
  · intro c hc
    rcases List.mem_append.mp hc with hc | hc
    · exact List.mem_append_left _ (h.rooted c hc)
    · rw [hfresh c hc]
      exact hx
  · intro y hy
    rcases h.begun y hy with hleft | hreached
    · rw [horigins] at hleft
      rcases List.mem_cons.mp hleft with rfl | hleft
      · exact Or.inr hx
      · exact Or.inl hleft
    · exact Or.inr (List.mem_append_left _ hreached)
  · intro c hc
    rcases List.mem_append.mp hc with hc | hc
    · rcases h.settled c hc with hwaits | hsettled
      · rw [hqueue] at hwaits
        cases hwaits
      · refine Or.inr (settled_mono (List.subset_append_left _ _) ?_ hsettled)
        exact hgrows.delivered ▸ List.Subset.refl _
    · exact Or.inl hc

section next
variable {fresh? : Option (List Configuration)} {p : Progress} (h : s.Levelled hop P origins st)
  (hqueue : st.queue = c :: queue)
include h hqueue

/-- The head of the queue lies no deeper than anything that waits. -/
theorem Levelled.head_le : ∀ d ∈ st.queue, c.depth ≤ d.depth := by
  have hascending := h.ascending
  rw [hqueue, List.pairwise_cons] at hascending
  rw [hqueue, List.forall_mem_cons]
  exact ⟨Nat.le_refl _, hascending.1⟩

variable (hsweeps : s.Sweeps P c st.progress fresh? p)
include hsweeps

theorem Levelled.near_next {d : Configuration} (hd : d ∈ st.queued ++ fresh?.getD [])
    (hsubject : d.subject = c.subject) : d.depth ≤ c.depth + 1 := by
  rcases List.mem_append.mp hd with hd | hd
  · exact h.near c (hqueue ▸ List.mem_cons_self) d hd hsubject
  · exact Nat.le_of_eq (hsweeps.mem_fresh hd).2

/-- After an expansion nothing waits that is of another origin or lies higher than what was
expanded. -/
theorem Levelled.mem_queue_next {d : Configuration}
    (hd : d ∈ (st.next c queue events (fresh?, p)).queue) :
    d.subject = c.subject ∧ c.depth ≤ d.depth := by
  cases fresh? with
  | none => cases hd
  | some fresh =>
      rcases List.mem_append.mp hd with hd | hd
      · have hd' : d ∈ st.queue := hqueue ▸ List.mem_cons_of_mem c hd
        exact ⟨h.alike d hd' c (hqueue ▸ List.mem_cons_self), h.head_le hqueue d hd'⟩
      · obtain ⟨hsubject, hdepth⟩ := hsweeps.mem_fresh hd
        exact ⟨hsubject, by omega⟩

theorem Levelled.ascending_next :
    (st.next c queue events (fresh?, p)).queue.Pairwise fun d e => d.depth ≤ e.depth := by
  cases fresh? with
  | none => exact List.Pairwise.nil
  | some fresh =>
      have hascending := h.ascending
      rw [hqueue, List.pairwise_cons] at hascending
      refine List.pairwise_append.mpr ⟨hascending.2, ?_, ?_⟩
      · refine List.pairwise_of_forall_mem_list ?_
        intro d hd e he
        rw [(hsweeps.mem_fresh hd).2, (hsweeps.mem_fresh he).2]
      · intro d hd e he
        have hd' : d ∈ st.queue := hqueue ▸ List.mem_cons_of_mem c hd
        have hsubject := h.alike d hd' c (hqueue ▸ List.mem_cons_self)
        rw [(hsweeps.mem_fresh he).2]
        exact h.near_next hqueue hsweeps (List.mem_append_left _ (h.queue_subset hd')) hsubject

/-- When the search goes on after an expansion, it is done with what was expanded. -/
theorem Levelled.done_next
    (hsound : s.Sound P (s.Climbs hop origins) (st.next c queue events (fresh?, p)))
    (hgoes : fresh? ≠ none) : s.Done P (st.next c queue events (fresh?, p)) c := by
  refine ⟨hsweeps.told, ?_⟩
  intro hshallow t ht
  obtain ⟨nodes, hnodes, hreached⟩ := hsweeps.followed hgoes hshallow t ht
  refine ⟨nodes, hnodes, ?_⟩
  intro y hy
  obtain ⟨e, he, hkey⟩ := hsound.mem_reached.mp (hreached y hy)
  exact ⟨e, he, hkey, h.near_next hqueue hsweeps he (congrArg Prod.fst hkey)⟩

/-- When the search does not go on after an expansion, it has stopped there. -/
theorem Levelled.stopped_next (hstops : fresh? = none) :
    s.Stopped (st.next c queue events (fresh?, p)) c.subject := by
  have hc : c ∈ st.queued := h.queue_subset (hqueue ▸ List.mem_cons_self)
  have hend := hsweeps.stops hstops
  have hhits : s.hits c = true := by
    rw [stopsAt, Bool.and_assoc, Bool.and_eq_true] at hend
    exact hend.1
  exact ⟨c, List.mem_append_left _ hc, rfl, hend, hsweeps.told hhits⟩

/-- What has been reached waits still, or its origin has stopped, or the search is done with it. -/
theorem Levelled.settled_next
    (hsound : s.Sound P (s.Climbs hop origins) (st.next c queue events (fresh?, p))) :
    ∀ d ∈ (st.next c queue events (fresh?, p)).queued,
    d ∈ (st.next c queue events (fresh?, p)).queue ∨
      s.Stopped (st.next c queue events (fresh?, p)) d.subject ∨
        s.Done P (st.next c queue events (fresh?, p)) d := by
  have hdelivered : st.progress.visits.delivered ⊆ p.visits.delivered := by
    rcases hsweeps.delivered with heq | ⟨_, _, heq⟩
    · exact heq ▸ List.Subset.refl _
    · exact heq ▸ List.subset_cons_self _ _
  intro d hd
  cases fresh? with
  | none =>
      have hstopped : s.Stopped (st.next c queue events (none, p)) c.subject :=
        h.stopped_next hqueue hsweeps rfl
      rcases List.mem_append.mp hd with hd | hd
      · rcases h.settled d hd with hwaits | hsettled
        · rw [h.alike d hwaits c (hqueue ▸ List.mem_cons_self)]
          exact Or.inr (Or.inl hstopped)
        · exact Or.inr (settled_mono (List.subset_append_left _ _) hdelivered hsettled)
      · cases hd
  | some fresh =>
      rcases List.mem_append.mp hd with hd | hd
      · rcases h.settled d hd with hwaits | hsettled
        · rw [hqueue] at hwaits
          rcases List.mem_cons.mp hwaits with rfl | hwaits
          · exact Or.inr (Or.inr (h.done_next hqueue hsweeps hsound (Option.some_ne_none fresh)))
          · exact Or.inl (List.mem_append_left _ hwaits)
        · exact Or.inr (settled_mono (List.subset_append_left _ _) hdelivered hsettled)
      · exact Or.inl (List.mem_append_right _ hd)

end next

theorem Levelled.next (hP : s.Passes hop P) (h : s.Levelled hop P origins st)
    {fresh? : Option (List Configuration)} {p : Progress} (hqueue : st.queue = c :: queue)
    (hsweeps : s.Sweeps P c st.progress fresh? p) :
    s.Levelled hop P origins (st.next c queue events (fresh?, p)) where
  toSound := h.toSound.next hP.preserves hqueue hsweeps.toExpands
  limit := hsweeps.limit.trans h.limit
  fits := hsweeps.fits h.fits
  shallow d hd limit hlimit := by
    rcases List.mem_append.mp hd with hd | hd
    · exact h.shallow d hd limit hlimit
    · have hshallow := hsweeps.shallow (List.ne_nil_of_mem hd)
      rw [isTooDeep, hlimit, Option.any_some, decide_eq_false_iff_not] at hshallow
      have hdepth := (hsweeps.mem_fresh hd).2
      omega
  ascending := h.ascending_next hqueue hsweeps
  alike d hd e he := by
    rw [(h.mem_queue_next hqueue hsweeps hd).1, (h.mem_queue_next hqueue hsweeps he).1]
  near d hd e he hsubject := by
    obtain ⟨hsame, hle⟩ := h.mem_queue_next hqueue hsweeps hd
    have hdepth := h.near_next hqueue hsweeps he (hsubject.trans hsame)
    omega
  rooted d hd := by
    rcases List.mem_append.mp hd with hd | hd
    · exact List.mem_append_left _ (h.rooted d hd)
    · have hc : c ∈ st.queued := h.queue_subset (hqueue ▸ List.mem_cons_self)
      rw [(hsweeps.mem_fresh hd).1]
      exact List.mem_append_left _ (h.rooted c hc)
  begun x hx := (h.begun x hx).imp_right fun hqueued => List.mem_append_left _ hqueued
  settled := h.settled_next hqueue hsweeps (h.toSound.next hP.preserves hqueue hsweeps.toExpands)

theorem Levelled.poll (hs : s.Provides close E P) (hP : s.Passes hop P)
    (h : s.Levelled hop P origins st) (hpoll : s.poll close st = some ⟨events, .ok st'⟩) :
    s.Levelled hop P origins st' := by
  rcases poll_eq_ok hpoll with ⟨c, queue, r, hqueue, hrun, rfl⟩ |
    ⟨x, left, visits, fresh, hqueue, horigins, _, hvisited, rfl⟩
  · obtain ⟨fresh?, p⟩ := r
    exact h.next hP hqueue ((hs.expand c h.recalls).of_ok (congrArg Run.result hrun))
  · exact h.begin hqueue horigins hvisited

end levelled

section ends
variable {x : Term}

/-- Nothing waits any more, and no origin is left. -/
structure Finished (s : Search) (hop : List (List Instruction) → Term → Term → Prop)
    (P : Label → Term → List Term → Prop) (origins : List Term) (st : Stage) : Prop
    extends s.Levelled hop P origins st where
  nowhere : st.origins = []
  nothing : st.queue = []

theorem Finished.done (h : s.Finished hop P origins st) {c : Configuration} (hc : c ∈ st.queued)
    (hgoes : ¬ s.Stopped st c.subject) : s.Done P st c := by
  rcases h.settled c hc with hwaits | hstopped | hdone
  · rw [h.nothing] at hwaits
    cases hwaits
  · exact absurd hstopped hgoes
  · exact hdone

theorem isTooDeep_eq_false {c : Configuration} : s.isTooDeep c = false ↔
    ∀ d, s.options.maxSearchDepth = some d → c.depth < d := by
  unfold isTooDeep
  cases s.options.maxSearchDepth with
  | none => simp
  | some d => simp

theorem exists_leaving {t : Transition} {q : StateName} (ht : t ∈ s.automaton.transitions)
    (hsource : t.source = q) : ∃ i, (t, i) ∈ s.leaving q := by
  obtain ⟨i, hi⟩ := List.mem_iff_getElem?.mp ht
  exact ⟨i, mem_leaving.mpr ⟨List.mk_mem_zipIdx_iff_getElem?.mpr hi, hsource⟩⟩

theorem stopsAt_iff {c : Configuration} : s.stopsAt c = true ↔
    s.hits c = true ∧ s.options.earlyTermination = true ∧ s.target.isFixed = true := by
  rw [stopsAt, Bool.and_eq_true, Bool.and_eq_true, and_assoc]

/-- Everything that a run within the limit reaches from an origin has been put in the queue, at no
greater depth, unless the search of the origin has stopped. -/
theorem Finished.exists_queued (hP : s.Passes hop P) (h : s.Finished hop P origins st)
    (hx : x ∈ origins) (hgoes : ¬ s.Stopped st x) {n : Nat} {q : StateName} {y : Term}
    (hn : ∀ d, s.options.maxSearchDepth = some d → n ≤ d)
    (hreaches : s.automaton.Reaches hop s.options.maxSearchDepth n (Automaton.start, x) (q, y)) :
    ∃ c ∈ st.queued, c.key = (x, y, q) ∧ c.depth ≤ n := by
  induction n generalizing q y with
  | zero =>
      obtain ⟨rfl, rfl⟩ := Prod.mk.inj (Automaton.reaches_zero.mp hreaches)
      rcases h.begun x hx with hleft | hqueued
      · rw [h.nowhere] at hleft
        cases hleft
      · exact ⟨_, hqueued, rfl, Nat.le_refl 0⟩
  | succ n ih =>
      obtain ⟨⟨q', y'⟩, hbefore, t, ht, hsource, rfl, hstep⟩ := Automaton.reaches_succ.mp hreaches
      have hn' : ∀ d, s.options.maxSearchDepth = some d → n < d := hn
      obtain ⟨c, hc, hkey, hdepth⟩ := ih (fun d hd => Nat.le_of_lt (hn' d hd)) hbefore
      obtain ⟨rfl, rfl, rfl⟩ : c.subject = x ∧ c.node = y' ∧ c.state = q' := by
        simpa [Configuration.key] using hkey
      have hshallow : s.isTooDeep c = false :=
        isTooDeep_eq_false.mpr fun d hd => Nat.lt_of_le_of_lt hdepth (hn' d hd)
      obtain ⟨i, hi⟩ := exists_leaving ht hsource
      obtain ⟨nodes, hnodes, hput⟩ := (h.done hc hgoes).followed hshallow (t, i) hi
      obtain ⟨d, hd, hkey, hle⟩ := hput y ((hP _ _ _ hnodes y).mpr hstep)
      exact ⟨d, hd, hkey, by omega⟩

/-- What has been delivered are the pairs that are looked for and joined by a run within the
limit. -/
theorem Finished.mem_delivered (hP : s.Passes hop P) (h : s.Finished hop P origins st) {y : Term} :
    (x, y) ∈ st.progress.visits.delivered ↔ x ∈ origins ∧
      s.automaton.within hop s.options.maxSearchDepth x y ∧ s.target.Allows x y := by
  constructor
  · intro hdelivered
    obtain ⟨c, hc, hhits, heq⟩ := h.delivered _ hdelivered
    obtain ⟨rfl, rfl⟩ := Prod.mk.inj heq
    have hqueued := h.order.subset (List.mem_append_left _ hc)
    have hclimbs := h.kind c hqueued
    obtain ⟨hfinal, hallows⟩ := hits_iff.mp hhits
    refine ⟨hclimbs.subject, Automaton.within_iff.mpr ?_, hallows⟩
    exact ⟨c.depth, c.state, h.shallow c hqueued, hfinal, hclimbs.reaches⟩
  · intro hgiven
    rcases hgiven with ⟨hx, hwithin, hallows⟩
    obtain ⟨n, q, hn, hfinal, hreaches⟩ := Automaton.within_iff.mp hwithin
    by_cases hstopped : s.Stopped st x
    · obtain ⟨d, _, hsubject, hstops, htold⟩ := hstopped
      obtain ⟨hhits, _, hfixed⟩ := stopsAt_iff.mp hstops
      exact answered_of_hits hsubject hhits hfixed htold y hallows
    · obtain ⟨c, hc, hkey, _⟩ := h.exists_queued hP hx hstopped hn hreaches
      obtain ⟨rfl, rfl, rfl⟩ : c.subject = x ∧ c.node = y ∧ c.state = q := by
        simpa [Configuration.key] using hkey
      exact (h.done hc hstopped).told (hits_iff.mpr ⟨hfinal, hallows⟩)

/-- A configuration of an origin can be reached within the limit. -/
def Reachable (s : Search)
    (hop : List (List Instruction) → Term → Term → Prop) (origins : List Term)
    (key : Term × Term × StateName) : Prop :=
  key.1 ∈ origins ∧ ∃ n, (∀ d, s.options.maxSearchDepth = some d → n ≤ d) ∧
    s.automaton.Reaches hop s.options.maxSearchDepth n (Automaton.start, key.1) (key.2.2, key.2.1)

/-- A transition that is to be followed from a configuration of an origin. -/
def Comes (s : Search) (hop : List (List Instruction) → Term → Term → Prop) (origins : List Term)
    (l : Label) (y : Term) : Prop :=
  ∃ x ∈ origins, ∃ n q, (∀ d, s.options.maxSearchDepth = some d → n < d) ∧
    s.automaton.Reaches hop s.options.maxSearchDepth n (Automaton.start, x) (q, y) ∧
    ∃ t ∈ s.automaton.transitions, t.source = q ∧ t.label = l

/-- More can be reached than may be visited. -/
def Crowded (s : Search) (hop : List (List Instruction) → Term → Term → Prop) (origins : List Term)
    (limit : Nat) : Prop :=
  ∃ keys : List (Term × Term × StateName), keys.Nodup ∧
  (∀ key ∈ keys, s.Reachable hop origins key) ∧
    limit < keys.length

theorem Levelled.reachable (h : s.Levelled hop P origins st)
    {c : Configuration} (hc : c ∈ st.queued) :
    s.Reachable hop origins c.key :=
  ⟨(h.kind c hc).subject, c.depth, h.shallow c hc, (h.kind c hc).reaches⟩

/-- When no origin is stopped, all transitions that are to be followed have been followed, and no
more can be reached than may be visited. -/
theorem Finished.complete (hP : s.Passes hop P) (h : s.Finished hop P origins st)
    (hgoes : ∀ c, s.stopsAt c = false) :
    (∀ l y, s.Comes hop origins l y → ∃ nodes, P l y nodes) ∧
      ∀ limit, s.options.maxVisited = some limit → ¬ s.Crowded hop origins limit := by
  have hnever : ∀ x, ¬ s.Stopped st x := by
    intro x hstopped
    obtain ⟨d, _, _, hstops, _⟩ := hstopped
    rw [hgoes d] at hstops
    cases hstops
  constructor
  · intro l y hcomes
    obtain ⟨x, hx, n, q, hn, hreaches, t, ht, hsource, rfl⟩ := hcomes
    obtain ⟨c, hc, hkey, hdepth⟩ :=
      h.exists_queued hP hx (hnever x) (fun d hd => Nat.le_of_lt (hn d hd)) hreaches
    obtain ⟨rfl, rfl, rfl⟩ : c.subject = x ∧ c.node = y ∧ c.state = q := by
      simpa [Configuration.key] using hkey
    have hshallow : s.isTooDeep c = false :=
      isTooDeep_eq_false.mpr fun d hd => Nat.lt_of_le_of_lt hdepth (hn d hd)
    obtain ⟨i, hi⟩ := exists_leaving ht hsource
    obtain ⟨nodes, hnodes, _⟩ := (h.done hc (hnever _)).followed hshallow (t, i) hi
    exact ⟨nodes, hnodes⟩
  · intro limit hlimit hcrowded
    obtain ⟨keys, hnodup, hreachable, hlt⟩ := hcrowded
    have hsub : keys ⊆ st.progress.visits.reached := by
      intro key hkey
      obtain ⟨hx, n, hn, hreaches⟩ := hreachable key hkey
      obtain ⟨c, hc, heq, _⟩ := h.exists_queued hP hx (hnever _) hn hreaches
      exact h.mem_reached.mpr ⟨c, hc, heq⟩
    have hle := (hnodup.subperm hsub).length_le
    have hfits : st.progress.visits.reached.length ≤ limit := h.fits limit (h.limit.trans hlimit)
    omega

theorem poll_eq_none (h : s.poll close st = none) : st.queue = [] ∧ st.origins = [] := by
  unfold poll at h
  split at h
  · cases h
  · split at h <;> cases h
  · next hqueue horigins => exact ⟨hqueue, horigins⟩

/-- A search that is polled to its end without a fault has finished. -/
theorem Makes.finished (hs : s.Provides close E P) (hP : s.Passes hop P) {r : Run Progress}
    (hmakes : s.Makes close st r) (h : s.Levelled hop P origins st) {p : Progress}
    (hok : r.result = .ok p) : ∃ last, s.Finished hop P origins last ∧ last.progress = p := by
  induction hmakes with
  | @done st hdone =>
      cases hok
      obtain ⟨hqueue, horigins⟩ := poll_eq_none hdone
      exact ⟨st, ⟨h, horigins, hqueue⟩, rfl⟩
  | stop _ => cases hok
  | step hpoll _ ih => exact ih (h.poll hs hP hpoll) hok

/-- Why a search of some origins stops: nothing is found behind a transition that is to be followed,
or more can be reached than may be visited. -/
def Stalls (s : Search) (hop : List (List Instruction) → Term → Term → Prop)
    (E : Label → Term → Halt → Prop) (origins : List Term) (stop : Halt) : Prop :=
  (∃ l y, s.Comes hop origins l y ∧ E l y stop) ∨
    ∃ limit, stop = .fault (.visitLimitExceeded limit) ∧ s.options.maxVisited = some limit ∧
      s.Crowded hop origins limit

theorem Levelled.crowded (h : s.Levelled hop P origins st) {v w : Visits}
    {fresh : List Configuration}
    {limit : Nat} (hreached : v.reached = st.progress.visits.reached) (hgrows : v.Grows fresh w)
    (hfresh : ∀ c ∈ fresh, s.Reachable hop origins c.key) (hlt : limit < w.size) :
    s.Crowded hop origins limit := by
  refine ⟨w.reached, hgrows.nodup ?_, ?_, hlt⟩
  · rw [hreached, h.toSound.reached, List.nodup_reverse]
    exact h.nodup
  · intro key hkey
    rcases hgrows.mem_reached.mp hkey with ⟨c, hc, rfl⟩ | hold
    · exact hfresh c hc
    · rw [hreached] at hold
      obtain ⟨c, hc, rfl⟩ := h.mem_reached.mp hold
      exact h.reachable hc

theorem Levelled.stalls_expand (hP : s.Passes hop P) (h : s.Levelled hop P origins st)
    {c : Configuration} (hc : c ∈ st.queued) {stop : Halt}
    (hfails : s.Fails E P c st.progress stop) : s.Stalls hop E origins stop := by
  have hclimbs := h.kind c hc
  have hshallow := isTooDeep_eq_false.mp hfails.shallow
  have hmarks := marks_mark s c st.progress
  rcases hfails.sticks with ⟨t, ht, hstop⟩ | ⟨limit, fresh, w, rfl, hlimit, hgrows, hfresh, hlt⟩
  · obtain ⟨hmem, hsource⟩ := mem_leaving.mp ht
    refine Or.inl ⟨t.1.label, c.node, ⟨c.subject, hclimbs.subject, c.depth, c.state, hshallow,
      hclimbs.reaches, t.1, List.fst_mem_of_mem_zipIdx hmem, hsource, rfl⟩, hstop⟩
  · refine Or.inr ⟨limit, rfl, ?_, h.crowded hmarks.reached hgrows ?_ hlt⟩
    · rw [← h.limit, ← hmarks.limit]
      exact hlimit
    · intro d hd
      have hclimbs' := hP.preserves c d hclimbs (hfresh d hd)
      refine ⟨hclimbs'.subject, d.depth, ?_, hclimbs'.reaches⟩
      obtain ⟨_, _, _, _, _, _, rfl⟩ := hfresh d hd
      exact hshallow

theorem Makes.stalls (hs : s.Provides close E P) (hP : s.Passes hop P) {r : Run Progress}
    (hmakes : s.Makes close st r) (h : s.Levelled hop P origins st) {stop : Halt}
    (herror : r.result = .error stop) : s.Stalls hop E origins stop := by
  induction hmakes with
  | done _ => cases herror
  | @stop st _ _ hpoll =>
      cases herror
      cases hqueue : st.queue with
      | cons c queue =>
          have hc : c ∈ st.queued := h.queue_subset (hqueue ▸ List.mem_cons_self)
          rw [poll_of_queue hqueue, Option.some.injEq, Run.mk.injEq] at hpoll
          cases hrun : (s.expand close c st.progress st.calls).result with
          | ok r =>
              rw [hrun] at hpoll
              cases hpoll.2
          | error stop' =>
              rw [hrun] at hpoll
              cases hpoll.2
              exact h.stalls_expand hP hc ((hs.expand c h.recalls).of_error hrun)
      | nil =>
          cases horigins : st.origins with
          | nil =>
              rw [poll_of_done hqueue horigins] at hpoll
              cases hpoll
          | cons x left =>
              rw [poll_of_origins hqueue horigins] at hpoll
              split at hpoll
              · cases hpoll
              · next fault hrefused =>
                  cases hpoll
                  obtain ⟨limit, fresh, w, rfl, hlimit, hgrows, hsub, hlt⟩ :=
                    Visits.exists_of_visitAll_eq_error hrefused
                  refine Or.inr ⟨limit, rfl, h.limit.symm.trans hlimit, h.crowded rfl hgrows ?_ hlt⟩
                  intro c hc
                  rw [List.mem_singleton.mp (hsub hc)]
                  have hx := (h.begins x (horigins ▸ List.mem_cons_self)).subject
                  exact ⟨hx, 0, fun _ _ => Nat.zero_le _, Automaton.reaches_zero.mpr rfl⟩
  | step hpoll _ ih => exact ih (h.poll hs hP hpoll) herror

/-- What a search from the beginning comes to: it has finished and delivered what it has found, or
it was given up, or it stalled. -/
def Concludes (s : Search) (hop : List (List Instruction) → Term → Term → Prop)
    (E : Label → Term → Halt → Prop) (P : Label → Term → List Term → Prop) (origins : List Term)
    (solutions : List Solution) : Except Halt Progress → Prop
  | .ok p => (∃ last, s.Finished hop P origins last ∧ last.progress = p) ∧
      ∀ t, t ∈ solutions ↔ ∃ pair ∈ p.visits.delivered, s.told pair = t
  | .error stop => stop = .givenUp ∨ s.Stalls hop E origins stop

theorem finishes_searchFrom_levels (hs : s.Provides close E P) (hP : s.Passes hop P)
    (hclose : ∀ a x, (close a x).Silent) (origins : List Term) :
    (s.searchFrom close origins s.start).Finishes (s.Concludes hop E P origins) := by
  intro k
  have hfirst : s.Levelled hop P origins (s.first origins k) := levelled_first origins k
  have hnews := finishes_searchFrom (s := s) hclose origins s.start k
  by_cases hgivenUp : (s.searchFrom close origins s.start k).result = .error .givenUp
  · rw [hgivenUp]
    exact Or.inl rfl
  · have hmakes : s.Makes close (s.first origins k) (s.searchFrom close origins s.start k) :=
      makes_searchFrom_of_ne (s.first origins k) rfl rfl hgivenUp
    cases hresult : (s.searchFrom close origins s.start k).result with
    | error stop => exact Or.inr (hmakes.stalls hs hP hfirst hresult)
    | ok p =>
        obtain ⟨pairs, hpairs, _, hdelivered⟩ := hnews
        have hold : s.start.visits.delivered = [] := rfl
        rw [hold, List.append_nil] at hdelivered
        refine ⟨hmakes.finished hs hP hfirst hresult, ?_⟩
        intro t
        rw [hpairs, hdelivered p hresult, List.mem_map]
        simp only [List.mem_reverse]

/-- A search for any node never stops before its end. -/
theorem stopsAt_nested (s : Search) (a : Automaton) (c : Configuration) :
    (s.nested a).stopsAt c = false := by
  rw [stopsAt, Bool.and_eq_false_iff]
  exact Or.inr rfl

/-- What the search behind a closure comes to, when one more may be evaluated within another. -/
theorem ends_closureSearch_succ {allowed : Nat} {a : Automaton}
    (hs : (s.nested a).Provides (s.closureSearch allowed) E P) (hP : (s.nested a).Passes hop P)
    (x : Term) : (s.closureSearch (allowed + 1) a x).Ends
      (fun stop => stop = .givenUp ∨ (s.nested a).Stalls hop E [x] stop)
      fun ys => (∀ y, y ∈ ys ↔ a.within hop s.options.maxSearchDepth x y) ∧
        (∀ l y, (s.nested a).Comes hop [x] l y → ∃ nodes, P l y nodes) ∧
        ∀ limit, s.options.maxVisited = some limit → ¬ (s.nested a).Crowded hop [x] limit := by
  have hsearch := finishes_searchFrom_levels hs hP (fun b y => silent_closureSearch allowed b y) [x]
  have hcollect :
      (collect ((s.nested a).searchFrom (s.closureSearch allowed) [x] (s.nested a).start)).Ends
      (fun stop => stop = .givenUp ∨ (s.nested a).Stalls hop E [x] stop)
      fun solutions => ∃ last, (s.nested a).Finished hop P [x] last ∧ ∀ t, t ∈ solutions ↔
        ∃ pair ∈ last.progress.visits.delivered, (s.nested a).told pair = t := by
    intro k
    have hk := hsearch k
    rw [collect]
    cases hresult :
      ((s.nested a).searchFrom (s.closureSearch allowed) [x] (s.nested a).start k).result with
    | error stop =>
        rw [hresult] at hk
        exact hk
    | ok p =>
        rw [hresult] at hk
        obtain ⟨⟨last, hlast, rfl⟩, htells⟩ := hk
        exact ⟨last, hlast, htells⟩
  rw [closureSearch]
  refine Ends.bind hcollect ?_
  intro solutions hsolutions
  obtain ⟨last, hlast, htells⟩ := hsolutions
  obtain ⟨hcomes, hcrowded⟩ := hlast.complete hP (stopsAt_nested s a)
  refine ends_pure ⟨?_, hcomes, hcrowded⟩
  intro y
  rw [List.mem_map]
  constructor
  · intro h
    rcases h with ⟨t, ht, rfl⟩
    obtain ⟨⟨x', y⟩, hpair, rfl⟩ := (htells t).mp ht
    obtain ⟨hx, hwithin, _⟩ := (hlast.mem_delivered hP).mp hpair
    rw [List.mem_singleton.mp hx] at hwithin
    exact hwithin
  · intro hwithin
    refine ⟨⟨x, y⟩, (htells _).mpr ⟨(x, y), ?_, rfl⟩, rfl⟩
    exact (hlast.mem_delivered hP).mpr ⟨List.mem_cons_self, hwithin, trivial⟩

end ends

end Search

end PropertyPath
