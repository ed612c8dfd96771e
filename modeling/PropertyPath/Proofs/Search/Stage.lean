import PropertyPath.Proofs.Search.Expansion

/-!
# A search poll by poll

A poll expands the first configuration of the queue; when the queue is empty, it begins the search
of the next origin; and when no origin is left, the search is at its end. A stage tells how far
polling has come, with the history that the search itself does not keep: all that has been put in
the queue and all that has been expanded. The invariant is that what has been reached is what has
been put in the queue, each configuration once, and that it is expanded in the same order, for as
far as it is expanded.
-/
namespace PropertyPath
open Evaluation

namespace Event

def expansion? : Event → Option Configuration
  | expand c => some c
  | _ => none

end Event

/-- The configurations that are expanded during a run, in order. -/
def Run.expansions {α : Type} (r : Run α) : List Configuration :=
  r.events.filterMap Event.expansion?

structure Stage where
  origins : List Term
  queue : List Configuration
  progress : Progress
  queued : List Configuration
  expanded : List Configuration
  calls : Nat

namespace Stage

/-- A new origin is begun. -/
def begin (st : Stage) (origins : List Term) (visits : Visits)
    (fresh : List Configuration) : Stage :=
  { st with
    origins := origins
    queue := fresh
    progress := { st.progress with visits }
    queued := st.queued ++ fresh }

/-- The first configuration of the queue has been expanded. -/
def next (st : Stage) (c : Configuration) (queue : List Configuration) (events : List Event) :
    Option (List Configuration) × Progress → Stage
  | (fresh?, p) =>
      { st with
        queue := (fresh?.map (queue ++ ·)).getD []
        progress := p
        queued := st.queued ++ fresh?.getD []
        expanded := st.expanded ++ [c]
        calls := st.calls + Run.callCount events }

end Stage

namespace Search
variable {s : Search} {close : ClosureSearch} {st st' : Stage} {events : List Event}
  {E : Halt → Prop} {P : Label → Term → List Term → Prop} {Q : Configuration → Prop}

/-- The stage before the first poll. -/
def first (s : Search) (origins : List Term) (k : Nat) : Stage := ⟨origins, [], s.start, [], [], k⟩

def poll (s : Search) (close : ClosureSearch) (st : Stage) : Option (Run Stage) :=
  match st.queue, st.origins with
  | c :: queue, _ =>
      let r := s.expand close c st.progress st.calls
      some ⟨r.events, r.result.map (st.next c queue r.events)⟩
  | [], x :: origins =>
      match st.progress.visits.visitAll [.origin x] with
      | .ok (visits, fresh) => some ⟨[], .ok (st.begin origins visits fresh)⟩
      | .error fault => some ⟨[], .error (.fault fault)⟩
  | [], [] => none

/-- What happens while a search is polled from one stage to another. -/
inductive Polls (s : Search) (close : ClosureSearch) : Stage → List Event → Stage → Prop
  | refl (st : Stage) : Polls s close st [] st
  | step {st st' st'' : Stage} {events more : List Event} :
      s.poll close st = some ⟨events, .ok st'⟩ → Polls s close st' more st'' →
        Polls s close st (events ++ more) st''

/-- Polled again and again, the search comes to an end and has made the run by then. -/
inductive Makes (s : Search) (close : ClosureSearch) : Stage → Run Progress → Prop
  | done {st : Stage} : s.poll close st = none → Makes s close st ⟨[], .ok st.progress⟩
  | stop {st : Stage} {events : List Event} {stop : Halt} :
      s.poll close st = some ⟨events, .error stop⟩ → Makes s close st ⟨events, .error stop⟩
  | step {st st' : Stage} {events : List Event} {r : Run Progress} :
      s.poll close st = some ⟨events, .ok st'⟩ → Makes s close st' r →
        Makes s close st ⟨events ++ r.events, r.result⟩

theorem Polls.makes {r : Run Progress} (h : s.Polls close st events st')
    (hr : s.Makes close st' r) :
    s.Makes close st ⟨events ++ r.events, r.result⟩ := by
  induction h with
  | refl => exact hr
  | step hpoll _ ih =>
      rw [List.append_assoc]
      exact Makes.step hpoll (ih hr)

section poll
variable {c : Configuration} {queue : List Configuration} {x : Term} {origins : List Term}

theorem poll_of_queue (h : st.queue = c :: queue) :
    s.poll close st = some ⟨(s.expand close c st.progress st.calls).events,
      (s.expand close c st.progress st.calls).result.map
        (st.next c queue (s.expand close c st.progress st.calls).events)⟩ := by
  rw [poll, h]

theorem poll_of_origins (hqueue : st.queue = []) (h : st.origins = x :: origins) :
    s.poll close st = match st.progress.visits.visitAll [.origin x] with
      | .ok (visits, fresh) => some ⟨[], .ok (st.begin origins visits fresh)⟩
      | .error fault => some ⟨[], .error (.fault fault)⟩ := by
  rw [poll, hqueue, h]

theorem poll_of_done (hqueue : st.queue = []) (h : st.origins = []) : s.poll close st = none := by
  rw [poll, hqueue, h]

/-- What a poll that succeeds has done. -/
theorem poll_eq_ok (h : s.poll close st = some ⟨events, .ok st'⟩) :
    (∃ c queue r, st.queue = c :: queue ∧
      s.expand close c st.progress st.calls = ⟨events, .ok r⟩ ∧ st' = st.next c queue events r) ∨
    (∃ x origins visits fresh, st.queue = [] ∧ st.origins = x :: origins ∧ events = [] ∧
      st.progress.visits.visitAll [.origin x] = .ok (visits, fresh) ∧
        st' = st.begin origins visits fresh) := by
  cases hqueue : st.queue with
  | cons c queue =>
      rw [poll_of_queue hqueue, Option.some.injEq, Run.mk.injEq] at h
      obtain ⟨rfl, hresult⟩ := h
      cases hrun : (s.expand close c st.progress st.calls).result with
      | error stop =>
          rw [hrun] at hresult
          cases hresult
      | ok r =>
          rw [hrun] at hresult
          cases hresult
          refine Or.inl ⟨c, queue, r, rfl, ?_, rfl⟩
          rw [← hrun]
  | nil =>
      cases horigins : st.origins with
      | nil =>
          rw [poll_of_done hqueue horigins] at h
          cases h
      | cons x origins =>
          rw [poll_of_origins hqueue horigins] at h
          split at h
          · next visits fresh hvisited =>
              cases h
              exact Or.inr ⟨x, origins, visits, fresh, rfl, rfl, rfl, hvisited, rfl⟩
          · cases h

/-- What a poll that fails has tried. -/
theorem poll_eq_error {stop : Halt} (h : s.poll close st = some ⟨events, .error stop⟩) :
    (∃ c queue, st.queue = c :: queue ∧
      s.expand close c st.progress st.calls = ⟨events, .error stop⟩) ∨
    (events = [] ∧ ∃ fault, stop = .fault fault) := by
  cases hqueue : st.queue with
  | cons c queue =>
      rw [poll_of_queue hqueue, Option.some.injEq, Run.mk.injEq] at h
      obtain ⟨rfl, hresult⟩ := h
      cases hrun : (s.expand close c st.progress st.calls).result with
      | error stop' =>
          rw [hrun] at hresult
          cases hresult
          refine Or.inl ⟨c, queue, rfl, ?_⟩
          rw [← hrun]
      | ok r =>
          rw [hrun] at hresult
          cases hresult
  | nil =>
      cases horigins : st.origins with
      | nil =>
          rw [poll_of_done hqueue horigins] at h
          cases h
      | cons x origins =>
          rw [poll_of_origins hqueue horigins] at h
          split at h
          · cases h
          · next fault _ =>
              cases h
              exact Or.inr ⟨rfl, fault, rfl⟩

end poll

/-- The kind of the configurations that are put in the queue is kept by following transitions. -/
def Preserves (s : Search) (P : Label → Term → List Term → Prop)
    (Q : Configuration → Prop) : Prop :=
  ∀ c d, Q c → Leads P (s.leaving c.state) c d → Q d

/-- What holds at every stage. -/
structure Sound (s : Search) (P : Label → Term → List Term → Prop) (Q : Configuration → Prop)
    (st : Stage) : Prop where
  reached : st.progress.visits.reached = (st.queued.map Configuration.key).reverse
  nodup : (st.queued.map Configuration.key).Nodup
  order : (st.expanded ++ st.queue).Sublist st.queued
  kind : ∀ c ∈ st.queued, Q c
  begins : ∀ x ∈ st.origins, Q (.origin x)
  recalls : s.Recalls P st.progress
  delivered : ∀ pair ∈ st.progress.visits.delivered,
    ∃ c ∈ st.expanded, s.hits c = true ∧ pair = (c.subject, c.node)

theorem sound_first {origins : List Term} (h : ∀ x ∈ origins, Q (.origin x)) (k : Nat) :
    s.Sound P Q (s.first origins k) where
  reached := rfl
  nodup := List.nodup_nil
  order := List.Sublist.refl _
  kind := nofun
  begins := h
  recalls := nofun
  delivered := nofun

/-- A new list of visits holds what has been put in the queue. -/
theorem Sound.nodup_queued {fresh : List Configuration} {visits : Visits} (h : s.Sound P Q st)
    (hreached : visits.reached =
      (fresh.map Configuration.key).reverse ++ st.progress.visits.reached)
    (hnodup : st.progress.visits.reached.Nodup → visits.reached.Nodup) :
    visits.reached = ((st.queued ++ fresh).map Configuration.key).reverse ∧
      ((st.queued ++ fresh).map Configuration.key).Nodup := by
  have heq : visits.reached = ((st.queued ++ fresh).map Configuration.key).reverse := by
    rw [hreached, h.reached, List.map_append, List.reverse_append]
  refine ⟨heq, ?_⟩
  rw [← List.nodup_reverse, ← heq]
  apply hnodup
  rw [h.reached, List.nodup_reverse]
  exact h.nodup

theorem Sound.begin {x : Term} {origins : List Term} {visits : Visits} {fresh : List Configuration}
    (h : s.Sound P Q st) (hqueue : st.queue = []) (horigins : st.origins = x :: origins)
    (hvisited : st.progress.visits.visitAll [.origin x] = .ok (visits, fresh)) :
    s.Sound P Q (st.begin origins visits fresh) := by
  obtain ⟨hgrows, hfresh⟩ := Visits.grows_of_visitAll hvisited
  obtain ⟨hreached, hnodup⟩ := h.nodup_queued hgrows.reached hgrows.nodup
  have horder := h.order
  rw [hqueue, List.append_nil] at horder
  refine ⟨hreached, hnodup, horder.append (List.Sublist.refl fresh), ?_, ?_, h.recalls, ?_⟩
  · intro c hc
    rcases List.mem_append.mp hc with hc | hc
    · exact h.kind c hc
    · rw [List.mem_singleton.mp (hfresh hc)]
      exact h.begins x (horigins ▸ List.mem_cons_self)
  · intro y hy
    exact h.begins y (horigins ▸ List.mem_cons_of_mem x hy)
  · intro pair hpair
    apply h.delivered
    rw [← hgrows.delivered]
    exact hpair

theorem Sound.next (hpreserves : s.Preserves P Q) {c : Configuration} {queue : List Configuration}
    {fresh? : Option (List Configuration)} {p : Progress} (h : s.Sound P Q st)
    (hqueue : st.queue = c :: queue) (hexpands : s.Expands P c st.progress fresh? p) :
    s.Sound P Q (st.next c queue events (fresh?, p)) := by
  obtain ⟨hreached, hnodup⟩ := h.nodup_queued hexpands.reached hexpands.nodup
  have horder := h.order
  rw [hqueue, List.append_cons] at horder
  have hmem : c ∈ st.queued :=
    horder.subset (List.mem_append_left _ (List.mem_append_right _ List.mem_cons_self))
  refine ⟨hreached, hnodup, ?_, ?_, h.begins, hexpands.recalls, ?_⟩
  · cases fresh? with
    | none =>
        have hsub := (List.sublist_append_left (st.expanded ++ [c]) queue).trans horder
        simpa [Stage.next] using hsub
    | some fresh =>
        have hsub := horder.append (List.Sublist.refl fresh)
        rw [List.append_assoc] at hsub
        exact hsub
  · intro d hd
    rcases List.mem_append.mp hd with hd | hd
    · exact h.kind d hd
    · exact hpreserves c d (h.kind c hmem) (hexpands.leads d hd)
  · intro pair hpair
    have hold : pair ∈ st.progress.visits.delivered →
        ∃ d ∈ st.expanded ++ [c], s.hits d = true ∧ pair = (d.subject, d.node) := by
      intro hmem
      obtain ⟨d, hd, htold⟩ := h.delivered pair hmem
      exact ⟨d, List.mem_append_left _ hd, htold⟩
    have hpair' : pair ∈ p.visits.delivered := hpair
    rcases hexpands.delivered with heq | ⟨hhits, _, heq⟩
    · exact hold (heq ▸ hpair')
    · rw [heq] at hpair'
      rcases List.mem_cons.mp hpair' with rfl | hmem
      · exact ⟨c, List.mem_append_right _ List.mem_cons_self, hhits, rfl⟩
      · exact hold hmem

/-- A poll keeps the invariant. -/
theorem Sound.poll (hs : s.Supplies close E P) (hpreserves : s.Preserves P Q) (h : s.Sound P Q st)
    (hpoll : s.poll close st = some ⟨events, .ok st'⟩) : s.Sound P Q st' := by
  rcases poll_eq_ok hpoll with ⟨c, queue, r, hqueue, hrun, rfl⟩ |
    ⟨x, origins, visits, fresh, hqueue, horigins, _, hvisited, rfl⟩
  · obtain ⟨fresh?, p⟩ := r
    have hexpands := (ends_expand hs c h.recalls).of_ok (congrArg Run.result hrun)
    exact h.next hpreserves hqueue hexpands
  · exact h.begin hqueue horigins hvisited

theorem Sound.polls (hs : s.Supplies close E P) (hpreserves : s.Preserves P Q) (h : s.Sound P Q st)
    (hpolls : s.Polls close st events st') : s.Sound P Q st' := by
  induction hpolls with
  | refl => exact h
  | step hpoll _ ih => exact ih (h.poll hs hpreserves hpoll)

/-- A search that is polled to its end without a fault has been sound to the end. -/
theorem Makes.sound (hs : s.Supplies close E P) (hpreserves : s.Preserves P Q) {r : Run Progress}
    (hmakes : s.Makes close st r) (h : s.Sound P Q st) {p : Progress} (hok : r.result = .ok p) :
    ∃ last, s.Sound P Q last ∧ last.progress = p := by
  induction hmakes with
  | @done st hdone =>
      cases hok
      exact ⟨st, h, rfl⟩
  | stop _ => cases hok
  | step hpoll _ ih => exact ih (h.poll hs hpreserves hpoll) hok

/-- The only reasons to stop are those for which nothing is found behind a transition. -/
theorem Makes.ends (hs : s.Supplies close E P) (hpreserves : s.Preserves P Q) {r : Run Progress}
    (hmakes : s.Makes close st r) (h : s.Sound P Q st) {stop : Halt}
    (herror : r.result = .error stop) :
    E stop := by
  induction hmakes with
  | done _ => cases herror
  | stop hpoll =>
      cases herror
      rcases poll_eq_error hpoll with ⟨c, queue, _, hrun⟩ | ⟨_, fault, rfl⟩
      · exact (ends_expand hs c h.recalls).of_error (congrArg Run.result hrun)
      · exact hs.fault fault
  | step hpoll _ ih => exact ih (h.poll hs hpreserves hpoll) herror

end Search

end PropertyPath
