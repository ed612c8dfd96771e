import Mathlib.Data.List.Perm.Subperm
import Mathlib.Data.List.ProdSigma
import PropertyPath.Proofs.Search.Parts
import PropertyPath.Proofs.Search.Run
import PropertyPath.Proofs.Search.Stage

/-!
# Every search comes to its end

Each poll begins an origin or expands a configuration that has waited in the queue, and no
configuration comes into the queue twice. An origin has no more configurations than there are nodes,
the origin itself included, times states, so no search is given up, whatever the cycles of the graph
and of the automaton are and wherever a fault or an option stops it.
-/
namespace PropertyPath
open Evaluation

namespace Evaluation
variable {α β : Type} {m : Evaluation α} {f : α → Evaluation β}

/-- Nothing is expanded. -/
def Idle (m : Evaluation α) : Prop := ∀ k, (m k).expansions = []

theorem expansions_bind_of_ok {k : Nat} {a : α} (h : (m k).result = .ok a) :
    ((m >>= f) k).expansions =
      (m k).expansions ++ (f a (k + Run.callCount (m k).events)).expansions := by
  cases hrun : m k with
  | mk events result =>
      rw [hrun] at h
      cases h
      rw [bind_run_of_ok hrun, Run.expansions, List.filterMap_append]
      rfl

theorem expansions_bind_of_error {k : Nat} {stop : Halt} (h : (m k).result = .error stop) :
    ((m >>= f) k).expansions = (m k).expansions := by
  cases hrun : m k with
  | mk events result =>
      rw [hrun] at h
      cases h
      rw [bind_run_of_error hrun]
      rfl

theorem expansions_bind_of_idle {k : Nat} (hf : ∀ a, (f a).Idle) :
    ((m >>= f) k).expansions = (m k).expansions := by
  cases hresult : (m k).result with
  | error stop => rw [expansions_bind_of_error hresult]
  | ok a => rw [expansions_bind_of_ok hresult, hf, List.append_nil]

theorem Idle.bind (h : m.Idle) (hf : ∀ a, (f a).Idle) : (m >>= f).Idle :=
  fun k => (expansions_bind_of_idle hf).trans (h k)

theorem idle_pure (a : α) : (Pure.pure a : Evaluation α).Idle := fun _ => rfl

theorem idle_fail (fault : EvaluationFault) : (fail fault : Evaluation α).Idle := fun _ => rfl

theorem idle_ofExcept (r : Except EvaluationFault α) : (ofExcept r).Idle := withholds_ofExcept r

theorem idle_deliver (batch : List Solution) : (deliver batch).Idle :=
  withholds_deliver (fun _ => rfl) batch

theorem idle_collect (m : Evaluation α) : (collect m).Idle := withholds_collect (fun _ => rfl) m

end Evaluation

section hops
variable {g : GraphService} {context : CallContext} {E : Halt → Prop}

theorem composes_idle (g : GraphService) (context : CallContext) :
    Composes g context fun _ m => m.Idle := composes_withholds (fun _ => rfl) g context

theorem idle_joinedPairs (start : Endpoint) (branches : List (List Instruction)) :
    (joinedPairs g context start branches).Idle :=
  (composes_idle g context).joinedPairs start branches

/-- Hops end with their pairs or with a fault. -/
theorem composes_ends (hE : ∀ fault, E (.fault fault)) (g : GraphService) (context : CallContext) :
    Composes g context fun _ m => m.Ends E fun _ => True where
  pure _ := ends_pure trivial
  fail _ := ends_fail (hE _)
  ask := ends_ask hE g context
  bind hm hf := Ends.bind hm fun a _ => hf a

theorem ends_joinedPairs (hE : ∀ fault, E (.fault fault)) (start : Endpoint)
    (branches : List (List Instruction)) :
    (joinedPairs g context start branches).Ends E fun _ => True :=
  (composes_ends hE g context).joinedPairs start branches

end hops

namespace Search
variable {s : Search} {close close' : ClosureSearch} {p p' : Progress} {st st' : Stage}
  {events : List Event} {E : Halt → Prop} {P : Label → Term → List Term → Prop}
  {Q : Configuration → Prop} {nodes origins : List Term}

theorem idle_closureSearch (allowed : Nat) (a : Automaton) (x : Term) :
    (s.closureSearch allowed a x).Idle := by
  cases allowed with
  | zero => exact idle_fail _
  | succ allowed => exact (idle_collect _).bind fun solutions => idle_pure _

theorem idle_follow (hclose : ∀ a x, (close a x).Idle) (i : Nat) (t : Transition) (x : Term)
    (p : Progress) : (s.follow close i t x p).Idle := by
  cases hbranches : t.label.branches? with
  | some branches =>
      rw [follow_of_branches hbranches]
      exact (idle_joinedPairs _ _).bind fun pairs => idle_pure _
  | none =>
      obtain ⟨kind, nested, hlabel⟩ := Label.exists_closure_of_branches hbranches
      cases hfound : s.remembered? i x p with
      | some nodes =>
          rw [follow_of_remembered hlabel hfound]
          exact idle_pure _
      | none =>
          rw [follow_of_closure hlabel hfound]
          have hlog : (log [.closure i x]).Idle := fun _ => rfl
          exact (hclose nested x).bind fun nodes => hlog.bind fun _ => idle_pure _

theorem idle_followAll (hclose : ∀ a x, (close a x).Idle) (c : Configuration)
    (ts : List (Transition × Nat)) (p : Progress) : (s.followAll close c ts p).Idle := by
  induction ts generalizing p with
  | nil => exact idle_pure _
  | cons t ts ih =>
      rw [followAll]
      refine (idle_follow hclose _ _ _ _).bind fun answer => ?_
      refine (idle_ofExcept _).bind fun marked => ?_
      exact (ih _).bind fun answer => idle_pure _

/-- An expansion is told once, when it begins. -/
theorem expansions_expand (hclose : ∀ a x, (close a x).Idle) (c : Configuration) (p : Progress)
    (k : Nat) : (s.expand close c p k).expansions = [c] := by
  have hlog : (log [.expand c] k).result = .ok () := rfl
  rw [expand_eq, expansions_bind_of_ok hlog]
  change [c] ++ _ = [c]
  rw [List.append_right_eq_self]
  split
  · exact (idle_deliver _).bind (fun _ => idle_pure _) _
  · rw [onward]
    split
    · exact (idle_deliver _).bind (fun _ => idle_pure _) _
    · refine (idle_followAll hclose _ _ _).bind (fun answer => ?_) _
      exact (idle_deliver _).bind fun _ => idle_pure _

/-- The configurations that a search of given origins can come upon. -/
structure Located (s : Search) (nodes origins : List Term) (c : Configuration) : Prop where
  subject : c.subject ∈ origins
  node : c.node = c.subject ∨ c.node ∈ nodes
  state : c.state ∈ s.automaton.states.map State.name

/-- Different configurations of an origin are different pairs of a node and a state. -/
theorem length_le_of_located {cs : List Configuration} (hnodup : (cs.map Configuration.key).Nodup)
    (h : ∀ c ∈ cs, s.Located nodes origins c) :
    cs.length ≤ origins.length * (nodes.length + 1) * s.automaton.states.length := by
  let names := s.automaton.states.map State.name
  let all := origins.flatMap fun x => ((x :: nodes) ×ˢ names).map fun key => (x, key)
  have hsub : cs.map Configuration.key ⊆ all := by
    intro key hkey
    obtain ⟨c, hc, rfl⟩ := List.mem_map.mp hkey
    have hlocated := h c hc
    have hpair : (c.node, c.state) ∈ (c.subject :: nodes) ×ˢ names :=
      List.mem_product.mpr ⟨List.mem_cons.mpr hlocated.node, hlocated.state⟩
    exact List.mem_flatMap.mpr ⟨c.subject, hlocated.subject, List.mem_map_of_mem hpair⟩
  have hle := (hnodup.subperm hsub).length_le
  have hall : all.length = origins.length * (nodes.length + 1) * s.automaton.states.length := by
    simp [all, names, List.length_flatMap, List.length_product, Nat.mul_assoc, Nat.add_mul,
      Nat.add_comm]
  rw [List.length_map, hall] at hle
  exact hle

/-- How many configurations of an origin have been put in the queue. -/
def queuedFrom (x : Term) (st : Stage) : Nat := st.queued.countP fun c => c.subject = x

theorem queuedFrom_of_append {x : Term} {fresh : List Configuration}
    (hqueued : st'.queued = st.queued ++ fresh) (h : ∀ c ∈ fresh, c.subject = x) :
    queuedFrom x st' = queuedFrom x st + fresh.length := by
  have hall : fresh.countP (fun c => c.subject = x) = fresh.length :=
    List.countP_eq_length.mpr fun c hc => decide_eq_true (h c hc)
  rw [queuedFrom, hqueued, List.countP_append, hall]
  rfl

theorem Sound.queuedFrom_le (h : s.Sound P (s.Located nodes origins) st)
    (hbound : nodes.length ≤ s.graph.nodeBound) (x : Term) : queuedFrom x st ≤ s.rounds := by
  let cs := st.queued.filter fun c => c.subject = x
  have hnodup : (cs.map Configuration.key).Nodup :=
    h.nodup.sublist (List.filter_sublist.map Configuration.key)
  have hlocated : ∀ c ∈ cs, s.Located nodes [x] c := by
    intro c hc
    obtain ⟨hmem, hx⟩ := List.mem_filter.mp hc
    have hkind := h.kind c hmem
    exact ⟨List.mem_singleton.mpr (of_decide_eq_true hx), hkind.node, hkind.state⟩
  have hle := length_le_of_located hnodup hlocated
  calc queuedFrom x st = cs.length := List.countP_eq_length_filter
    _ ≤ [x].length * (nodes.length + 1) * s.automaton.states.length := hle
    _ = (nodes.length + 1) * s.automaton.states.length := by rw [List.length_singleton, Nat.one_mul]
    _ ≤ s.rounds := Nat.mul_le_mul_right _ (Nat.succ_le_succ hbound)

section runs
variable {n k : Nat} {c : Configuration} {queue : List Configuration} {r : Run Progress}

/-- The run is what is done by polling until the queue is empty, or until the search stops. -/
def Empties (s : Search) (close : ClosureSearch) (st : Stage) (r : Run Progress) : Prop :=
  match r.result with
  | .ok p => ∃ last, s.Polls close st r.events last ∧ last.queue = [] ∧
      last.origins = st.origins ∧ last.progress = p
  | .error stop => s.Makes close st ⟨r.events, .error stop⟩

theorem empties_of_nil (hqueue : st.queue = []) : s.Empties close st ⟨[], .ok st.progress⟩ :=
  ⟨st, Polls.refl st, hqueue, rfl, rfl⟩

theorem Empties.step (hpoll : s.poll close st = some ⟨events, .ok st'⟩)
    (horigins : st'.origins = st.origins) (h : s.Empties close st' r) :
    s.Empties close st ⟨events ++ r.events, r.result⟩ := by
  obtain ⟨more, result⟩ := r
  cases result with
  | ok p =>
      obtain ⟨last, hpolls, hdone, hrest, hp⟩ := h
      exact ⟨last, Polls.step hpoll hpolls, hdone, hrest.trans horigins, hp⟩
  | error stop => exact Makes.step hpoll h

theorem explore_nil : s.explore close n [] p k = ⟨[], .ok p⟩ := by
  cases n <;> rfl

theorem explore_cons_of_error {stop : Halt} (h : s.expand close c p k = ⟨events, .error stop⟩) :
    s.explore close (n + 1) (c :: queue) p k = ⟨events, .error stop⟩ := by
  rw [explore]
  exact bind_run_of_error h

theorem explore_cons_of_ok {r : Option (List Configuration) × Progress}
    (h : s.expand close c st.progress st.calls = ⟨events, .ok r⟩) :
    s.explore close (n + 1) (c :: queue) st.progress st.calls =
      let next := st.next c queue events r
      let rest := s.explore close n next.queue next.progress next.calls
      ⟨events ++ rest.events, rest.result⟩ := by
  obtain ⟨fresh?, p'⟩ := r
  rw [explore, bind_run_of_ok h]
  cases fresh? with
  | none =>
      have hrest (j : Nat) : s.explore close n [] p' j = ⟨[], .ok p'⟩ := explore_nil
      exact congrArg (fun rest : Run Progress => Run.mk (events ++ rest.events) rest.result)
        (hrest _).symm
  | some fresh => rfl

theorem Polls.calls (h : s.Polls close st events st') :
    st'.calls = st.calls + Run.callCount events := by
  induction h with
  | refl => rfl
  | step hpoll _ ih =>
      rw [ih, Run.callCount_append, ← Nat.add_assoc]
      rcases poll_eq_ok hpoll with
        ⟨c, queue, r, _, _, rfl⟩ | ⟨x, origins, visits, fresh, _, _, rfl, _, rfl⟩
      · rfl
      · rfl

/-- What comes next in the search of an origin belongs to the origin, and the queue grows by no more
than what is put in it. -/
theorem Expands.queue_next {x : Term} {fresh? : Option (List Configuration)}
    (h : s.Expands P c p fresh? p') (hx : ∀ d ∈ c :: queue, d.subject = x) :
    (∀ d ∈ fresh?.getD [], d.subject = x) ∧
      (∀ d ∈ (fresh?.map (queue ++ ·)).getD [], d.subject = x) ∧
      ((fresh?.map (queue ++ ·)).getD []).length ≤ queue.length + (fresh?.getD []).length := by
  have hfresh : ∀ d ∈ fresh?.getD [], d.subject = x := by
    intro d hd
    rw [(h.leads d hd).subject]
    exact hx c List.mem_cons_self
  cases fresh? with
  | none => exact ⟨hfresh, nofun, Nat.zero_le _⟩
  | some fresh =>
      refine ⟨hfresh, ?_, Nat.le_of_eq List.length_append⟩
      intro d hd
      rcases List.mem_append.mp hd with hd | hd
      · exact hx d (List.mem_cons_of_mem c hd)
      · exact hfresh d hd

/-- The search of an origin is a sequence of polls when there is something that every expansion
keeps with one round less, and that leaves nothing waiting when no round is left. -/
theorem empties_explore_of {I : Nat → Stage → Prop} (hdone : ∀ st, I 0 st → st.queue = [])
    (hnext : ∀ n st c queue told r, I (n + 1) st → st.queue = c :: queue →
      s.expand close c st.progress st.calls = ⟨told, .ok r⟩ → I n (st.next c queue told r))
    (h : I n st) : s.Empties close st (s.explore close n st.queue st.progress st.calls) := by
  induction n generalizing st with
  | zero =>
      have hqueue := hdone st h
      rw [hqueue, explore_nil]
      exact empties_of_nil hqueue
  | succ n ih =>
      cases hqueue : st.queue with
      | nil =>
          rw [explore_nil]
          exact empties_of_nil hqueue
      | cons c queue =>
          have hpoll : s.poll close st = _ := poll_of_queue hqueue
          cases hexpand : s.expand close c st.progress st.calls with
          | mk told result =>
              rw [hexpand] at hpoll
              cases result with
              | error stop =>
                  rw [explore_cons_of_error hexpand]
                  exact Makes.stop hpoll
              | ok r =>
                  rw [explore_cons_of_ok hexpand]
                  exact Empties.step hpoll rfl (ih (hnext n st c queue told r h hqueue hexpand))

/-- The rounds are enough for the search of an origin: what is left of them is no less than what can
still be put in the queue, and what waits there. -/
theorem empties_explore (hs : s.Supplies close E P)
    (hpreserves : s.Preserves P (s.Located nodes origins))
    (hbound : nodes.length ≤ s.graph.nodeBound) {x : Term}
    (h : s.Sound P (s.Located nodes origins) st) (hx : ∀ c ∈ st.queue, c.subject = x)
    (hn : st.queue.length + s.rounds ≤ n + queuedFrom x st) :
    s.Empties close st (s.explore close n st.queue st.progress st.calls) := by
  let enough (n : Nat) (st : Stage) : Prop := s.Sound P (s.Located nodes origins) st ∧
    (∀ c ∈ st.queue, c.subject = x) ∧ st.queue.length + s.rounds ≤ n + queuedFrom x st
  have hdone : ∀ st, enough 0 st → st.queue = [] := by
    rintro st ⟨h, _, hn⟩
    have hle := h.queuedFrom_le hbound x
    exact List.eq_nil_of_length_eq_zero (by omega)
  refine empties_explore_of (I := enough) hdone ?_ ⟨h, hx, hn⟩
  rintro n st c queue told ⟨fresh?, p'⟩ ⟨h, hx, hn⟩ hqueue hexpand
  rw [hqueue] at hx hn
  have hpoll : s.poll close st = _ := poll_of_queue hqueue
  rw [hexpand] at hpoll
  have hexpands := (ends_expand hs c h.recalls).of_ok (congrArg Run.result hexpand)
  obtain ⟨hfresh, hnext, hlength⟩ := hexpands.queue_next hx
  let next := st.next c queue told (fresh?, p')
  have hcount : queuedFrom x next = queuedFrom x st + (fresh?.getD []).length :=
    queuedFrom_of_append rfl hfresh
  have hrest : next.queue.length + s.rounds ≤ n + queuedFrom x next := by
    have hle : next.queue.length ≤ queue.length + (fresh?.getD []).length := hlength
    rw [List.length_cons] at hn
    omega
  exact ⟨h.poll hs hpreserves hpoll, hnext, hrest⟩

theorem searchFrom_cons_of_error {x : Term} {xs : List Term} {fault : EvaluationFault}
    (h : p.visits.visitAll [.origin x] = .error fault) :
    s.searchFrom close (x :: xs) p k = ⟨[], .error (.fault fault)⟩ := by
  rw [searchFrom, h]
  rfl

theorem searchFrom_cons_of_ok {x : Term} {xs : List Term} {visits : Visits}
    {fresh : List Configuration} (h : p.visits.visitAll [.origin x] = .ok (visits, fresh)) :
    s.searchFrom close (x :: xs) p =
      s.explore close s.rounds fresh { p with visits } >>= s.searchFrom close xs := by
  rw [searchFrom, h]
  exact Evaluation.pure_bind (visits, fresh) _

/-- Where the queue is empty, the next origin is begun and searched, and then the others. -/
theorem makes_searchFrom_cons {x : Term} {left : List Term} (hqueue : st.queue = [])
    (horigins : st.origins = x :: left)
    (hexplored : ∀ visits fresh, st.progress.visits.visitAll [.origin x] = .ok (visits, fresh) →
      s.Empties close (st.begin left visits fresh)
        (s.explore close s.rounds fresh { st.progress with visits } st.calls))
    (hrest : ∀ visits fresh events last,
      st.progress.visits.visitAll [.origin x] = .ok (visits, fresh) →
      s.explore close s.rounds fresh { st.progress with visits } st.calls =
        ⟨events, .ok last.progress⟩ →
      s.Polls close (st.begin left visits fresh) events last →
      last.queue = [] → last.origins = left →
      s.Makes close last (s.searchFrom close left last.progress last.calls)) :
    s.Makes close st (s.searchFrom close (x :: left) st.progress st.calls) := by
  cases hvisited : st.progress.visits.visitAll [.origin x] with
  | error fault =>
      rw [searchFrom_cons_of_error hvisited]
      apply Makes.stop
      rw [poll_of_origins hqueue horigins, hvisited]
  | ok marked =>
      obtain ⟨visits, fresh⟩ := marked
      have hpoll : s.poll close st = some ⟨[], .ok (st.begin left visits fresh)⟩ := by
        rw [poll_of_origins hqueue horigins, hvisited]
      have hbegun := hexplored visits fresh hvisited
      have hmakes : s.Makes close (st.begin left visits fresh) ((s.explore close s.rounds fresh
          { st.progress with visits } >>= s.searchFrom close left) st.calls) := by
        cases hrun : s.explore close s.rounds fresh { st.progress with visits } st.calls with
        | mk events result =>
            rw [hrun] at hbegun
            cases result with
            | error stop =>
                rw [bind_run_of_error hrun]
                exact hbegun
            | ok p =>
                obtain ⟨last, hpolls, hdone, hleft, rfl⟩ := hbegun
                have hlast := hrest visits fresh events last hvisited hrun hpolls hdone hleft
                rw [hpolls.calls] at hlast
                rw [bind_run_of_ok hrun]
                exact hpolls.makes hlast
      rw [searchFrom_cons_of_ok hvisited]
      exact Makes.step hpoll hmakes

/-- Polled from where the queue is empty, a search makes its run over the origins that are left. -/
theorem makes_searchFrom (hs : s.Supplies close E P)
    (hpreserves : s.Preserves P (s.Located nodes origins))
    (hbound : nodes.length ≤ s.graph.nodeBound) {left : List Term}
    (h : s.Sound P (s.Located nodes origins) st) (hqueue : st.queue = [])
    (horigins : st.origins = left) :
    s.Makes close st (s.searchFrom close left st.progress st.calls) := by
  induction left generalizing st with
  | nil => exact Makes.done (poll_of_done hqueue horigins)
  | cons x left ih =>
      have hbegun {visits : Visits} {fresh : List Configuration}
          (hvisited : st.progress.visits.visitAll [.origin x] = .ok (visits, fresh)) :
          s.Sound P (s.Located nodes origins) (st.begin left visits fresh) := by
        apply h.poll hs hpreserves
        rw [poll_of_origins hqueue horigins, hvisited]
      refine makes_searchFrom_cons hqueue horigins ?_ ?_
      · intro visits fresh hvisited
        have hfresh : ∀ c ∈ fresh, c.subject = x := by
          intro c hc
          rw [List.mem_singleton.mp ((Visits.grows_of_visitAll hvisited).2 hc)]
          rfl
        let begun := st.begin left visits fresh
        have hcount : queuedFrom x begun = queuedFrom x st + fresh.length :=
          queuedFrom_of_append rfl hfresh
        have hn : begun.queue.length + s.rounds ≤ s.rounds + queuedFrom x begun := by
          have hlength : begun.queue.length = fresh.length := rfl
          omega
        exact empties_explore hs hpreserves hbound (hbegun hvisited) hfresh hn
      · intro visits fresh events last hvisited _ hpolls hdone hleft
        exact ih ((hbegun hvisited).polls hs hpreserves hpolls) hdone hleft

end runs

/-- What is expanded in the end has been put in the queue, each configuration once. -/
theorem Makes.exists_queued (hs : s.Supplies close E P) (hpreserves : s.Preserves P Q)
    (hclose : ∀ a x, (close a x).Idle) {r : Run Progress} (hmakes : s.Makes close st r)
    (h : s.Sound P Q st) : ∃ queued : List Configuration, (queued.map Configuration.key).Nodup ∧
      (∀ c ∈ queued, Q c) ∧ (st.expanded ++ r.expansions).Sublist queued := by
  have hbefore : ∀ {st : Stage}, s.Sound P Q st → ∃ queued : List Configuration,
      (queued.map Configuration.key).Nodup ∧ (∀ c ∈ queued, Q c) ∧
        (st.expanded ++ []).Sublist queued := by
    intro st h
    rw [List.append_nil]
    exact ⟨st.queued, h.nodup, h.kind, (List.sublist_append_left _ _).trans h.order⟩
  induction hmakes with
  | done _ => exact hbefore h
  | @stop st events stop hpoll =>
      rcases poll_eq_error hpoll with ⟨c, queue, hqueue, hrun⟩ | ⟨rfl, _⟩
      · have horder := h.order
        rw [hqueue, List.append_cons] at horder
        have htold : Run.expansions (s.expand close c st.progress st.calls) = [c] :=
          expansions_expand hclose c st.progress st.calls
        rw [hrun, Run.expansions] at htold
        refine ⟨st.queued, h.nodup, h.kind, ?_⟩
        rw [Run.expansions, htold]
        exact (List.sublist_append_left _ _).trans horder
      · exact hbefore h
  | @step st st' events r hpoll _ ih =>
      have hrest := ih (h.poll hs hpreserves hpoll)
      change ∃ queued, _ ∧ _ ∧
        (st.expanded ++ Run.expansions ⟨events ++ r.events, r.result⟩).Sublist queued
      rw [Run.expansions, List.filterMap_append]
      rcases poll_eq_ok hpoll with
        ⟨c, queue, r', _, hrun, rfl⟩ | ⟨x, origins, visits, fresh, _, _, rfl, _, rfl⟩
      · have htold : Run.expansions (s.expand close c st.progress st.calls) = [c] :=
          expansions_expand hclose c st.progress st.calls
        rw [hrun, Run.expansions] at htold
        rw [htold, ← List.append_assoc]
        exact hrest
      · exact hrest

end Search

end PropertyPath
