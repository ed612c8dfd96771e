import PropertyPath.Proofs.Search.Composed
import PropertyPath.Proofs.Search.Explore
import PropertyPath.Search.Evaluator

/-!
# No pair is delivered twice

Whatever the graph answers, and however the search ends, its solutions are pairs that have not been
delivered before. The invariant is that the pairs that are remembered as delivered are those that
have been told, in reverse, and are all different.
-/
namespace PropertyPath
open Evaluation

section hops
variable {g : GraphService} {context : CallContext}

theorem composes_silent (g : GraphService) (context : CallContext) :
    Composes g context fun _ m => m.Silent := composes_withholds (fun _ => rfl) g context

theorem silent_joinedPairs (start : Endpoint) (branches : List (List Instruction)) :
    (joinedPairs g context start branches).Silent :=
  (composes_silent g context).joinedPairs start branches

end hops

namespace Search
variable {s : Search} {close : ClosureSearch} {p : Progress}

theorem silent_closureSearch (allowed : Nat) (a : Automaton) (x : Term) :
    (s.closureSearch allowed a x).Silent := by
  cases allowed with
  | zero => exact silent_fail _
  | succ allowed => exact (silent_collect _).bind fun solutions => silent_pure _

/-- Nothing is delivered, and nothing new is remembered as delivered. -/
def Keeps {α : Type} (p : Progress) (solutions : List Solution)
    (r : Except Halt (α × Progress)) : Prop :=
  solutions = [] ∧ ∀ a p', r = .ok (a, p') → p'.visits.delivered = p.visits.delivered

theorem keeps_same {α : Type} (a : α) (p : Progress) (closures : List ((Nat × Term) × List Term)) :
    Keeps p [] (.ok (a, { p with closures })) := by
  refine ⟨rfl, ?_⟩
  intro _ p' heq
  cases heq
  rfl

theorem keeps_stop {α : Type} (stop : Halt) :
    Keeps p [] (.error stop : Except Halt (α × Progress)) := by
  refine ⟨rfl, ?_⟩
  intro _ _ heq
  cases heq

theorem finishes_follow (hclose : ∀ a x, (close a x).Silent) (i : Nat) (t : Transition) (x : Term)
    (p : Progress) : (s.follow close i t x p).Finishes (Keeps p) := by
  cases hbranches : t.label.branches? with
  | some branches =>
      rw [follow_of_branches hbranches]
      exact (silent_joinedPairs _ _).bind_finishes
        (fun pairs => finishes_pure (keeps_same _ p p.closures)) keeps_stop
  | none =>
      obtain ⟨kind, nested, hlabel⟩ := Label.exists_closure_of_branches hbranches
      cases hfound : s.remembered? i x p with
      | some nodes =>
          rw [follow_of_remembered hlabel hfound]
          exact finishes_pure (keeps_same nodes p p.closures)
      | none =>
          rw [follow_of_closure hlabel hfound]
          have hlog : (log [.closure i x]).Silent := fun _ => rfl
          refine (hclose nested x).bind_finishes (fun nodes => ?_) keeps_stop
          exact hlog.bind_finishes (fun _ => finishes_pure (keeps_same nodes p _)) keeps_stop

theorem finishes_followAll (hclose : ∀ a x, (close a x).Silent) (c : Configuration)
    (ts : List (Transition × Nat)) (p : Progress) :
    (s.followAll close c ts p).Finishes (Keeps p) := by
  induction ts generalizing p with
  | nil => exact finishes_pure (keeps_same [] p p.closures)
  | cons t ts ih =>
      obtain ⟨t, i⟩ := t
      rw [followAll]
      refine Finishes.bind (finishes_follow hclose i t c.node p) ?_ ?_
      · intro _ answer hanswer
        obtain ⟨nodes, p₁⟩ := answer
        obtain ⟨rfl, hfollow⟩ := hanswer
        refine finishes_ofExcept_bind ?_ keeps_stop
        intro marked hvisited
        obtain ⟨visits, fresh⟩ := marked
        have hvisits : visits.delivered = p.visits.delivered :=
          (Visits.delivered_of_visitAll hvisited).trans (hfollow nodes p₁ rfl)
        refine Finishes.bind (ih { p₁ with visits }) ?_ ?_
        · intro _ answer hanswer
          obtain ⟨later, p₂⟩ := answer
          obtain ⟨rfl, hrest⟩ := hanswer
          refine finishes_pure ⟨rfl, ?_⟩
          intro _ p' heq
          cases heq
          exact (hrest later p₂ rfl).trans hvisits
        · intro _ stop h
          rcases h with ⟨rfl, _⟩
          exact keeps_stop stop
      · intro _ stop h
        rcases h with ⟨rfl, _⟩
        exact keeps_stop stop

/-- The solutions are told of pairs that have not been delivered before, each of them once; a search
that goes on remembers them. -/
def News (s : Search) (old : List (Term × Term)) (solutions : List Solution)
    (r : Except Halt Progress) : Prop :=
  ∃ pairs : List (Term × Term), solutions = pairs.map s.told ∧
    (old.Nodup → (pairs.reverse ++ old).Nodup) ∧
    ∀ p, r = .ok p → p.visits.delivered = pairs.reverse ++ old

section news
variable {old : List (Term × Term)} {solutions more : List Solution}

theorem news_stop (stop : Halt) : s.News old [] (.error stop) := ⟨[], rfl, id, nofun⟩

theorem news_same (p : Progress) : s.News p.visits.delivered [] (.ok p) := by
  refine ⟨[], rfl, id, ?_⟩
  intro _ heq
  cases heq
  rfl

theorem News.append {r : Except Halt Progress} (h : s.News old solutions (.ok p))
    (h' : s.News p.visits.delivered more r) : s.News old (solutions ++ more) r := by
  obtain ⟨pairs, rfl, hnodup, hdelivered⟩ := h
  obtain ⟨pairs', rfl, hnodup', hdelivered'⟩ := h'
  rw [hdelivered p rfl] at hnodup' hdelivered'
  refine ⟨pairs ++ pairs', by rw [List.map_append], ?_, ?_⟩
  · intro hold
    rw [List.reverse_append, List.append_assoc]
    exact hnodup' (hnodup hold)
  · intro p' hr
    rw [hdelivered' p' hr, List.reverse_append, List.append_assoc]

theorem told_injective (s : Search) : Function.Injective s.told := by
  intro pair pair' h
  obtain ⟨x, y⟩ := pair
  obtain ⟨x', y'⟩ := pair'
  unfold told at h
  split at h
  · cases h
    rfl
  · cases h
    rfl

/-- The news of a search from the beginning are all different. -/
theorem News.nodup {r : Except Halt Progress} (h : s.News [] solutions r) : solutions.Nodup := by
  obtain ⟨pairs, rfl, hnodup, _⟩ := h
  have hpairs := hnodup List.nodup_nil
  rw [List.append_nil, List.nodup_reverse] at hpairs
  exact hpairs.map s.told_injective

end news

theorem finishes_expand (hclose : ∀ a x, (close a x).Silent) (c : Configuration) (p : Progress) :
    (s.expand close c p).Finishes fun solutions r =>
      s.News p.visits.delivered solutions (r.map (·.2)) := by
  obtain ⟨new, pairs, hdeliver, hbatch, _, _, hnodup⟩ := exists_delivered (s := s) c p.visits
  have hdelivers : ∀ (next : Option (List Configuration)) (p' : Progress),
      p'.visits.delivered = pairs.reverse ++ p.visits.delivered →
      (deliver (pairs.map s.told) >>= fun _ => Pure.pure (next, p')).Finishes
        fun solutions r => s.News p.visits.delivered solutions (r.map (·.2)) := by
    intro next p' hp'
    have hyields : (deliver (pairs.map s.told) >>= fun _ => Pure.pure (next, p')).Yields
        fun solutions r => solutions = pairs.map s.told ∧ r = (next, p') := by
      refine Yields.bind (yields_deliver _) ?_
      intro _ _ heq'
      subst heq'
      exact yields_pure ⟨List.append_nil _, rfl⟩
    refine Finishes.mono hyields ?_
    intro _ _ h
    rcases h with ⟨_, rfl, rfl, rfl⟩
    refine ⟨pairs, rfl, hnodup, ?_⟩
    intro _ heq
    cases heq
    exact hp'
  have hlog : (log [.expand c]).Silent := fun _ => rfl
  rw [expand]
  refine hlog.bind_finishes (fun _ => ?_) news_stop
  rw [hdeliver]
  dsimp only
  rw [hbatch]
  split
  · exact hdelivers _ _ rfl
  · split
    · exact hdelivers _ _ rfl
    · refine Finishes.bind (finishes_followAll hclose c _ _) ?_ ?_
      · intro _ answer hanswer
        obtain ⟨fresh, p'⟩ := answer
        obtain ⟨rfl, hfollowed⟩ := hanswer
        exact hdelivers (some fresh) p' (hfollowed fresh p' rfl)
      · intro _ stop h
        rcases h with ⟨rfl, _⟩
        exact news_stop stop

theorem finishes_explore (hclose : ∀ a x, (close a x).Silent) (n : Nat) (queue : List Configuration)
    (p : Progress) : (s.explore close n queue p).Finishes (s.News p.visits.delivered) := by
  induction n generalizing queue p with
  | zero =>
      cases queue with
      | nil => exact finishes_pure (news_same p)
      | cons c queue => exact fun _ => news_stop _
  | succ n ih =>
      cases queue with
      | nil => exact finishes_pure (news_same p)
      | cons c queue =>
          rw [explore]
          refine Finishes.bind (finishes_expand hclose c p) ?_ fun _ _ hnews => hnews
          intro solutions outcome hnews
          obtain ⟨next, p'⟩ := outcome
          cases next with
          | none => exact finishes_pure (hnews.append (news_same p'))
          | some fresh =>
              refine (ih (queue ++ fresh) p').mono ?_
              exact fun more r hmore => hnews.append hmore

theorem finishes_searchFrom (hclose : ∀ a x, (close a x).Silent)
    (origins : List Term) (p : Progress) :
    (s.searchFrom close origins p).Finishes (s.News p.visits.delivered) := by
  induction origins generalizing p with
  | nil => exact finishes_pure (news_same p)
  | cons x origins ih =>
      rw [searchFrom]
      refine finishes_ofExcept_bind ?_ news_stop
      intro marked hvisited
      obtain ⟨visits, fresh⟩ := marked
      rw [← Visits.delivered_of_visitAll hvisited]
      refine Finishes.bind (finishes_explore hclose s.rounds fresh { p with visits }) ?_ ?_
      · intro solutions p' hnews
        refine (ih p').mono ?_
        exact fun more r hmore => hnews.append hmore
      · exact fun solutions stop hnews => hnews

theorem finishes_run (origins : List Term) : (s.run origins).Finishes (s.News []) :=
  finishes_searchFrom (fun a x => silent_closureSearch _ a x) origins s.start

theorem silent_probe : s.probe.Silent := (composes_silent _ _).probe

theorem nodup_runFrom (x : Term) : (s.runFrom x).Finishes fun solutions _ => solutions.Nodup := by
  refine Finishes.bind (finishes_run [x]) ?_ fun _ _ hnews => hnews.nodup
  intro solutions p hnews
  refine finishes_pure ?_
  rw [List.append_nil]
  exact hnews.nodup

/-- What is found by the search is not found again among the nodes of the graph. -/
theorem nodup_runAnywhere : s.runAnywhere.Finishes fun solutions _ => solutions.Nodup := by
  refine silent_probe.bind_finishes (fun origins => ?_) fun _ => List.nodup_nil
  refine Finishes.bind (finishes_run origins) ?_ fun _ _ hnews => hnews.nodup
  intro solutions p hnews
  split
  · refine (silent_ask _ _ _).bind_finishes (fun bs => ?_) fun _ => ?_
    · refine Finishes.mono (yields_deliver _) ?_
      intro _ _ h
      rcases h with ⟨_, _, rfl⟩
      rw [List.nodup_append']
      refine ⟨hnews.nodup, Visits.nodup_deliverReflexive _ _, ?_⟩
      intro t ht hagain
      obtain ⟨pairs, rfl, _, hdelivered⟩ := hnews
      obtain ⟨⟨x, y⟩, hpair, rfl⟩ := List.mem_map.mp ht
      obtain ⟨heq, _, hnot⟩ := (Visits.mem_deliverReflexive _ _).mp hagain
      have hxy : x = y := by
        unfold told at heq
        split at heq
        · exact heq.symm
        · exact heq
      subst hxy
      rw [told_self] at hnot
      apply hnot
      rw [hdelivered p rfl, List.append_nil, List.mem_reverse]
      exact hpair
    · rw [List.append_nil]
      exact hnews.nodup
  · refine finishes_pure ?_
    rw [List.append_nil]
    exact hnews.nodup

end Search

/-- Whatever the graph answers and the options are, no solution is delivered twice. -/
theorem Evaluator.nodup_evaluation (e : Evaluator) (subject : Endpoint) (path : CompiledPath)
    (object : Endpoint) :
    (e.evaluation subject path object).Finishes fun solutions _ => solutions.Nodup := by
  cases subject with
  | term s =>
      cases object with
      | term o => exact Search.nodup_runFrom s
      | var w => exact Search.nodup_runFrom s
  | var v =>
      cases object with
      | term o => exact Search.nodup_runFrom o
      | var w => exact Search.nodup_runAnywhere

end PropertyPath
