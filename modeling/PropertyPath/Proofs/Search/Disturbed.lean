import PropertyPath.Proofs.Search.Longer

/-!
# A call that fails cuts the run short

Up to the call that fails a run is the run over the graph that does not fail. It ends there: nothing
is asked again, nothing is delivered any more, and the fault is the one of the graph. A query that
is answered without the ends of its hop is an internal fault, and ends the run in the same way. When
so many calls are never made, the run is the same.
-/
namespace PropertyPath
open Evaluation

/-- What becomes of a call whose answer is a stream: it fails at once, or it yields solutions, and
any of these may be a failure instead. -/
abbrev AnswerStream := Except StorageFault (List (Except StorageFault Bindings))

namespace AnswerStream

/-- A stream is read up to its end or its first failure before it is looked at. -/
def collected (stream : AnswerStream) : Answer := stream.bind fun items => items.mapM id

/-- The answer fails at once, or after it has yielded all its solutions. -/
inductive FailsWith (fault : StorageFault) : AnswerStream → Prop
  | atOnce : FailsWith fault (.error fault)
  | atLast (solutions : List Bindings) : FailsWith fault (.ok (solutions.map .ok ++ [.error fault]))

/-- One solution, which binds nothing. -/
def unbound : AnswerStream := .ok [.ok Bindings.empty]

theorem FailsWith.collected {fault : StorageFault} {stream : AnswerStream}
    (h : stream.FailsWith fault) :
    stream.collected = .error fault := by
  cases h with
  | atOnce => rfl
  | atLast solutions =>
      change (solutions.map Except.ok ++ [Except.error fault]).mapM id = _
      induction solutions with
      | nil => rfl
      | cons b solutions ih =>
          rw [List.map_cons, List.cons_append, List.mapM_cons, ih]
          rfl

end AnswerStream

/-- The answer ends an evaluation that asks for it, with the given fault. -/
inductive Answer.Breaks : Answer → GraphCall → EvaluationFault → Prop
  | storage (fault : StorageFault) (call : GraphCall) : Breaks (.error fault) call (.storage fault)
  | unbound (query : ConjunctiveQuery) :
      Breaks (.ok [Bindings.empty]) (.query query) (.unboundEnds query)

theorem AnswerStream.FailsWith.breaks {fault : StorageFault} {stream : AnswerStream}
    (h : stream.FailsWith fault) (call : GraphCall) :
    stream.collected.Breaks call (.storage fault) := by
  rw [h.collected]
  exact .storage fault call

namespace Run
variable {α : Type}

/-- What is read of a run: its solutions, and then why it ended early. -/
def stream (r : Run α) : List (Except Halt Solution) :=
  r.solutions.map .ok ++ match r.result with
    | .ok _ => []
    | .error halt => [.error halt]

/-- What is read as an error is why the run ended early. -/
theorem error_mem_stream {r : Run α} {halt : Halt} :
    .error halt ∈ r.stream ↔ r.result = .error halt := by
  rw [stream, List.mem_append]
  cases r.result with
  | ok _ => simp
  | error stop => simp [eq_comm]

/-- A run that ends at a call has delivered what was delivered before the call. -/
theorem stream_cut (before : List Event) (call : GraphCall) (halt : Halt) :
    stream (⟨before ++ [.call call], .error halt⟩ : Run α) =
      (before.filterMap Event.solution?).map .ok ++ [.error halt] := by
  rw [stream, solutions, List.filterMap_append, List.filterMap_cons_none rfl, List.filterMap_nil,
    List.append_nil]

end Run

namespace Evaluation
variable {α β : Type} {m m' : Evaluation α} {f f' : α → Evaluation β} {k : Nat} {a : Answer}

/-- No call is made. -/
def Offline (m : Evaluation α) : Prop := ∀ j, Run.callCount (m j).events = 0

theorem offline_pure (x : α) : (Pure.pure x : Evaluation α).Offline := fun _ => rfl

theorem offline_halt (stop : Halt) : (halt stop : Evaluation α).Offline := fun _ => rfl

theorem offline_ofExcept (r : Except EvaluationFault α) : (ofExcept r).Offline := by
  cases r with
  | ok x => exact offline_pure x
  | error fault => exact offline_halt _

theorem offline_deliver (batch : List Solution) : (deliver batch).Offline := by
  intro j
  change (batch.map Event.solution).countP Event.isCall = 0
  rw [List.countP_map, List.countP_eq_zero]
  exact fun _ _ => nofun

theorem Offline.bind (h : m.Offline) (hf : ∀ x, (f x).Offline) : (m >>= f).Offline := by
  intro j
  have hm := h j
  cases hrun : m j with
  | mk events result =>
      rw [hrun] at hm
      cases result with
      | error stop => rw [bind_run_of_error hrun, hm]
      | ok x => rw [bind_run_of_ok hrun, Run.callCount_append, hm, hf x]

/-- The second evaluation does the same as the first one, as long as that does not make call number
`k`. If it makes that call and the answer `a` breaks it, the second one ends there. -/
def Cuts (k : Nat) (a : Answer) (m m' : Evaluation α) : Prop :=
  ∀ j, (j ≤ k → j + Run.callCount (m j).events ≤ k) ∧ m' j = m j ∨
    ∃ before call after, (m j).events = before ++ .call call :: after ∧
      j + Run.callCount before = k ∧
      ∀ fault, a.Breaks call fault → m' j = ⟨before ++ [.call call], .error (.fault fault)⟩

theorem Offline.cuts (h : m.Offline) (k : Nat) (a : Answer) : m.Cuts k a m := by
  intro j
  refine Or.inl ⟨?_, rfl⟩
  intro hj
  rw [h j]
  exact hj

theorem Cuts.bind (h : m.Cuts k a m') (hf : ∀ x, (f x).Cuts k a (f' x)) :
    (m >>= f).Cuts k a (m' >>= f') := by
  intro j
  cases hrun : m j with
  | mk events result =>
      have hm := h j
      rw [hrun] at hm
      rcases hm with ⟨hcount, hsame⟩ | ⟨before, call, after, hevents, hnumber, hbreaks⟩
      · cases result with
        | error stop =>
            rw [bind_run_of_error hrun, bind_run_of_error hsame]
            exact Or.inl ⟨hcount, rfl⟩
        | ok x =>
            rw [bind_run_of_ok hrun, bind_run_of_ok hsame]
            rcases hf x (j + Run.callCount events) with
              ⟨hmore, hsame'⟩ | ⟨before, call, after, hevents, hnumber, hbreaks⟩
            · refine Or.inl ⟨?_, by rw [hsame']⟩
              intro hj
              rw [Run.callCount_append, ← Nat.add_assoc]
              exact hmore (hcount hj)
            · refine Or.inr ⟨events ++ before, call, after, ?_, ?_, ?_⟩
              · change events ++ (f x _).events = _
                rw [hevents, List.append_assoc]
              · rw [Run.callCount_append, ← Nat.add_assoc, hnumber]
              · intro fault hfault
                rw [hbreaks fault hfault, List.append_assoc]
      · obtain ⟨more, hmore⟩ := prefix_bind m f j
        rw [hrun, show events = _ from hevents, List.append_assoc, List.cons_append] at hmore
        refine Or.inr ⟨before, call, after ++ more, hmore.symm, hnumber, ?_⟩
        exact fun fault hfault => bind_run_of_error (hbreaks fault hfault)

/-- What comes after a call that is looked at offline is offline. -/
theorem events_ask_bind (g : GraphService) (context : CallContext) (call : GraphCall)
    {f : List Bindings → Evaluation β} (hf : ∀ bs, (f bs).Offline) (j : Nat) :
    ∃ more, ((ask g context call >>= f) j).events = .call call :: more ∧
    Run.callCount more = 0 := by
  cases hanswer : g.answer j call context with
  | error fault =>
      have hrun : ask g context call j = ⟨[.call call], .error (.fault (.storage fault))⟩ := by
        rw [ask, hanswer]
      rw [bind_run_of_error hrun]
      exact ⟨[], rfl, rfl⟩
  | ok bs =>
      have hrun : ask g context call j = ⟨[.call call], .ok bs⟩ := by
        rw [ask, hanswer]
      rw [bind_run_of_ok hrun]
      exact ⟨_, rfl, hf bs _⟩

/-- A call is broken by an answer that fails, and a query by one that binds nothing if that is an
internal fault to whoever looks at it. -/
theorem cuts_ask_bind (g : GraphService) (context : CallContext) (call : GraphCall)
    {f : List Bindings → Evaluation β} (hf : ∀ bs, (f bs).Offline)
    (hunbound : ∀ q, call = .query q → f [Bindings.empty] = fail (.unboundEnds q)) :
    (ask g context call >>= f).Cuts k a (ask (g.disturb k a) context call >>= f) := by
  intro j
  obtain ⟨more, hevents, hmore⟩ := events_ask_bind g context call hf j
  rcases eq_or_ne j k with rfl | hj
  · refine Or.inr ⟨[], call, more, hevents, rfl, ?_⟩
    intro fault hfault
    cases hfault with
    | storage fault =>
        have hrun : ask (g.disturb j (.error fault)) context call j =
            ⟨[.call call], .error (.fault (.storage fault))⟩ := by
          rw [ask, GraphService.answer_disturb_self]
        exact bind_run_of_error hrun
    | unbound q =>
        have hrun : ask (g.disturb j (.ok [Bindings.empty])) context (.query q) j =
            ⟨[.call (.query q)], .ok [Bindings.empty]⟩ := by
          rw [ask, GraphService.answer_disturb_self]
        rw [bind_run_of_ok hrun, hunbound q rfl]
        rfl
  · have hask : ask (g.disturb k a) context call j = ask g context call j := by
      rw [ask, ask, g.answer_disturb_of_ne hj]
    refine Or.inl ⟨?_, ?_⟩
    · intro hle
      have hone : Run.callCount (.call call :: more) = 1 := by
        rw [Run.callCount, List.countP_cons_of_pos rfl, ← Run.callCount, hmore]
      rw [hevents, hone]
      omega
    · cases hrun : ask g context call j with
      | mk events result =>
          cases result with
          | error stop => rw [bind_run_of_error hrun, bind_run_of_error (hask.trans hrun)]
          | ok bs => rw [bind_run_of_ok hrun, bind_run_of_ok (hask.trans hrun)]

theorem callCount_filter_isCall (events : List Event) :
    Run.callCount (events.filter Event.isCall) = Run.callCount events := by
  rw [Run.callCount, Run.callCount, List.countP_filter]
  congr 1
  funext e
  exact Bool.and_self _

theorem Cuts.collect (h : m.Cuts k a m') : (collect m).Cuts k a (collect m') := by
  intro j
  rcases h j with ⟨hcount, hsame⟩ | ⟨before, call, after, hevents, hnumber, hbreaks⟩
  · refine Or.inl ⟨?_, ?_⟩
    · rw [Evaluation.collect, callCount_filter_isCall]
      exact hcount
    · rw [Evaluation.collect, Evaluation.collect, hsame]
  · refine Or.inr ⟨before.filter Event.isCall, call, after.filter Event.isCall, ?_, ?_, ?_⟩
    · change (m j).events.filter Event.isCall = _
      rw [hevents, List.filter_append, List.filter_cons_of_pos rfl]
    · rw [callCount_filter_isCall, hnumber]
    · intro fault hfault
      rw [Evaluation.collect, hbreaks fault hfault]
      change Run.mk ((before ++ [Event.call call]).filter Event.isCall) _ = _
      rw [List.filter_append]
      rfl

end Evaluation

section hops
variable {k : Nat} {a : Answer}

theorem Hop.mapM_ends_unbound (h : Hop) :
    [Bindings.empty].mapM h.ends = .error (.unboundEnds h.query) := by
  have hends : h.ends Bindings.empty = .error (.unboundEnds h.query) := by
    unfold ends
    split
    · next heq => simp at heq
    · rfl
  rw [List.mapM_cons, hends]
  rfl

theorem Hop.cuts_execute (h : Hop) (g : GraphService) (context : CallContext) :
    (h.execute g context).Cuts k a (h.execute (g.disturb k a) context) := by
  unfold execute
  split
  · split
    · exact (offline_pure _).cuts k a
    · exact (offline_halt _).cuts k a
  · refine cuts_ask_bind g context _ ?_ ?_
    · exact fun bs => (offline_ofExcept _).bind fun pairs => offline_pure _
    · intro q hq
      cases hq
      rw [h.mapM_ends_unbound]
      rfl

theorem cuts_joinedPairs (g : GraphService) (context : CallContext) (start : Endpoint)
    (branches : List (List Instruction)) :
    (joinedPairs g context start branches).Cuts k a
      (joinedPairs (g.disturb k a) context start branches) := by
  have hbranches : (pairsByChain g context start branches).Cuts k a
      (pairsByChain (g.disturb k a) context start branches) := by
    induction branches with
    | nil => exact (offline_pure _).cuts k a
    | cons is branches ih =>
        rw [pairsByChain, pairsByChain]
        refine (Hop.cuts_execute _ g context).bind fun pairs => ?_
        exact ih.bind fun more => (offline_pure _).cuts k a
  exact hbranches.bind fun pairs => (offline_pure _).cuts k a

end hops

namespace Search
variable {s : Search} {close close' : ClosureSearch} {k : Nat} {a : Answer}

/-- The same search, when the graph answers call number `k` in another way. -/
def disturb (s : Search) (k : Nat) (a : Answer) : Search := { s with graph := s.graph.disturb k a }

theorem cuts_follow (hclose : ∀ b x, (close b x).Cuts k a (close' b x)) (i : Nat) (t : Transition)
    (x : Term) (p : Progress) :
    (s.follow close i t x p).Cuts k a ((s.disturb k a).follow close' i t x p) := by
  cases hbranches : t.label.branches? with
  | some branches =>
      rw [follow_of_branches hbranches, follow_of_branches hbranches]
      refine (cuts_joinedPairs s.graph s.context (.term x) branches).bind ?_
      exact fun pairs => (offline_pure _).cuts k a
  | none =>
      obtain ⟨kind, nested, hlabel⟩ := Label.exists_closure_of_branches hbranches
      cases hfound : s.remembered? i x p with
      | some nodes =>
          have hfound' : (s.disturb k a).remembered? i x p = some nodes := hfound
          rw [follow_of_remembered hlabel hfound, follow_of_remembered hlabel hfound']
          exact (offline_pure _).cuts k a
      | none =>
          have hfound' : (s.disturb k a).remembered? i x p = none := hfound
          rw [follow_of_closure hlabel hfound, follow_of_closure hlabel hfound']
          refine (hclose nested x).bind fun nodes => ?_
          have hlog : (log [.closure i x]).Offline := fun _ => rfl
          exact (hlog.bind fun _ => offline_pure _).cuts k a

theorem cuts_followAll (hclose : ∀ b x, (close b x).Cuts k a (close' b x)) (c : Configuration)
    (ts : List (Transition × Nat)) (p : Progress) :
    (s.followAll close c ts p).Cuts k a ((s.disturb k a).followAll close' c ts p) := by
  induction ts generalizing p with
  | nil => exact (offline_pure _).cuts k a
  | cons t ts ih =>
      rw [followAll, followAll]
      refine (cuts_follow hclose _ _ _ _).bind fun answer => ?_
      refine ((offline_ofExcept _).cuts k a).bind fun marked => ?_
      exact (ih _).bind fun answer => (offline_pure _).cuts k a

theorem cuts_expand (hclose : ∀ b x, (close b x).Cuts k a (close' b x)) (c : Configuration)
    (p : Progress) : (s.expand close c p).Cuts k a ((s.disturb k a).expand close' c p) := by
  have hstops : (s.disturb k a).stopsAt c = s.stopsAt c := rfl
  have hdeep : (s.disturb k a).isTooDeep c = s.isTooDeep c := rfl
  have hlog : (log [.expand c]).Offline := fun _ => rfl
  have hends : ∀ batch (r : Option (List Configuration) × Progress),
      (deliver batch >>= fun _ => Pure.pure r).Offline :=
    fun batch r => (offline_deliver batch).bind fun _ => offline_pure r
  rw [expand_eq, expand_eq, hstops]
  refine (hlog.cuts k a).bind fun _ => ?_
  split
  · exact (hends _ _).cuts k a
  · rw [onward, onward, hdeep]
    split
    · exact (hends _ _).cuts k a
    · exact (cuts_followAll hclose c _ _).bind fun answer => (hends _ _).cuts k a

theorem cuts_explore (hclose : ∀ b x, (close b x).Cuts k a (close' b x)) (rounds : Nat)
    (queue : List Configuration) (p : Progress) :
    (s.explore close rounds queue p).Cuts k a ((s.disturb k a).explore close' rounds queue p) := by
  have hstill :
      ∀ n p, (s.explore close n [] p).Cuts k a ((s.disturb k a).explore close' n [] p) := by
    intro n p
    have hleft : s.explore close n [] p = Pure.pure p := funext fun _ => explore_nil
    have hright : (s.disturb k a).explore close' n [] p = Pure.pure p := funext fun _ => explore_nil
    rw [hleft, hright]
    exact (offline_pure p).cuts k a
  induction rounds generalizing queue p with
  | zero =>
      cases queue with
      | nil => exact hstill 0 p
      | cons c queue => exact (offline_halt .givenUp).cuts k a
  | succ n ih =>
      cases queue with
      | nil => exact hstill (n + 1) p
      | cons c queue =>
          rw [explore, explore]
          refine (cuts_expand hclose c p).bind fun outcome => ?_
          obtain ⟨next, p'⟩ := outcome
          cases next with
          | none => exact (offline_pure p').cuts k a
          | some fresh => exact ih (queue ++ fresh) p'

theorem cuts_searchFrom (hclose : ∀ b x, (close b x).Cuts k a (close' b x)) (origins : List Term)
    (p : Progress) :
    (s.searchFrom close origins p).Cuts k a ((s.disturb k a).searchFrom close' origins p) := by
  induction origins generalizing p with
  | nil => exact (offline_pure p).cuts k a
  | cons x origins ih =>
      rw [searchFrom, searchFrom]
      refine ((offline_ofExcept _).cuts k a).bind fun marked => ?_
      exact (cuts_explore hclose _ _ _).bind fun p' => ih p'

theorem cuts_closureSearch (s : Search) (allowed : Nat) (b : Automaton) (x : Term) :
    (s.closureSearch allowed b x).Cuts k a ((s.disturb k a).closureSearch allowed b x) := by
  induction allowed generalizing b x with
  | zero => exact (offline_halt _).cuts k a
  | succ allowed ih =>
      have hsearch := cuts_searchFrom (s := s.nested b) ih [x] (s.nested b).start
      rw [closureSearch, closureSearch]
      exact hsearch.collect.bind fun solutions => (offline_pure _).cuts k a

theorem cuts_run (s : Search) (origins : List Term) :
    (s.run origins).Cuts k a ((s.disturb k a).run origins) :=
  cuts_searchFrom (s.cuts_closureSearch _) origins s.start

theorem cuts_probe (s : Search) : s.probe.Cuts k a (s.disturb k a).probe := by
  have hall : ∀ openings, (s.probeAll openings).Cuts k a ((s.disturb k a).probeAll openings) := by
    intro openings
    induction openings with
    | nil => exact (offline_pure _).cuts k a
    | cons branches openings ih =>
        rw [probeAll, probeAll]
        refine (cuts_joinedPairs s.graph s.context _ branches).bind fun pairs => ?_
        exact ih.bind fun more => (offline_pure _).cuts k a
  exact (hall _).bind fun origins => (offline_pure _).cuts k a

theorem cuts_reflexive (s : Search) (p : Progress) :
    (s.reflexive p).Cuts k a ((s.disturb k a).reflexive p) :=
  cuts_ask_bind s.graph s.context _ (fun _ => offline_deliver _) nofun

end Search

namespace Evaluator
variable {e : Evaluator} {subject object : Endpoint} {path : CompiledPath} {k : Nat} {a : Answer}

/-- The same evaluator, when the graph answers call number `k` in another way. -/
def disturb (e : Evaluator) (k : Nat) (a : Answer) : Evaluator :=
  { e with graph := e.graph.disturb k a }

theorem searchFor_disturb : (e.disturb k a).searchFor subject path object =
    (e.searchFor subject path object).disturb k a := by
  unfold searchFor
  split <;> rfl

theorem cuts_originsFor :
    (e.originsFor subject path object).Cuts k a
      ((e.disturb k a).originsFor subject path object) := by
  unfold originsFor
  split
  · exact (offline_pure _).cuts k a
  · exact (offline_pure _).cuts k a
  · rw [searchFor_disturb]
    exact Search.cuts_probe _

theorem cuts_closing (p : Progress) :
    (e.closing subject path object p).Cuts k a ((e.disturb k a).closing subject path object p) := by
  unfold closing
  split
  · next x y =>
      have hnullable : ((e.disturb k a).searchFor (.var x) path (.var y)).automaton.isNullable =
          (e.searchFor (.var x) path (.var y)).automaton.isNullable := rfl
      dsimp only
      rw [hnullable]
      split
      · exact Search.cuts_reflexive _ p
      · exact (offline_pure _).cuts k a
  · exact (offline_pure _).cuts k a

theorem cuts_evaluation :
    (e.evaluation subject path object).Cuts k a
      ((e.disturb k a).evaluation subject path object) := by
  rw [evaluation_eq, evaluation_eq, searchFor_disturb]
  refine cuts_originsFor.bind fun origins => ?_
  exact (Search.cuts_run _ origins).bind fun p => cuts_closing p

/-- A call that fails, at once or after all its solutions, ends the run with the fault of the graph
as it is, after a beginning of what would have been delivered; so does a query that is answered with
a solution that binds nothing, with an internal fault. If the run makes no such call it is the
same. -/
theorem stream_disturb (e : Evaluator) (subject : Endpoint)
    (path : CompiledPath) (object : Endpoint)
    (k : Nat) (answer : AnswerStream) :
    let whole := e.evaluateCompiled subject path object
    let disturbed := (e.disturb k answer.collected).evaluateCompiled subject path object
    (Run.callCount whole.events ≤ k → disturbed = whole) ∧
      (k < Run.callCount whole.events → ∃ before call after,
        whole.events = before ++ .call call :: after ∧ Run.callCount before = k ∧
        let delivered := before.filterMap Event.solution?
        delivered <+: whole.solutions ∧
        (∀ fault, answer.FailsWith fault →
          disturbed.events = before ++ [.call call] ∧
            disturbed.stream = delivered.map .ok ++ [.error (.fault (.storage fault))] ∧
            (EvaluationFault.storage fault).message = fault.message) ∧
        (answer = .unbound → ∀ query, call = .query query → ∃ fault, fault.isInternal = true ∧
          disturbed.events = before ++ [.call call] ∧
            disturbed.stream = delivered.map .ok ++ [.error (.fault fault)])) := by
  intro whole disturbed
  rcases cuts_evaluation (a := answer.collected) (k := k) 0 with
    ⟨hcount, hsame⟩ | ⟨before, call, after, hevents, hnumber, hbreaks⟩
  · rw [Nat.zero_add] at hcount
    refine ⟨fun _ => hsame, ?_⟩
    intro hlt
    exact absurd (hcount k.zero_le) (Nat.not_le_of_gt hlt)
  · rw [Nat.zero_add] at hnumber
    have hsplit : whole.events = before ++ .call call :: after := hevents
    have hlt : k < Run.callCount whole.events := by
      rw [hsplit, Run.callCount_append, hnumber]
      exact Nat.lt_add_of_pos_right (List.countP_pos_iff.mpr ⟨_, List.mem_cons_self, rfl⟩)
    refine ⟨fun hle => absurd hlt (Nat.not_lt_of_ge hle), ?_⟩
    intro _
    have hcut : ∀ fault, answer.collected.Breaks call fault →
        disturbed.events = before ++ [.call call] ∧
          disturbed.stream =
            (before.filterMap Event.solution?).map .ok ++ [.error (.fault fault)] := by
      intro fault hfault
      have hrun : disturbed = ⟨before ++ [.call call], .error (.fault fault)⟩ :=
        hbreaks fault hfault
      rw [hrun]
      exact ⟨rfl, Run.stream_cut before call _⟩
    refine ⟨before, call, after, hsplit, hnumber, ?_, ?_, ?_⟩
    · rw [Run.solutions, hsplit, List.filterMap_append]
      exact List.prefix_append _ _
    · intro fault hfault
      obtain ⟨hends, hstream⟩ := hcut _ (hfault.breaks call)
      exact ⟨hends, hstream, rfl⟩
    · rintro rfl query rfl
      exact ⟨_, rfl, hcut _ (.unbound query)⟩

/-- The call fails after its solutions, within the closure of the second origin. -/
theorem stream_disturb_within_closure :
    let p : Instruction := .forward ⟨"p"⟩
    let nested : Automaton :=
      ⟨[⟨0, true, true⟩, ⟨1, false, true⟩], [⟨0, 1, .property p⟩, ⟨1, 1, .property p⟩]⟩
    let a : Automaton :=
      ⟨[⟨0, true, true⟩, ⟨1, false, true⟩], [⟨0, 1, .closure .zeroOrMore nested⟩]⟩
    let path : CompiledPath := ⟨.closure .zeroOrMore (.property (.forward ⟨"p"⟩)), a, a⟩
    let ts : List Triple :=
      [⟨.iri ⟨"a"⟩, ⟨"p"⟩, .iri ⟨"b"⟩⟩, ⟨.iri ⟨"b"⟩, ⟨"p"⟩, .iri ⟨"c"⟩⟩]
    let e : Evaluator := ⟨(TripleStore.ofTriples ts).toService, .default, {}⟩
    let subject : Endpoint := .var ⟨"x"⟩
    let object : Endpoint := .var ⟨"y"⟩
    let whole := e.evaluateCompiled subject path object
    let answer : AnswerStream := .ok [.ok ⟨[(⟨"_o0"⟩, .iri ⟨"c"⟩)]⟩, .error ⟨"lost"⟩]
    let disturbed := (e.disturb 4 answer.collected).evaluateCompiled subject path object
    4 < Run.callCount whole.events ∧ answer.FailsWith ⟨"lost"⟩ ∧
      (∃ before call after, whole.events = before ++ .call call :: after ∧
        Run.callCount before = 4 ∧
        let delivered := before.filterMap Event.solution?
        delivered <+: whole.solutions ∧
        disturbed.events = before ++ [.call call] ∧
          disturbed.stream = delivered.map .ok ++ [.error (.fault (.storage ⟨"lost"⟩))]) ∧
      (e.disturb 9 answer.collected).evaluateCompiled subject path object = whole := by
  intro p nested a path ts e subject object whole answer disturbed
  have hcalled : 4 < Run.callCount whole.events := by decide +kernel
  have hfails : answer.FailsWith ⟨"lost"⟩ := .atLast [⟨[(⟨"_o0"⟩, .iri ⟨"c"⟩)]⟩]
  obtain ⟨before, call, after, hevents, hnumber, hprefix, hstorage, _⟩ :=
    (stream_disturb e subject path object 4 answer).2 hcalled
  obtain ⟨hends, hstream, _⟩ := hstorage ⟨"lost"⟩ hfails
  refine ⟨hcalled, hfails, ⟨before, call, after, hevents, hnumber, hprefix, hends, hstream⟩, ?_⟩
  exact (stream_disturb e subject path object 9 answer).1 (by decide +kernel)

end Evaluator

end PropertyPath
