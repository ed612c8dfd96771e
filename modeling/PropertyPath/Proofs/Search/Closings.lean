import PropertyPath.Proofs.Search.Forgetful

/-!
# No closure is searched twice from the same node

A search tells which closures it has completed, each by the number of its transition and the node.
The invariant is that what it has told is what it remembers, in reverse, and that all of it is
different: behind a closure that is remembered there is no search. What searches within the search
complete is theirs, and is not told.
-/
namespace PropertyPath
open Evaluation

/-- The transition and the node of a closure that has been completed. -/
def Event.closing? : Event → Option (Nat × Term)
  | closure transition node => some (transition, node)
  | _ => none

theorem Event.closing?_call (call : GraphCall) : closing? (.call call) = none := rfl

theorem Event.closing?_solution (t : Solution) : closing? (.solution t) = none := rfl

/-- The closures that have been completed, in order. -/
def Run.closings {α : Type} (r : Run α) : List (Nat × Term) := r.events.filterMap Event.closing?

/-- What is remembered about closures, by transition and node. -/
def Progress.known (p : Progress) : List (Nat × Term) := p.closures.map (·.1)

/-- Of what has been completed nothing was known before, and nothing is told twice; a search that
goes on knows it. -/
structure Learns (old closings : List (Nat × Term)) (r : Except Halt Progress) : Prop where
  nodup : old.Nodup → (closings.reverse ++ old).Nodup
  known : ∀ p, r = .ok p → p.known = closings.reverse ++ old

section learns
variable {old closings more : List (Nat × Term)} {p : Progress}

theorem learns_stop (old : List (Nat × Term)) (stop : Halt) :
    Learns old [] (.error stop) := ⟨id, nofun⟩

theorem learns_same (h : p.known = old) : Learns old [] (.ok p) := by
  refine ⟨id, ?_⟩
  intro _ heq
  cases heq
  exact h

theorem Learns.append {r : Except Halt Progress} (h : Learns old closings (.ok p))
    (h' : Learns p.known more r) : Learns old (closings ++ more) r := by
  have hp := h.known p rfl
  rw [hp] at h'
  constructor
  · intro hold
    rw [List.reverse_append, List.append_assoc]
    exact h'.nodup (h.nodup hold)
  · intro p' hr
    rw [h'.known p' hr, List.reverse_append, List.append_assoc]

/-- A closure is completed that is not remembered. -/
theorem learns_closing {i : Nat} {x : Term} {nodes : List Term}
    (hnew : p.closures.lookup (i, x) = none) :
    Learns p.known [(i, x)] (.ok { p with closures := ((i, x), nodes) :: p.closures }) := by
  constructor
  · intro hold
    refine List.nodup_cons.mpr ⟨?_, hold⟩
    intro hmem
    obtain ⟨entry, hentry, hkey⟩ := List.mem_map.mp hmem
    have hne := List.lookup_eq_none_iff.mp hnew entry hentry
    rw [hkey] at hne
    simp at hne
  · intro _ heq
    cases heq
    rfl

end learns

namespace Search
variable {s : Search} {close : ClosureSearch} {p : Progress}

theorem withholds_closureSearch (allowed : Nat) (a : Automaton) (x : Term) :
    (s.closureSearch allowed a x).Withholds Event.closing? := by
  cases allowed with
  | zero => exact withholds_fail _
  | succ allowed =>
      exact (withholds_collect Event.closing?_call _).bind fun solutions => withholds_pure _

section steps
variable (hs : s.remember = true) (hclose : ∀ a x, (close a x).Withholds Event.closing?)
include hs hclose

/-- Behind a closure there is a search only if nothing is remembered about it. -/
theorem shows_follow (i : Nat) (t : Transition) (x : Term) (p : Progress) :
    (s.follow close i t x p).Shows Event.closing? fun closings r =>
      Learns p.known closings (r.map (·.2)) := by
  cases hbranches : t.label.branches? with
  | some branches =>
      rw [follow_of_branches hbranches]
      have hpairs :=
        (composes_withholds Event.closing?_call s.graph s.context).joinedPairs (.term x)
        branches
      refine hpairs.bind_shows (fun pairs => ?_) (learns_stop _)
      exact shows_pure (learns_same rfl)
  | none =>
      obtain ⟨kind, nested, hlabel⟩ := Label.exists_closure_of_branches hbranches
      cases hfound : s.remembered? i x p with
      | some nodes =>
          rw [follow_of_remembered hlabel hfound]
          exact shows_pure (learns_same rfl)
      | none =>
          have hnew : p.closures.lookup (i, x) = none := by
            rw [remembered?, if_pos hs] at hfound
            exact hfound
          rw [follow_of_closure hlabel hfound]
          refine (hclose nested x).bind_shows (fun nodes => ?_) (learns_stop _)
          exact fun _ => learns_closing hnew

theorem shows_followAll (c : Configuration) (ts : List (Transition × Nat)) (p : Progress) :
    (s.followAll close c ts p).Shows Event.closing? fun closings r =>
      Learns p.known closings (r.map (·.2)) := by
  induction ts generalizing p with
  | nil => exact shows_pure (learns_same rfl)
  | cons t ts ih =>
      rw [followAll]
      refine Shows.bind (shows_follow hs hclose t.2 t.1 c.node p) ?_ fun _ _ hlearns => hlearns
      intro closings answer hlearns
      obtain ⟨nodes, p₁⟩ := answer
      refine Shows.mono ?_ fun _ _ hmore => hlearns.append hmore
      refine (withholds_ofExcept _).bind_shows (fun marked => ?_) (learns_stop _)
      refine Shows.bind (ih { p₁ with visits := marked.1 }) ?_ fun _ _ hlearns' => hlearns'
      intro more answer hlearns'
      exact shows_pure (hlearns'.append (learns_same rfl))

theorem shows_expand (c : Configuration) (p : Progress) :
    (s.expand close c p).Shows Event.closing? fun closings r =>
      Learns p.known closings (r.map (·.2)) := by
  have hmarked : (s.mark c p).1.known = p.known :=
    congrArg (List.map Prod.fst) (marks_mark s c p).closures
  have hlog : (log [.expand c]).Withholds Event.closing? := fun _ => rfl
  have hdelivers (next : Option (List Configuration)) {p' : Progress} (hp' : p'.known = p.known) :
      (deliver (s.mark c p).2 >>= fun _ => Pure.pure (next, p')).Shows Event.closing?
        fun closings r => Learns p.known closings (r.map (·.2)) :=
    (withholds_deliver Event.closing?_solution _).bind_shows
      (fun _ => shows_pure (learns_same hp')) (learns_stop _)
  rw [expand_eq]
  refine hlog.bind_shows (fun _ => ?_) (learns_stop _)
  split
  · exact hdelivers none hmarked
  · rw [onward]
    split
    · exact hdelivers (some []) hmarked
    · have hfollowed := shows_followAll hs hclose c (s.leaving c.state) (s.mark c p).1
      rw [hmarked] at hfollowed
      refine Shows.bind hfollowed ?_ fun _ _ hlearns => hlearns
      intro closings answer hlearns
      refine (withholds_deliver Event.closing?_solution _).bind_shows (fun _ => ?_) fun stop => ?_
      · exact shows_pure (hlearns.append (learns_same rfl))
      · exact hlearns.append (learns_stop _ stop)

theorem shows_explore (n : Nat) (queue : List Configuration) (p : Progress) :
    (s.explore close n queue p).Shows Event.closing? (Learns p.known) := by
  induction n generalizing queue p with
  | zero =>
      cases queue with
      | nil => exact shows_pure (learns_same rfl)
      | cons c queue => exact fun _ => learns_stop _ _
  | succ n ih =>
      cases queue with
      | nil => exact shows_pure (learns_same rfl)
      | cons c queue =>
          rw [explore]
          refine Shows.bind (shows_expand hs hclose c p) ?_ fun _ _ hlearns => hlearns
          intro closings outcome hlearns
          obtain ⟨next, p'⟩ := outcome
          cases next with
          | none => exact shows_pure (hlearns.append (learns_same rfl))
          | some fresh => exact (ih (queue ++ fresh) p').mono fun _ _ hmore => hlearns.append hmore

theorem shows_searchFrom (origins : List Term) (p : Progress) :
    (s.searchFrom close origins p).Shows Event.closing? (Learns p.known) := by
  induction origins generalizing p with
  | nil => exact shows_pure (learns_same rfl)
  | cons x origins ih =>
      rw [searchFrom]
      refine (withholds_ofExcept _).bind_shows (fun marked => ?_) (learns_stop _)
      refine Shows.bind (shows_explore hs hclose s.rounds marked.2 { p with visits := marked.1 })
        ?_ fun _ _ hlearns => hlearns
      intro closings p' hlearns
      exact (ih p').mono fun _ _ hmore => hlearns.append hmore

end steps

/-- From the beginning nothing is completed twice. -/
theorem nodup_closings_searchFrom (hs : s.remember = true) (allowed : Nat) (origins : List Term) :
    (s.searchFrom (s.closureSearch allowed) origins s.start).Shows Event.closing?
      fun closings _ => closings.Nodup := by
  have hclose : ∀ a x, (s.closureSearch allowed a x).Withholds Event.closing? :=
    withholds_closureSearch allowed
  refine (shows_searchFrom hs hclose origins s.start).mono ?_
  intro closings _ hlearns
  have hnone : s.start.known = [] := rfl
  have hnodup := hlearns.nodup (hnone ▸ List.nodup_nil)
  rw [hnone, List.append_nil, List.nodup_reverse] at hnodup
  exact hnodup

end Search

namespace Evaluator
variable {e : Evaluator} {subject object : Endpoint} {path : CompiledPath}

theorem remember_searchFor : (e.searchFor subject path object).remember = true := by
  cases subject <;> cases object <;> rfl

/-- Every search that is conducted remembers what it finds behind closures. -/
theorem Conducts.remember {s : Search} {allowed : Nat} {origins : List Term} {k : Nat}
    (h : e.Conducts subject path object s allowed origins k) : s.remember = true := by
  induction h with
  | main _ _ => exact remember_searchFor
  | nested _ _ _ _ _ ih => exact ih

theorem nodup_closings_evaluation :
    (e.evaluation subject path object).Shows Event.closing? fun closings _ => closings.Nodup := by
  have horigins :=
    (composes_withholds Event.closing?_call e.graph e.context).originsFor subject path object
  rw [evaluation_eq]
  refine horigins.bind_shows (fun origins => ?_) fun _ => List.nodup_nil
  have hremember : (e.searchFor subject path object).remember = true := remember_searchFor
  refine Shows.bind (Search.nodup_closings_searchFrom hremember _ origins) ?_
    fun _ _ hnodup => hnodup
  intro closings p hnodup
  refine (withholds_closing Event.closing?_call Event.closing?_solution
    e subject path object p).mono ?_
  intro _ _ heq
  subst heq
  rw [List.append_nil]
  exact hnodup

/-- What is remembered about closures cannot be told from outside: over a graph in memory the
evaluation delivers the same solutions in the same order, and ends in the same way, as one that
searches behind closures anew each time, within closures too. What it is good for is that no search,
neither that for the pattern nor one behind a closure, completes a closure twice from the same
node. -/
theorem evaluateCompiled_forgetful (g : TripleStore) (context : CallContext)
    (options : EvaluationOptions)
    (subject : Endpoint) (path : CompiledPath) (object : Endpoint) :
    let e : Evaluator := ⟨g.toService, context, options⟩
    let run := e.evaluateCompiled subject path object
    let anew := (e.searchFor subject path object).forgetful.between subject object 0
    run.solutions = anew.solutions ∧ run.result = anew.result ∧ run.closings.Nodup ∧
      ∀ s allowed origins k, e.Conducts subject path object s allowed origins k →
        (s.searchFrom (s.closureSearch allowed) origins s.start k).closings.Nodup := by
  intro e run anew
  have hparallels := Search.parallels_between (s := e.searchFor subject path object)
    (by rw [graph_searchFor]; exact g.steady_toService) subject object
  rw [← evaluation_eq_between] at hparallels
  obtain ⟨hsolutions, hend⟩ := hparallels 0 0
  refine ⟨hsolutions, hend.eq, nodup_closings_evaluation 0, ?_⟩
  intro s allowed origins k hs
  exact Search.nodup_closings_searchFrom hs.remember allowed origins k

/-- A path `p/q*` from two origins that lead to one node: the closure is searched from there for the
first of them, and anew for the second one only where it is not remembered. -/
theorem evaluateCompiled_forgetful_two_origins :
    let ts : List Triple := [⟨.iri ⟨"a"⟩, ⟨"p"⟩, .iri ⟨"c"⟩⟩, ⟨.iri ⟨"b"⟩, ⟨"p"⟩, .iri ⟨"c"⟩⟩,
      ⟨.iri ⟨"c"⟩, ⟨"q"⟩, .iri ⟨"d"⟩⟩]
    let tree : PathTree :=
      .sequence [.property (.forward ⟨"p"⟩), .closure .zeroOrMore (.property (.forward ⟨"q"⟩))]
    let loop (i : Instruction) : Automaton :=
      ⟨[⟨0, true, true⟩, ⟨1, false, true⟩], [⟨0, 1, .property i⟩, ⟨1, 1, .property i⟩]⟩
    let line (l l' : Label) : Automaton :=
      ⟨[⟨0, true, false⟩, ⟨1, false, false⟩, ⟨2, false, true⟩], [⟨0, 1, l⟩, ⟨1, 2, l'⟩]⟩
    let closure (i : Instruction) : Label := .closure .zeroOrMore (loop i)
    let path : CompiledPath :=
      ⟨tree, line (.property (.forward ⟨"p"⟩)) (closure (.forward ⟨"q"⟩)),
        line (closure (.backward ⟨"q"⟩)) (.property (.backward ⟨"p"⟩))⟩
    let e : Evaluator := ⟨(TripleStore.ofTriples ts).toService, .default, {}⟩
    let search := e.searchFor (.var ⟨"x"⟩) path (.var ⟨"y"⟩)
    let run := e.evaluateCompiled (.var ⟨"x"⟩) path (.var ⟨"y"⟩)
    let anew := search.forgetful.between (.var ⟨"x"⟩) (.var ⟨"y"⟩) 0
    (run.solutions = anew.solutions ∧ run.result = anew.result) ∧
    (run.closings.Nodup ∧ run.closings = [(1, .iri ⟨"c"⟩)] ∧
      anew.closings = [(1, .iri ⟨"c"⟩), (1, .iri ⟨"c"⟩)]) ∧
    ∃ origins, e.Conducts (.var ⟨"x"⟩) path (.var ⟨"y"⟩) search 32 origins 0 ∧
      (search.searchFrom (search.closureSearch 32) origins search.start 0).closings.Nodup := by
  intro ts tree loop line closure path e search run anew
  obtain ⟨hsolutions, hresult, hnodup, hwithin⟩ := evaluateCompiled_forgetful
    (TripleStore.ofTriples ts) .default {} (.var ⟨"x"⟩) path (.var ⟨"y"⟩)
  have horigins : (e.originsFor (.var ⟨"x"⟩) path (.var ⟨"y"⟩) 0).result =
      .ok [.iri ⟨"a"⟩, .iri ⟨"b"⟩] := by decide +kernel
  have hconducts : e.Conducts (.var ⟨"x"⟩) path (.var ⟨"y"⟩) search 32 _ 0 := .main 0 horigins
  exact ⟨⟨hsolutions, hresult⟩, ⟨hnodup, by decide +kernel, by decide +kernel⟩, _, hconducts,
    hwithin search 32 _ 0 hconducts⟩

end Evaluator

end PropertyPath
