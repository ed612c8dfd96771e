import PropertyPath.Proofs.Search.Faults

/-!
# Configurations are reached by shortest runs

While a search goes up level by level, what can be reached by a run that is no longer than the head
of the queue lies deep has been reached already. So what an expansion reaches for the first time
takes one step more than its configuration and no fewer, and a limit on the depth keeps back exactly
what has no run within it: the nodes that are delivered are those that runs within the limit lead
to, in the automaton and within every closure, and a greater limit only adds to them.
-/
namespace PropertyPath
open Evaluation

namespace Search
variable {s : Search} {close : ClosureSearch} {st st' : Stage} {events : List Event}
  {E : Label → Term → Halt → Prop} {P : Label → Term → List Term → Prop}
  {hop : List (List Instruction) → Term → Term → Prop} {origins : List Term} {c : Configuration}

/-- No run to the configuration is shorter than it lies deep. -/
def Least (s : Search) (hop : List (List Instruction) → Term → Term → Prop)
    (c : Configuration) : Prop :=
  ∀ n, s.automaton.Reaches hop s.options.maxSearchDepth n
    (Automaton.start, c.subject) (c.state, c.node) →
    c.depth ≤ n

/-- The invariant of a search that reaches everything by shortest runs. -/
structure Direct (s : Search) (hop : List (List Instruction) → Term → Term → Prop)
    (P : Label → Term → List Term → Prop) (origins : List Term) (st : Stage) : Prop
    extends s.Levelled hop P origins st where
  goes : ∀ c ∈ st.queue, ∀ e ∈ st.expanded, e.subject = c.subject → s.stopsAt e = false
  least : ∀ c ∈ st.queued, s.Least hop c

theorem direct_first (origins : List Term) (k : Nat) : s.Direct hop P origins (s.first origins k) :=
  { levelled_first origins k with goes := nofun, least := nofun }

/-- A search that has stopped has stopped at something that was expanded. -/
theorem Sound.exists_stopsAt {Q : Configuration → Prop} (h : s.Sound P Q st) {x : Term}
    (hstopped : s.Stopped st x) : ∃ e ∈ st.expanded, e.subject = x ∧ s.stopsAt e = true := by
  obtain ⟨d, _, rfl, hstops, htold⟩ := hstopped
  obtain ⟨e, he, hhits, heq⟩ := h.delivered _ htold
  exact ⟨e, he, (Prod.mk.inj heq).1.symm, stopsAt_iff.mpr ⟨hhits, (stopsAt_iff.mp hstops).2⟩⟩

/-- As long as something waits, its origin has not stopped. -/
theorem Direct.not_stopped (h : s.Direct hop P origins st) (hc : c ∈ st.queue) :
    ¬ s.Stopped st c.subject := by
  intro hstopped
  obtain ⟨e, he, hsubject, hstops⟩ := h.exists_stopsAt hstopped
  rw [h.goes c hc e he hsubject] at hstops
  cases hstops

/-- What a run reaches that is no longer than the head of the queue lies deep has been put in the
queue. -/
theorem Direct.exists_queued (hP : s.Passes hop P)
    (h : s.Direct hop P origins st) (hc : c ∈ st.queue)
    (hhead : ∀ e ∈ st.queue, c.depth ≤ e.depth) {n : Nat} {q : StateName}
    {y : Term} (hn : n ≤ c.depth)
    (hreaches : s.automaton.Reaches hop s.options.maxSearchDepth n
      (Automaton.start, c.subject) (q, y)) :
    ∃ e ∈ st.queued, e.key = (c.subject, y, q) ∧ e.depth ≤ n := by
  have hqueued := h.queue_subset hc
  induction n generalizing q y with
  | zero =>
      obtain ⟨rfl, rfl⟩ := Prod.mk.inj (Automaton.reaches_zero.mp hreaches)
      exact ⟨_, h.rooted c hqueued, rfl, Nat.le_refl 0⟩
  | succ n ih =>
      obtain ⟨⟨q', y'⟩, hbefore, t, ht, hsource, rfl, hstep⟩ := Automaton.reaches_succ.mp hreaches
      obtain ⟨e, he, hkey, hdepth⟩ := ih (Nat.le_of_succ_le hn) hbefore
      obtain ⟨hsubject, rfl, rfl⟩ : e.subject = c.subject ∧ e.node = y' ∧ e.state = q' := by
        simpa [Configuration.key] using hkey
      have hdone : s.Done P st e := by
        rcases h.settled e he with hwaits | hstopped | hdone
        · have hle := hhead e hwaits
          omega
        · rw [hsubject] at hstopped
          exact absurd hstopped (h.not_stopped hc)
        · exact hdone
      have hshallow : s.isTooDeep e = false := by
        refine isTooDeep_eq_false.mpr fun d hd => ?_
        have hle := h.shallow c hqueued d hd
        omega
      obtain ⟨i, hi⟩ := exists_leaving ht hsource
      obtain ⟨nodes, hnodes, hput⟩ := hdone.followed hshallow (t, i) hi
      obtain ⟨d, hd, hkey', hle⟩ := hput y ((hP _ _ _ hnodes y).mpr hstep)
      refine ⟨d, hd, ?_, by omega⟩
      rw [hkey', ← hsubject]
      rfl

theorem Direct.begin (h : s.Direct hop P origins st) {x : Term} {left : List Term} {visits : Visits}
    {fresh : List Configuration} (hqueue : st.queue = []) (horigins : st.origins = x :: left)
    (hvisited : st.progress.visits.visitAll [.origin x] = .ok (visits, fresh)) :
    s.Direct hop P origins (st.begin left visits fresh) := by
  have hfresh : ∀ d ∈ fresh, d = .origin x := fun d hd =>
    List.mem_singleton.mp ((Visits.grows_of_visitAll hvisited).2 hd)
  refine { h.toLevelled.begin hqueue horigins hvisited with goes := ?_, least := ?_ }
  · intro d hd e he hsubject
    rcases Visits.visitAll_single_eq_ok hvisited with ⟨_, rfl⟩ | ⟨hnew, _⟩
    · cases hd
    · rw [hfresh d hd] at hsubject
      obtain rfl : e.subject = x := hsubject
      have hqueued : e ∈ st.queued := h.order.subset (List.mem_append_left _ he)
      exact absurd (h.mem_reached.mpr ⟨_, h.rooted e hqueued, rfl⟩) hnew
  · intro d hd
    rcases List.mem_append.mp hd with hd | hd
    · exact h.least d hd
    · rw [hfresh d hd]
      exact fun n _ => Nat.zero_le n

theorem Direct.next (hP : s.Passes hop P) (h : s.Direct hop P origins st)
    {queue : List Configuration}
    {fresh? : Option (List Configuration)} {p : Progress} (hqueue : st.queue = c :: queue)
    (hsweeps : s.Sweeps P c st.progress fresh? p) :
    s.Direct hop P origins (st.next c queue events (fresh?, p)) := by
  have hlevelled : s.Levelled hop P origins (st.next c queue events (fresh?, p)) :=
    h.toLevelled.next hP hqueue hsweeps
  have hc : c ∈ st.queue := hqueue ▸ List.mem_cons_self
  refine { hlevelled with goes := ?_, least := ?_ }
  · intro d hd e he hsubject
    have hd' := (h.toLevelled.mem_queue_next hqueue hsweeps hd).1
    rcases List.mem_append.mp he with he | he
    · exact h.goes c hc e he (hsubject.trans hd')
    · rw [List.mem_singleton.mp he]
      cases fresh? with
      | none => cases hd
      | some fresh => exact hsweeps.goes (Option.some_ne_none fresh)
  · intro d hd
    rcases List.mem_append.mp hd with hd | hd
    · exact h.least d hd
    · intro n hreaches
      obtain ⟨hsubject, hdepth⟩ := hsweeps.mem_fresh hd
      rw [hdepth]
      by_contra hlt
      -- a shorter run would have put the configuration in the queue before
      rw [hsubject] at hreaches
      obtain ⟨e, he, hkey, _⟩ :=
        h.exists_queued hP hc (h.toLevelled.head_le hqueue) (by omega) hreaches
      have hnodup := hlevelled.nodup
      change ((st.queued ++ fresh?.getD []).map Configuration.key).Nodup at hnodup
      rw [List.map_append] at hnodup
      have hsame : d.key = e.key := by
        rw [hkey, ← hsubject]
        rfl
      exact (List.nodup_append.mp hnodup).2.2 e.key (List.mem_map_of_mem he) d.key
        (List.mem_map_of_mem hd) hsame.symm

theorem Direct.poll (hs : s.Provides close E P) (hP : s.Passes hop P)
    (h : s.Direct hop P origins st)
    (hpoll : s.poll close st = some ⟨events, .ok st'⟩) : s.Direct hop P origins st' := by
  rcases poll_eq_ok hpoll with ⟨c, queue, r, hqueue, hrun, rfl⟩ |
    ⟨x, left, visits, fresh, hqueue, horigins, _, hvisited, rfl⟩
  · obtain ⟨fresh?, p⟩ := r
    exact h.next hP hqueue ((hs.expand c h.recalls).of_ok (congrArg Run.result hrun))
  · exact h.begin hqueue horigins hvisited

theorem Direct.polls (hs : s.Provides close E P) (hP : s.Passes hop P)
    (h : s.Direct hop P origins st)
    (hpolls : s.Polls close st events st') : s.Direct hop P origins st' := by
  induction hpolls with
  | refl => exact h
  | step hpoll _ ih => exact ih (h.poll hs hP hpoll)

/-- What it means that the search of some origins, before which `k` calls have been made, reaches
everything by shortest runs. -/
structure Shortest (s : Search)
    (hop : List (List Instruction) → Term → Term → Prop) (close : ClosureSearch)
    (origins : List Term) (k : Nat) : Prop where
  /-- At any time, what has been reached lies as deep as its shortest run is long. -/
  least : ∀ events st, s.Polls close (s.first origins k) events st → ∀ c ∈ st.queued,
    s.automaton.Reaches hop s.options.maxSearchDepth c.depth
      (Automaton.start, c.subject) (c.state, c.node) ∧
      s.Least hop c
  /-- In the end all that runs within the limit lead to has been reached, from every origin at which
  the search did not stop because it had found the only node it looked for. -/
  complete : ∀ events st, s.Polls close (s.first origins k) events st → s.poll close st = none →
    ∀ x ∈ origins, (∀ c ∈ st.expanded, c.subject = x → s.stopsAt c = false) →
      ∀ n q y, (∀ d, s.options.maxSearchDepth = some d → n ≤ d) →
        s.automaton.Reaches hop s.options.maxSearchDepth n (Automaton.start, x) (q, y) →
          ∃ c ∈ st.queued, c.key = (x, y, q)

theorem shortest_of_provides (hs : s.Provides close E P) (hP : s.Passes hop P) (origins : List Term)
    (k : Nat) : s.Shortest hop close origins k where
  least events st hpolls c hc := by
    have hdirect := (direct_first origins k).polls hs hP hpolls
    exact ⟨(hdirect.kind c hc).reaches, hdirect.least c hc⟩
  complete events st hpolls hdone x hx hgoes n q y hn hreaches := by
    have hdirect := (direct_first origins k).polls hs hP hpolls
    obtain ⟨hqueue, horigins⟩ := poll_eq_none hdone
    have hfinished : s.Finished hop P origins st := ⟨hdirect.toLevelled, horigins, hqueue⟩
    have hgoes' : ¬ s.Stopped st x := by
      intro hstopped
      obtain ⟨e, he, hsubject, hstops⟩ := hdirect.exists_stopsAt hstopped
      rw [hgoes e he hsubject] at hstops
      cases hstops
    obtain ⟨c, hc, hkey, _⟩ := hfinished.exists_queued hP hx hgoes' hn hreaches
    exact ⟨c, hc, hkey⟩

end Search

namespace Evaluator
variable {e : Evaluator} {subject object : Endpoint} {path : CompiledPath}
  {G : Set Triple} {x : Term}

/-- The end of a pattern at which its search begins, if it is given. -/
def boundEnd? : Endpoint → Endpoint → Option Term
  | .term s, _ => some s
  | .var _, .term o => some o
  | .var _, .var _ => none

theorem evaluation_of_boundEnd (hx : boundEnd? subject object = some x) :
    e.evaluation subject path object = (e.searchFor subject path object).runFrom x := by
  cases subject <;> cases object <;> cases hx <;> rfl

/-- All searches that are conducted reach everything by shortest runs, whatever the limits are. -/
theorem Conducts.shortest {nodes : List Term} (h : (e.searchFor subject path object).Ready G nodes)
    {s : Search} {allowed : Nat} {origins : List Term} {k : Nat}
    (hs : e.Conducts subject path object s allowed origins k) :
    s.Shortest (joined G) (s.closureSearch allowed) origins k := by
  have hready := hs.ready h
  have hprovides := (Search.excuses_stopsFor s G nodes).provides hready.serves
    ⟨hready.valid, hready.serves, hready.inside, hready.bound⟩ allowed
  exact Search.shortest_of_provides hprovides (Search.passes_passed s G) origins k

section store
variable (g : TripleStore) (context : CallContext) {options : EvaluationOptions} {t : PathTree}
  {optimize : Bool} (hvisited : options.maxVisited = none)
  (hpath : CompiledPath.ofTree t optimize = .ok path) (hx : boundEnd? subject object = some x)
include hvisited hpath hx

/-- From a given end, a run that does not nest closures too deep delivers the nodes that are looked
for and joined to it within the limit on the depth. -/
theorem solutions_of_boundEnd
    (hnesting : ∀ limit, (evaluateCompiled ⟨g.toService, context, options⟩
      subject path object).result ≠ .error (.fault (.nestingTooDeep limit))) :
    let e : Evaluator := ⟨g.toService, context, options⟩
    let s := e.searchFor subject path object
    let run := e.evaluateCompiled subject path object
    run.result = .ok () ∧ ∀ u, u ∈ run.solutions ↔ ∃ y,
      s.automaton.within (joined {t | t ∈ g.triples}) options.maxSearchDepth x y ∧
      s.target.Allows x y ∧
        s.told (x, y) = u := by
  intro e s run
  have hserves : s.graph.Serves {t | t ∈ g.triples} := by
    rw [graph_searchFor]
    exact g.serves
  have hoptions : s.options = options := options_searchFor e subject path object
  have hselects :
      s.Selects (fun u => ∃ y, s.Meets (joined {t | t ∈ g.triples}) x y ∧ s.told (x, y) = u)
      run.solutions run.result := by
    have hruns := Search.finishes_runFrom_depth hserves (hoptions ▸ hvisited) x 0
    rw [← evaluation_of_boundEnd hx] at hruns
    exact hruns
  have hgivenUp : run.result ≠ .error .givenUp := fun heq =>
    (ends_evaluation (ready_searchFor g context options hpath subject object)).of_error heq rfl
  cases hresult : run.result with
  | error stop =>
      rw [hresult] at hselects hgivenUp
      rcases hselects with rfl | ⟨_, rfl⟩
      · exact absurd rfl hgivenUp
      · exact absurd hresult (hnesting _)
  | ok _ =>
      rw [hresult] at hselects
      refine ⟨rfl, ?_⟩
      intro u
      rw [hselects]
      simp only [Search.Meets, hoptions, and_assoc]

/-- Over a graph in memory, with a limit on the depth and none on the visits, the search from a
given end of a pattern delivers exactly the nodes that are looked for and to which an accepting run
of no more transitions than the limit leads, where a closure is one transition and joins what runs
within the limit join. It reaches every node and state by a shortest run, and so do the searches
behind closures. What is delivered under a limit is delivered under a greater one. -/
theorem evaluateCompiled_maxSearchDepth {d : Nat} (hdepth : options.maxSearchDepth = some d)
    (hnesting : ∀ limit, (evaluateCompiled ⟨g.toService, context, options⟩
      subject path object).result ≠ .error (.fault (.nestingTooDeep limit))) :
    let e : Evaluator := ⟨g.toService, context, options⟩
    let s := e.searchFor subject path object
    let run := e.evaluateCompiled subject path object
    run.result = .ok () ∧
    (∀ u, u ∈ run.solutions ↔ ∃ y, s.automaton.within (joined {t | t ∈ g.triples}) (some d) x y ∧
      s.target.Allows x y ∧ s.told (x, y) = u) ∧
    (∀ s allowed origins k, e.Conducts subject path object s allowed origins k →
      s.Shortest (joined {t | t ∈ g.triples}) (s.closureSearch allowed) origins k) ∧
    ∀ d', d ≤ d' →
      let deeper :=
        evaluateCompiled ⟨g.toService, context, { options with maxSearchDepth := some d' }⟩
        subject path object
      (∀ limit, deeper.result ≠ .error (.fault (.nestingTooDeep limit))) →
        run.solutions ⊆ deeper.solutions := by
  intro e s run
  obtain ⟨hresult, hsolutions⟩ := solutions_of_boundEnd g context hvisited hpath hx hnesting
  rw [hdepth] at hsolutions
  refine ⟨hresult, hsolutions, ?_, ?_⟩
  · intro s allowed origins k hs
    exact hs.shortest (ready_searchFor g context options hpath subject object)
  · intro d' hle deeper hnesting' u hu
    let options' := { options with maxSearchDepth := some d' }
    have hvisited' : options'.maxVisited = none := hvisited
    obtain ⟨_, hdeeper⟩ := solutions_of_boundEnd g context hvisited' hpath hx hnesting'
    have hsame : searchFor ⟨g.toService, context, options'⟩ subject path object =
        { s with options := options' } := by
      cases subject <;> cases object <;> rfl
    have hlimit : NoTighter (some d) (some d') := fun n hn => ⟨d, rfl, Option.some.inj hn ▸ hle⟩
    obtain ⟨y, hwithin, hallows, htold⟩ := (hsolutions u).mp hu
    refine (hdeeper u).mpr ⟨y, ?_⟩
    rw [hsame]
    exact ⟨Automaton.within_mono hlimit hwithin, hallows, htold⟩

end store

/-- Closures within each other over a cycle with a way round, from the object. -/
theorem evaluateCompiled_maxSearchDepth_nested_closures :
    let p : PathTree := .property (.forward ⟨"p"⟩)
    let q : PathTree := .property (.forward ⟨"q"⟩)
    let t : PathTree := .sequence
      [p, .closure .zeroOrMore (.sequence [q, .closure .zeroOrMore (.alternative [p, .inverse q])])]
    let ts : List Triple := [⟨.iri ⟨"a"⟩, ⟨"p"⟩, .iri ⟨"b"⟩⟩, ⟨.iri ⟨"b"⟩, ⟨"q"⟩, .iri ⟨"a"⟩⟩,
      ⟨.iri ⟨"b"⟩, ⟨"p"⟩, .iri ⟨"c"⟩⟩, ⟨.iri ⟨"c"⟩, ⟨"q"⟩, .iri ⟨"a"⟩⟩]
    let options : EvaluationOptions := { maxSearchDepth := some 2, maxNestingDepth := 2 }
    let subject : Endpoint := .var ⟨"x"⟩
    let object : Endpoint := .term (.iri ⟨"a"⟩)
    let g := TripleStore.ofTriples ts
    let e : Evaluator := ⟨g.toService, .default, options⟩
    options.maxVisited = none ∧ boundEnd? subject object = some (.iri ⟨"a"⟩) ∧
      ∃ path, CompiledPath.ofTree t true = .ok path ∧
      let s := e.searchFor subject path object
      let run := e.evaluateCompiled subject path object
      (∀ limit, run.result ≠ .error (.fault (.nestingTooDeep limit))) ∧
      run.result = .ok () ∧
      (∀ u, u ∈ run.solutions ↔
        ∃ y, s.automaton.within (joined {t | t ∈ g.triples}) (some 2) (.iri ⟨"a"⟩) y ∧
        s.target.Allows (.iri ⟨"a"⟩) y ∧ s.told (.iri ⟨"a"⟩, y) = u) ∧
      (∀ s allowed origins k, e.Conducts subject path object s allowed origins k →
        s.Shortest (joined {t | t ∈ g.triples}) (s.closureSearch allowed) origins k) ∧
      ∀ d', 2 ≤ d' →
        let deeper :=
          evaluateCompiled ⟨g.toService, .default, { options with maxSearchDepth := some d' }⟩
          subject path object
        (∀ limit, deeper.result ≠ .error (.fault (.nestingTooDeep limit))) →
          run.solutions ⊆ deeper.solutions := by
  intro p q t ts options subject object g e
  obtain ⟨path, hpath⟩ : ∃ path, CompiledPath.ofTree t true = .ok path :=
    CompiledPath.exists_ofTree rfl rfl true
  have hvisited : options.maxVisited = none := rfl
  have hbound : boundEnd? subject object = some (.iri ⟨"a"⟩) := rfl
  have hnesting := result_ne_nestingTooDeep g .default hvisited hpath (Nat.le_refl 2) subject object
  exact ⟨hvisited, hbound, path, hpath, hnesting,
    evaluateCompiled_maxSearchDepth g .default hvisited hpath hbound rfl hnesting⟩

end Evaluator

end PropertyPath
