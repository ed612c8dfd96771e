import PropertyPath.Search.Evaluation

/-!
# How evaluations end

`Shows` says of an evaluation what holds of the events of one kind and of its end, whatever calls
have been made before it. `Finishes` says so of the solutions that it delivers, `Yields` that it
ends with a value as well, and `Ends` what the value is if there is one. What is put together of
such evaluations is one again, so no evaluation has to be run to see how it ends.
-/
namespace PropertyPath.Evaluation
variable {α β : Type}

section shows
variable {τ : Type} {pick : Event → Option τ} {m : Evaluation α} {f : α → Evaluation β}

/-- What holds of the events of one kind and of the end, whatever calls have been made before. -/
def Shows (pick : Event → Option τ) (m : Evaluation α) (Q : List τ → Except Halt α → Prop) : Prop :=
  ∀ k, Q ((m k).events.filterMap pick) (m k).result

/-- There are no events of the kind. -/
def Withholds (pick : Event → Option τ) (m : Evaluation α) : Prop :=
  m.Shows pick fun told _ => told = []

theorem Shows.mono {Q Q' : List τ → Except Halt α → Prop} (h : m.Shows pick Q)
    (himp : ∀ told r, Q told r → Q' told r) : m.Shows pick Q' := fun k => himp _ _ (h k)

/-- What comes first either stops the evaluation or goes on with its value. -/
theorem Shows.bind {P : List τ → Except Halt α → Prop} {Q : List τ → Except Halt β → Prop}
    (h : m.Shows pick P)
    (hok : ∀ told a, P told (.ok a) → (f a).Shows pick fun more r => Q (told ++ more) r)
    (hstop : ∀ told stop, P told (.error stop) → Q told (.error stop)) :
    (m >>= f).Shows pick Q := by
  intro k
  have hk := h k
  cases hrun : m k with
  | mk events result =>
      rw [hrun] at hk
      cases result with
      | error stop =>
          rw [bind_run_of_error hrun]
          exact hstop _ stop hk
      | ok a =>
          have hrest := hok _ a hk (k + Run.callCount events)
          rw [bind_run_of_ok hrun, List.filterMap_append]
          exact hrest

theorem shows_pure {Q : List τ → Except Halt α → Prop} {a : α} (h : Q [] (.ok a)) :
    (Pure.pure a : Evaluation α).Shows pick Q := fun _ => h

/-- What begins without such an event has the events that come afterwards. -/
theorem Withholds.bind_shows {Q : List τ → Except Halt β → Prop} (h : m.Withholds pick)
    (hf : ∀ a, (f a).Shows pick Q) (hstop : ∀ stop, Q [] (.error stop)) :
    (m >>= f).Shows pick Q := by
  refine Shows.bind h ?_ ?_
  · intro _ a heq
    subst heq
    exact hf a
  · intro _ stop heq
    subst heq
    exact hstop stop

theorem Withholds.bind (h : m.Withholds pick) (hf : ∀ a, (f a).Withholds pick) :
    (m >>= f).Withholds pick := h.bind_shows hf fun _ => rfl

theorem withholds_pure (a : α) : (Pure.pure a : Evaluation α).Withholds pick := fun _ => rfl

theorem withholds_fail (fault : EvaluationFault) : (fail fault : Evaluation α).Withholds pick :=
  fun _ => rfl

theorem withholds_ofExcept (r : Except EvaluationFault α) : (ofExcept r).Withholds pick := by
  cases r with
  | ok a => exact withholds_pure a
  | error fault => exact withholds_fail fault

theorem withholds_log {events : List Event} (h : ∀ e ∈ events, pick e = none) :
    (log events).Withholds pick := fun _ => List.filterMap_eq_nil_iff.mpr h

theorem withholds_deliver (hsolution : ∀ t, pick (.solution t) = none) (batch : List Solution) :
    (deliver batch).Withholds pick := by
  apply withholds_log
  intro e he
  obtain ⟨t, _, rfl⟩ := List.mem_map.mp he
  exact hsolution t

section calls
variable (hcall : ∀ call, pick (.call call) = none)
include hcall

theorem withholds_ask (g : GraphService) (context : CallContext) (call : GraphCall) :
    (ask g context call).Withholds pick := by
  intro k
  change [Event.call call].filterMap pick = []
  rw [List.filterMap_cons_none (hcall call), List.filterMap_nil]

/-- Of an evaluation on its own the calls alone are told. -/
theorem withholds_collect (m : Evaluation α) : (collect m).Withholds pick := by
  intro k
  change ((m k).events.filter Event.isCall).filterMap pick = []
  rw [List.filterMap_eq_nil_iff]
  intro e he
  cases e with
  | call call => exact hcall call
  | _ => simp [Event.isCall] at he

end calls

end shows

def Finishes (m : Evaluation α) (Q : List Solution → Except Halt α → Prop) : Prop :=
  ∀ k, Q (m k).solutions (m k).result

/-- The evaluation delivers no solution, however it ends. -/
def Silent (m : Evaluation α) : Prop := m.Finishes fun solutions _ => solutions = []

/-- The evaluation ends with a value. -/
def Yields (m : Evaluation α) (Q : List Solution → α → Prop) : Prop :=
  m.Finishes fun solutions r => ∃ a, r = .ok a ∧ Q solutions a

/-- The evaluation ends with a value of the given kind and delivers no solution. -/
def Returns (m : Evaluation α) (P : α → Prop) : Prop :=
  m.Yields fun solutions a => solutions = [] ∧ P a

variable {m : Evaluation α} {f : α → Evaluation β}

theorem result_bind_of_error {k : Nat} {stop : Halt} (h : (m k).result = .error stop) :
    ((m >>= f) k).result = .error stop := by
  cases hrun : m k with
  | mk events result =>
      rw [hrun] at h
      cases h
      rw [bind_run_of_error hrun]

theorem Finishes.mono {Q Q' : List Solution → Except Halt α → Prop} (h : m.Finishes Q)
    (himp : ∀ solutions r, Q solutions r → Q' solutions r) : m.Finishes Q' :=
  fun k => himp _ _ (h k)

/-- What comes first either stops the evaluation or goes on with its value. -/
theorem Finishes.bind {P : List Solution → Except Halt α → Prop}
    {Q : List Solution → Except Halt β → Prop} (h : m.Finishes P)
    (hok : ∀ solutions a, P solutions (.ok a) →
      (f a).Finishes fun more r => Q (solutions ++ more) r)
    (hstop : ∀ solutions stop, P solutions (.error stop) → Q solutions (.error stop)) :
    (m >>= f).Finishes Q := by
  have hshows : m.Shows Event.solution? P := h
  exact hshows.bind hok hstop

theorem finishes_pure {Q : List Solution → Except Halt α → Prop} {a : α} (h : Q [] (.ok a)) :
    (Pure.pure a : Evaluation α).Finishes Q := fun _ => h

theorem silent_pure (a : α) : (Pure.pure a : Evaluation α).Silent := fun _ => rfl

theorem silent_fail (fault : EvaluationFault) : (fail fault : Evaluation α).Silent := fun _ => rfl

theorem silent_ask (g : GraphService) (context : CallContext) (call : GraphCall) :
    (ask g context call).Silent := fun _ => rfl

/-- An evaluation that begins in silence delivers what it delivers afterwards. -/
theorem Silent.bind_finishes {Q : List Solution → Except Halt β → Prop} (h : m.Silent)
    (hf : ∀ a, (f a).Finishes Q) (hstop : ∀ stop, Q [] (.error stop)) : (m >>= f).Finishes Q := by
  have hwithholds : m.Withholds Event.solution? := h
  exact hwithholds.bind_shows hf hstop

theorem Silent.bind (h : m.Silent) (hf : ∀ a, (f a).Silent) : (m >>= f).Silent :=
  h.bind_finishes hf fun _ => rfl

theorem finishes_ofExcept_bind {r : Except EvaluationFault α}
    {Q : List Solution → Except Halt β → Prop}
    (hok : ∀ a, r = .ok a → (f a).Finishes Q) (hstop : ∀ stop, Q [] (.error stop)) :
    (ofExcept r >>= f).Finishes Q := by
  cases r with
  | ok a =>
      have hpure : (ofExcept (.ok a) >>= f) = f a := pure_bind a f
      rw [hpure]
      exact hok a rfl
  | error fault => exact fun _ => hstop (.fault fault)

theorem Yields.mono {Q Q' : List Solution → α → Prop} (h : m.Yields Q)
    (himp : ∀ solutions a, Q solutions a → Q' solutions a) : m.Yields Q' := by
  refine Finishes.mono h ?_
  intro solutions r hgiven
  rcases hgiven with ⟨a, hr, hQ⟩
  exact ⟨a, hr, himp solutions a hQ⟩

theorem Yields.bind {P : List Solution → α → Prop} {Q : List Solution → β → Prop} (h : m.Yields P)
    (hf : ∀ solutions a, P solutions a → (f a).Yields fun more b => Q (solutions ++ more) b) :
    (m >>= f).Yields Q := by
  refine Finishes.bind h ?_ ?_
  · intro solutions a hgiven
    rcases hgiven with ⟨_, ha, hP⟩
    cases ha
    exact hf solutions a hP
  · intro solutions stop hboth
    rcases hboth with ⟨a, hstop, _⟩
    cases hstop

theorem Returns.bind_finishes {P : α → Prop} {Q : List Solution → Except Halt β → Prop}
    (h : m.Returns P) (hf : ∀ a, P a → (f a).Finishes Q) : (m >>= f).Finishes Q := by
  refine Finishes.bind (P := fun solutions r => ∃ a, r = .ok a ∧ solutions = [] ∧ P a) h ?_ ?_
  · intro _ a hvalue
    obtain ⟨_, heq, rfl, ha⟩ := hvalue
    cases heq
    exact hf a ha
  · intro _ stop hvalue
    obtain ⟨_, heq, _⟩ := hvalue
    cases heq

theorem Returns.bind {P : α → Prop} {Q : List Solution → β → Prop} (h : m.Returns P)
    (hf : ∀ a, P a → (f a).Yields Q) : (m >>= f).Yields Q := by
  refine Yields.bind h ?_
  intro _ a hgiven
  rcases hgiven with ⟨rfl, hP⟩
  exact hf a hP

theorem yields_pure {Q : List Solution → α → Prop} {a : α} (h : Q [] a) :
    (Pure.pure a : Evaluation α).Yields Q := finishes_pure ⟨a, rfl, h⟩

theorem returns_pure {P : α → Prop} {a : α} (h : P a) : (Pure.pure a : Evaluation α).Returns P :=
  yields_pure ⟨rfl, h⟩

theorem returns_ofExcept {P : α → Prop} {a : α} {r : Except EvaluationFault α} (hr : r = .ok a)
    (h : P a) : (ofExcept r).Returns P := by
  rw [hr]
  exact returns_pure h

theorem yields_deliver (batch : List Solution) :
    (deliver batch).Yields fun solutions _ => solutions = batch := by
  intro k
  refine ⟨(), rfl, ?_⟩
  change (batch.map Event.solution).filterMap Event.solution? = batch
  induction batch with
  | nil => rfl
  | cons t batch ih => simpa [Event.solution?] using ih

theorem returns_log {events : List Event} (h : ∀ e ∈ events, e.isSolution = false) :
    (log events).Returns fun _ => True := by
  intro k
  refine ⟨(), rfl, ?_, trivial⟩
  change events.filterMap Event.solution? = []
  rw [List.filterMap_eq_nil_iff]
  intro e he
  cases e with
  | solution t => exact absurd (h _ he) (by simp [Event.isSolution])
  | _ => rfl

/-- What is collected is not delivered. -/
theorem silent_collect (m : Evaluation α) : (collect m).Silent := withholds_collect (fun _ => rfl) m

/-- What is collected are the solutions that would have been delivered. -/
theorem returns_collect {Q : List Solution → α → Prop} (h : m.Yields Q) :
    (collect m).Returns fun solutions => ∃ a, Q solutions a := by
  intro k
  obtain ⟨a, hresult, hQ⟩ := h k
  refine ⟨(m k).solutions, ?_, silent_collect m k, a, hQ⟩
  rw [collect, hresult]
  rfl

theorem returns_ask {P : List Bindings → Prop} {g : GraphService} {context : CallContext}
    {call : GraphCall} (h : ∀ k, ∃ bs, g.answer k call context = .ok bs ∧ P bs) :
    (ask g context call).Returns P := by
  intro k
  obtain ⟨bs, hanswer, hP⟩ := h k
  refine ⟨bs, ?_, rfl, hP⟩
  rw [ask, hanswer]

section ends
variable {E : Halt → Prop} {P Q : α → Prop}

/-- The evaluation ends with a value of the given kind or for a reason of the given kind. -/
def Ends (m : Evaluation α) (E : Halt → Prop) (P : α → Prop) : Prop :=
  m.Finishes fun _ r => match r with
    | .ok a => P a
    | .error stop => E stop

theorem Ends.mono (h : m.Ends E P) (himp : ∀ a, P a → Q a) : m.Ends E Q := by
  refine Finishes.mono h ?_
  intro _ r hr
  cases r with
  | ok a => exact himp a hr
  | error stop => exact hr

theorem Ends.of_ok (h : m.Ends E P) {k : Nat} {a : α} (hok : (m k).result = .ok a) : P a := by
  have hk := h k
  rw [hok] at hk
  exact hk

theorem Ends.of_error (h : m.Ends E P) {k : Nat} {stop : Halt}
    (herror : (m k).result = .error stop) :
    E stop := by
  have hk := h k
  rw [herror] at hk
  exact hk

theorem Ends.bind {Q : β → Prop} (h : m.Ends E P) (hf : ∀ a, P a → (f a).Ends E Q) :
    (m >>= f).Ends E Q := by
  refine Finishes.bind h ?_ fun _ _ hstop => hstop
  intro _ a ha
  exact Finishes.mono (hf a ha) fun _ _ hr => hr

/-- What delivers nothing hands on its value. -/
theorem Silent.bind_ends {R : List Solution → Except Halt β → Prop}
    (h : m.Silent) (hends : m.Ends E P)
    (hf : ∀ a, P a → (f a).Finishes R) (hstop : ∀ stop, R [] (.error stop)) :
    (m >>= f).Finishes R := by
  refine Finishes.bind (P := fun solutions r => solutions = [] ∧ ∀ a, r = .ok a → P a) ?_ ?_ ?_
  · exact fun k => ⟨h k, fun _ hok => hends.of_ok hok⟩
  · rintro _ a ⟨rfl, ha⟩
    exact hf a (ha a rfl)
  · rintro _ stop ⟨rfl, _⟩
    exact hstop stop

theorem ends_pure {a : α} (h : P a) : (Pure.pure a : Evaluation α).Ends E P := finishes_pure h

theorem ends_fail {fault : EvaluationFault} (h : E (.fault fault)) :
    (fail fault : Evaluation α).Ends E P := fun _ => h

theorem ends_log (events : List Event) : (log events).Ends E fun _ => True := fun _ => trivial

theorem ends_ofExcept {r : Except EvaluationFault α} (hok : ∀ a, r = .ok a → P a)
    (hfault : ∀ fault, E (.fault fault)) : (ofExcept r).Ends E P := by
  cases r with
  | ok a => exact ends_pure (hok a rfl)
  | error fault => exact ends_fail (hfault fault)

theorem ends_ask (hfault : ∀ fault, E (.fault fault)) (g : GraphService) (context : CallContext)
    (call : GraphCall) : (ask g context call).Ends E fun _ => True := by
  intro k
  rw [ask]
  cases g.answer k call context with
  | ok bs => trivial
  | error fault => exact hfault _

theorem Returns.ends (h : m.Returns P) : m.Ends E P := by
  intro k
  obtain ⟨a, hresult, _, ha⟩ := h k
  rw [hresult]
  exact ha

end ends

end PropertyPath.Evaluation
