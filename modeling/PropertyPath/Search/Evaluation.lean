import PropertyPath.Search.Configuration

/-!
# Evaluations and their runs

An evaluation is run against a graph. Its run tells the calls that were made, the configurations
that were expanded, the closures that were completed and the solutions that were delivered, all in
order, and how it ended: with a value, with a fault, or because it was given up. The calls of a
graph are numbered, so an evaluation is told how many have been made before it.
-/
namespace PropertyPath

inductive Event where
  | call (call : GraphCall)
  | expand (configuration : Configuration)
  | closure (transition : Nat) (node : Term)
  | solution (solution : Solution)
  deriving DecidableEq, Repr

namespace Event

def isCall : Event → Bool
  | call _ => true
  | _ => false

def isSolution : Event → Bool
  | solution _ => true
  | _ => false

def solution? : Event → Option Solution
  | solution t => some t
  | _ => none

end Event

/-- Why a run ended without a value. It is given up when the graph answers with more nodes than it
has announced. -/
inductive Halt where
  | fault (fault : EvaluationFault)
  | givenUp
  deriving DecidableEq, Repr

structure Run (α : Type) where
  events : List Event
  result : Except Halt α

namespace Run

variable {α : Type}

def callCount (events : List Event) : Nat := events.countP Event.isCall

theorem callCount_append (es es' : List Event) :
    callCount (es ++ es') = callCount es + callCount es' := List.countP_append

def solutions (r : Run α) : List Solution := r.events.filterMap Event.solution?

/-- The events up to the one that delivers the `n`-th solution, and whether there is one. -/
def cutAfter : Nat → List Event → List Event × Bool
  | 0, _ => ([], true)
  | _ + 1, [] => ([], false)
  | n + 1, e :: es =>
      let (es', complete) := cutAfter (if e.isSolution then n else n + 1) es
      (e :: es', complete)

/-- The run as far as it goes until `n` solutions are delivered; nothing happens after that. -/
def take (n : Nat) (r : Run Unit) : Run Unit :=
  match cutAfter n r.events with
  | (events, true) => ⟨events, .ok ()⟩
  | (_, false) => r

/-- Whether there is a first solution; nothing happens after it. -/
def any (r : Run Unit) : Run Bool :=
  match cutAfter 1 r.events with
  | (events, true) => ⟨events, .ok true⟩
  | (_, false) => ⟨r.events, r.result.map fun _ => false⟩

end Run

/-- Given the number of calls made before, the run from there on. -/
def Evaluation (α : Type) : Type := Nat → Run α

namespace Evaluation

variable {α β γ : Type}

def pure (a : α) : Evaluation α := fun _ => ⟨[], .ok a⟩

def bind (m : Evaluation α) (f : α → Evaluation β) : Evaluation β := fun k =>
  match m k with
  | ⟨events, .error halt⟩ => ⟨events, .error halt⟩
  | ⟨events, .ok a⟩ =>
      let r := f a (k + Run.callCount events)
      ⟨events ++ r.events, r.result⟩

instance : Monad Evaluation where
  pure := pure
  bind := bind

def halt (h : Halt) : Evaluation α := fun _ => ⟨[], .error h⟩

def fail (fault : EvaluationFault) : Evaluation α := halt (.fault fault)

def ofExcept : Except EvaluationFault α → Evaluation α
  | .ok a => pure a
  | .error fault => fail fault

def log (events : List Event) : Evaluation Unit := fun _ => ⟨events, .ok ()⟩

def deliver (batch : List Solution) : Evaluation Unit := log (batch.map Event.solution)

/-- Calls the graph. -/
def ask (g : GraphService) (context : CallContext) (call : GraphCall) :
    Evaluation (List Bindings) := fun k =>
  ⟨[.call call],
    match g.answer k call context with
    | .ok bindings => .ok bindings
    | .error fault => .error (.fault (.storage fault))⟩

/-- Runs an evaluation on its own: its calls are made, its solutions become a value. -/
def collect (m : Evaluation α) : Evaluation (List Solution) := fun k =>
  let r := m k
  ⟨r.events.filter Event.isCall, r.result.map fun _ => r.solutions⟩

@[simp] theorem pure_run (a : α) (k : Nat) : (Pure.pure a : Evaluation α) k = ⟨[], .ok a⟩ := rfl

theorem bind_run_of_ok {m : Evaluation α} {f : α → Evaluation β} {k : Nat} {events : List Event}
    {a : α} (h : m k = ⟨events, .ok a⟩) :
    (m >>= f) k =
      ⟨events ++ (f a (k + Run.callCount events)).events,
        (f a (k + Run.callCount events)).result⟩ := by
  change bind m f k = _
  rw [bind, h]

theorem bind_run_of_error {m : Evaluation α} {f : α → Evaluation β} {k : Nat}
    {events : List Event} {e : Halt} (h : m k = ⟨events, .error e⟩) :
    (m >>= f) k = ⟨events, .error e⟩ := by
  change bind m f k = _
  rw [bind, h]

theorem pure_bind (a : α) (f : α → Evaluation β) : (Pure.pure a >>= f) = f a := by
  funext k
  rw [bind_run_of_ok (pure_run a k)]
  simp [Run.callCount]

theorem bind_pure (m : Evaluation α) : (m >>= Pure.pure) = m := by
  funext k
  cases h : m k with
  | mk events result =>
      cases result with
      | error e => rw [bind_run_of_error h]
      | ok a =>
          rw [bind_run_of_ok h]
          simp

theorem bind_assoc (m : Evaluation α) (f : α → Evaluation β) (g : β → Evaluation γ) :
    (m >>= f >>= g) = m >>= fun a => f a >>= g := by
  funext k
  cases h : m k with
  | mk events result =>
      cases result with
      | error e => rw [bind_run_of_error h, bind_run_of_error (bind_run_of_error h)]
      | ok a =>
          rw [bind_run_of_ok h]
          cases h' : f a (k + Run.callCount events) with
          | mk more result =>
              have hmf := bind_run_of_ok (f := f) h
              rw [h'] at hmf
              cases result with
              | error e => rw [bind_run_of_error hmf, bind_run_of_error h']
              | ok b =>
                  rw [bind_run_of_ok hmf, bind_run_of_ok h', Run.callCount_append]
                  simp only [List.append_assoc, Nat.add_assoc]

instance : LawfulMonad Evaluation := LawfulMonad.mk' Evaluation bind_pure pure_bind bind_assoc

end Evaluation

end PropertyPath
