import PropertyPath.Search.Fault

/-!
# Configurations and visits

A configuration of a search says at which term the search began, at which node it is, which state of
the automaton it has reached and over how many transitions. `Visits` remembers the configurations
that have been reached, whatever their depth, and the pairs that have been delivered. A
configuration is remembered before the limit is looked at, so one that goes over the limit is known
from then on.
-/
namespace PropertyPath

structure Configuration where
  subject : Term
  node : Term
  state : StateName
  depth : Nat
  deriving DecidableEq, Repr

namespace Configuration

/-- Where the search for `t` begins. -/
def origin (t : Term) : Configuration := ⟨t, t, Automaton.start, 0⟩

/-- One transition further. -/
def successor (c : Configuration) (node : Term) (state : StateName) : Configuration :=
  ⟨c.subject, node, state, c.depth + 1⟩

/-- What is visited at most once: everything but the depth. -/
def key (c : Configuration) : Term × Term × StateName := (c.subject, c.node, c.state)

def text (c : Configuration) : String :=
  c.subject.text ++ " -> " ++ c.node.text ++ " @ " ++ toString c.state ++
    " (depth " ++ toString c.depth ++ ")"

@[simp] theorem subject_successor (c : Configuration) (node : Term) (state : StateName) :
    (c.successor node state).subject = c.subject := rfl

end Configuration

structure Visits where
  reached : List (Term × Term × StateName)
  delivered : List (Term × Term)
  limit : Option Nat
  deriving DecidableEq, Repr

namespace Visits

def withLimit (limit : Option Nat) : Visits := ⟨[], [], limit⟩

/-- The number of configurations over all origins. -/
def size (v : Visits) : Nat := v.reached.length

def isEmpty (v : Visits) : Bool := v.size == 0

/-- Adds a configuration that is not remembered yet. -/
def add (v : Visits) (c : Configuration) : Visits := { v with reached := c.key :: v.reached }

/-- Refuses more configurations than the limit allows. -/
def checkLimit (v : Visits) : Except EvaluationFault Unit :=
  match v.limit with
  | some limit => if limit < v.size then .error (.visitLimitExceeded limit) else .ok ()
  | none => .ok ()

/-- Remembers a configuration and tells whether it is new. -/
def visit (v : Visits) (c : Configuration) : Visits × Except EvaluationFault Bool :=
  if c.key ∈ v.reached then (v, .ok false)
  else (v.add c, (v.add c).checkLimit.map fun _ => true)

/-- Visits configurations one after the other and tells which of them are new. -/
def visitAll (v : Visits) :
    List Configuration → Except EvaluationFault (Visits × List Configuration)
  | [] => .ok (v, [])
  | c :: cs =>
      match v.visit c with
      | (_, .error fault) => .error fault
      | (w, .ok new) => do
          let (w', fresh) ← visitAll w cs
          return (w', if new then c :: fresh else fresh)

/-- Remembers a pair and tells whether it is new. -/
def deliver (v : Visits) (origin object : Term) : Visits × Bool :=
  if (origin, object) ∈ v.delivered then (v, false)
  else ({ v with delivered := (origin, object) :: v.delivered }, true)

/-- The pairs of nodes with themselves that are new. -/
def deliverReflexive (v : Visits) : List Term → Visits × List Solution
  | [] => (v, [])
  | t :: ts =>
      let (w, new) := v.deliver t t
      let (w', batch) := deliverReflexive w ts
      (w', if new then ⟨t, t⟩ :: batch else batch)

theorem visit_fst (v : Visits) (c : Configuration) :
    (v.visit c).1 = if c.key ∈ v.reached then v else v.add c := by
  unfold visit
  split <;> rfl

theorem mem_reached_visit (v : Visits) (c : Configuration) : c.key ∈ (v.visit c).1.reached := by
  rw [visit_fst]
  split
  · assumption
  · exact List.mem_cons_self

theorem nodup_reached_visit {v : Visits} (h : v.reached.Nodup) (c : Configuration) :
    (v.visit c).1.reached.Nodup := by
  rw [visit_fst]
  split
  · exact h
  · next hc => exact List.nodup_cons.mpr ⟨hc, h⟩

end Visits

end PropertyPath
