import PropertyPath.Graph.Join

/-!
# Graphs as a search sees them

A search asks a graph for the solutions of conjunctive queries and of basic graph patterns. What a
graph answers may depend on how many calls came before, so the same question may be answered in
different ways, and any call may fail. The context of an evaluation goes along with every call and
is read by the graph alone.
-/
namespace PropertyPath

structure CallContext where
  label : Option String
  deriving DecidableEq, Repr

def CallContext.default : CallContext := ⟨none⟩

structure StorageFault where
  message : String
  deriving DecidableEq, Repr

inductive GraphCall where
  | query (query : ConjunctiveQuery)
  | bgp (patterns : List TriplePattern)
  deriving DecidableEq, Repr

namespace GraphCall

def patterns : GraphCall → List TriplePattern
  | query q => q.patterns
  | bgp ps => ps

def text : GraphCall → String
  | query q => q.text
  | bgp ps => " . ".intercalate (ps.map TriplePattern.text)

end GraphCall

abbrev Answer := Except StorageFault (List Bindings)

/-- `answer k` is what the graph answers as its `k`-th call, counted from zero. `nodeBound` is the
number of nodes that the graph speaks about; a search asks no longer than so many nodes need. -/
structure GraphService where
  answer : Nat → GraphCall → CallContext → Answer
  nodeBound : Nat

namespace GraphService

/-- The same graph, but for its answer to call number `k`. -/
def disturb (g : GraphService) (k : Nat) (a : Answer) : GraphService :=
  { g with answer := fun n call context => if n = k then a else g.answer n call context }

@[simp] theorem answer_disturb_self (g : GraphService) (k : Nat) (a : Answer) (call : GraphCall)
    (context : CallContext) : (g.disturb k a).answer k call context = a := by
  simp [disturb]

theorem answer_disturb_of_ne (g : GraphService) {k n : Nat} (h : n ≠ k) (a : Answer)
    (call : GraphCall) (context : CallContext) :
    (g.disturb k a).answer n call context = g.answer n call context := by
  simp [disturb, h]

end GraphService

namespace TripleStore

def answer (g : TripleStore) : GraphCall → List Bindings
  | .query q => g.solutions q
  | .bgp ps => g.solutions ⟨ps, []⟩

/-- A graph in memory answers every call, always in the same way, and ignores the context. -/
def toService (g : TripleStore) : GraphService where
  answer := fun _ call _ => .ok (g.answer call)
  nodeBound := g.nodes.length

end TripleStore

end PropertyPath
