import PropertyPath.Automaton.Valid

/-!
# Merging of bisimilar states

Two states are alike when they agree on being initial and on being final and every transition of the
one is answered by a transition of the other with the same label into a state alike. A partition
maps each state to the first state of its block. Starting from the two flags it is refined, by
comparing one step ahead, until the number of blocks no longer changes; then each block is merged
into its first state, which has the smallest name.
-/
namespace PropertyPath

/-- Each state with the first state of its block, listed in the order of the states. -/
abbrev Partition := List (StateName × StateName)

namespace Partition

def first (p : Partition) (s : StateName) : StateName := (p.lookup s).getD s

/-- The number of blocks. -/
def count (p : Partition) : Nat := (p.map (·.2)).eraseDups.length

/-- The partition in which a state joins the first state that it is related to. -/
def ofRelation (states : List State) (related : State → State → Bool) : Partition :=
  states.map fun s => (s.name, ((states.find? (related s)).getD s).name)

end Partition

namespace State

def sameFlags (s t : State) : Bool := s.isInitial == t.isInitial && s.isFinal == t.isFinal

end State

namespace Automaton

/-- Whether every transition of `s` has an equally labelled one of `t` into the same block. -/
def answered (a : Automaton) (p : Partition) (s t : StateName) : Bool :=
  (a.outgoing s).all fun x =>
    (a.outgoing t).any fun y => x.label = y.label ∧ p.first x.target = p.first y.target

/-- Whether two states are in one block and cannot be told apart by one step. -/
def alike (a : Automaton) (p : Partition) (s t : State) : Bool :=
  p.first s.name == p.first t.name && a.answered p s.name t.name && a.answered p t.name s.name

def refine (a : Automaton) (p : Partition) : Partition := Partition.ofRelation a.states (a.alike p)

/-- Refines until the number of blocks stays the same, for at most `rounds` rounds. -/
def refineFor (a : Automaton) : Nat → Partition → Partition
  | 0, p => p
  | rounds + 1, p =>
      let q := a.refine p
      if q.count = p.count then q else refineFor a rounds q

/-- The blocks of states alike. Each round but the last one adds a block, so as many rounds as there
are states are enough. -/
def blocks (a : Automaton) : Partition :=
  a.refineFor a.states.length (Partition.ofRelation a.states State.sameFlags)

/-- A transition between the first states of the blocks of its ends. -/
def Partition.image (p : Partition) (t : Transition) : Transition :=
  t.between (p.first t.source) (p.first t.target)

def mergeStates (a : Automaton) : Except PathFault Automaton :=
  let p := a.blocks
  make (a.states.filter fun s => p.first s.name == s.name)
    (a.transitions.map (Partition.image p)).eraseDups

end Automaton

end PropertyPath
