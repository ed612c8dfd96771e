import PropertyPath.Path.Operator

/-!
# What can be wrong with a path or an automaton

`Malformation` tells how a node of a path breaks its rules, `PathFault` collects all causes for
which no path or automaton is made. Nodes are named by their position: nodes are numbered in
post-order, from one.
-/
namespace PropertyPath

/-- States are named by numbers. The initial state of every automaton is named `0`. -/
abbrev StateName := Nat

/-- Identifies a node of a path by the number of nodes before it. -/
structure NodeId where
  index : Nat
  deriving DecidableEq, Repr

namespace NodeId

/-- Position `0` is left to the initial state of the automaton. -/
def position (id : NodeId) : StateName := id.index + 1

def ofPosition? : StateName → Option NodeId
  | 0 => none
  | index + 1 => some ⟨index⟩

def text (id : NodeId) : String := toString id.position

theorem ofPosition?_eq_some_iff {p : StateName} {id : NodeId} :
    ofPosition? p = some id ↔ p = id.position := by
  cases id
  cases p <;> simp [ofPosition?, position, eq_comm]

end NodeId

inductive Malformation where
  | lateChild
  | unknownNode
  | emptyPropertySet
  | operandCount (operator : Operator) (count : Nat)
  | noOperand (operator : Operator)
  | tooManyNodes (limit : Nat)
  | emptyNegation
  | negatedWithinNegation
  | notWithinNegation (operator : Operator)
  | notNormalized (operator : Operator)
  deriving DecidableEq, Repr

def Malformation.message : Malformation → String
  | lateChild => "children must be created before their parent"
  | unknownNode => "unknown node"
  | emptyPropertySet => "property set must not be empty"
  | operandCount operator count =>
      "operator '" ++ operator.symbol ++ "' requires exactly one operand, got " ++ toString count
  | noOperand operator => "operator '" ++ operator.symbol ++ "' requires at least one operand"
  | tooManyNodes limit => "a path must not have more than " ++ toString limit ++ " nodes"
  | emptyNegation => "negated property set is empty"
  | negatedWithinNegation => "a negated property set must not contain negated properties"
  | notWithinNegation operator =>
      "operator '" ++ operator.symbol ++ "' is not allowed in a negated property set"
  | notNormalized operator =>
      "operator '" ++ operator.symbol ++ "' must be removed by preprocessing"

inductive PathFault where
  | unknownOperator (token : String)
  | malformedNode (node : NodeId) (malformation : Malformation)
  | emptyInstruction
  | misalignedSequence (leftTarget rightSource : StateName)
  | unknownState (state : StateName)
  | initialCount (count : Nat)
  | initialName
  | duplicateState (state : StateName)
  deriving DecidableEq, Repr

def PathFault.message : PathFault → String
  | unknownOperator token => "Unknown property path operator '" ++ token ++ "'"
  | malformedNode node malformation =>
      "Malformed path node " ++ node.text ++ ": " ++ malformation.message
  | emptyInstruction => "An instruction must match at least one property"
  | misalignedSequence leftTarget rightSource =>
      "Cannot merge sequence ending in state " ++ toString leftTarget ++
        " with sequence starting in state " ++ toString rightSource
  | unknownState state => "State " ++ toString state ++ " is not part of the automaton"
  | initialCount count =>
      "Invalid initial state: expected exactly one initial state, found " ++ toString count
  | initialName => "Invalid initial state: the initial state must be named 0"
  | duplicateState state => "Duplicate state " ++ toString state

/-- Reads an operator symbol and refuses any other text. -/
def Operator.ofSymbol (token : String) : Except PathFault Operator :=
  match ofSymbol? token with
  | some operator => .ok operator
  | none => .error (.unknownOperator token)

end PropertyPath
