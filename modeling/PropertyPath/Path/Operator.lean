/-!
# Operators of property paths

The three closures share one type, which the closure transitions of an automaton use as well.
-/
namespace PropertyPath

inductive Closure where
  | zeroOrMore
  | oneOrMore
  | zeroOrOne
  deriving DecidableEq, Repr

def Closure.symbol : Closure → String
  | zeroOrMore => "*"
  | oneOrMore => "+"
  | zeroOrOne => "?"

/-- Whether the closure accepts the empty path whatever its operand accepts. -/
def Closure.allowsZero : Closure → Bool
  | zeroOrMore => true
  | oneOrMore => false
  | zeroOrOne => true

/-- Whether the closure may repeat its operand. -/
def Closure.repeats : Closure → Bool
  | zeroOrMore => true
  | oneOrMore => true
  | zeroOrOne => false

inductive Operator where
  | sequence
  | alternative
  | inverse
  | negation
  | closure (kind : Closure)
  deriving DecidableEq, Repr

namespace Operator

def symbol : Operator → String
  | sequence => "/"
  | alternative => "|"
  | inverse => "^"
  | negation => "!"
  | closure kind => kind.symbol

def isClosure : Operator → Bool
  | closure _ => true
  | _ => false

/-- Whether the operator takes exactly one operand. -/
def isUnary : Operator → Bool
  | closure _ => true
  | inverse => true
  | _ => false

/-- All operators, in the order of the grammar. -/
def all : List Operator :=
  [sequence, alternative, inverse, negation, closure .zeroOrMore, closure .oneOrMore,
    closure .zeroOrOne]

/-- Reads a symbol; nothing but the seven symbols is read. -/
def ofSymbol? (token : String) : Option Operator := all.find? (·.symbol == token)

@[simp] theorem ofSymbol?_symbol (o : Operator) : ofSymbol? o.symbol = some o := by
  cases o with
  | closure kind => cases kind <;> rfl
  | _ => rfl

end Operator

end PropertyPath
