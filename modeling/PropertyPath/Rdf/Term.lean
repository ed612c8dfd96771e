import PropertyPath.Rdf.Iri

/-!
# RDF terms and triples

Two terms are the same when they are of one kind and have the same parts; no value of a datatype is
ever compared. The subject of a triple is a `Resource`, so no triple has a literal as its subject.
-/
namespace PropertyPath

inductive Literal where
  | simple (value : String)
  | tagged (value tag : String)
  | typed (value : String) (datatype : Iri)
  deriving DecidableEq, Repr

namespace Literal

def stringDatatype : Iri := ⟨"http://www.w3.org/2001/XMLSchema#string"⟩

/-- A literal of the string datatype is the simple literal. -/
def ofDatatype (value : String) (datatype : Iri) : Literal :=
  if datatype = stringDatatype then .simple value else .typed value datatype

/-- The lowest four hexadecimal digits of a number, upper case. -/
def hexDigits (n : Nat) : List Char :=
  [n / 4096, n / 256, n / 16, n].map fun d => ("0123456789ABCDEF".toList[d % 16]?).getD '0'

/-- Controls, the quote and the backslash are escaped; all other characters stand for themselves. -/
def escape (c : Char) : List Char :=
  if c = '\x08' then ['\\', 'b']
  else if c = '\t' then ['\\', 't']
  else if c = '\n' then ['\\', 'n']
  else if c = '\x0c' then ['\\', 'f']
  else if c = '\r' then ['\\', 'r']
  else if c = '"' then ['\\', '"']
  else if c = '\\' then ['\\', '\\']
  else if c.toNat < 0x20 ∨ c.toNat = 0x7f then '\\' :: 'u' :: hexDigits c.toNat
  else [c]

def quote (value : String) : String := "\"" ++ String.ofList (value.toList.flatMap escape) ++ "\""

def text : Literal → String
  | simple value => quote value
  | tagged value tag => quote value ++ "@" ++ tag
  | typed value datatype => quote value ++ "^^" ++ datatype.text

end Literal

inductive Term where
  | iri (iri : Iri)
  | blank (label : String)
  | literal (literal : Literal)
  deriving DecidableEq, Repr

namespace Term

instance : Inhabited Term := ⟨.iri default⟩

def text : Term → String
  | iri i => i.text
  | blank label => "_:" ++ label
  | literal l => l.text

end Term

/-- A term that is no literal. -/
inductive Resource where
  | iri (iri : Iri)
  | blank (label : String)
  deriving DecidableEq, Repr

namespace Resource

def toTerm : Resource → Term
  | iri i => .iri i
  | blank label => .blank label

def ofTerm? : Term → Option Resource
  | .iri i => some (.iri i)
  | .blank label => some (.blank label)
  | .literal _ => none

@[simp] theorem ofTerm?_toTerm (r : Resource) : ofTerm? r.toTerm = some r := by
  cases r <;> rfl

theorem toTerm_inj {r s : Resource} : r.toTerm = s.toTerm ↔ r = s := by
  cases r <;> cases s <;> simp [toTerm]

end Resource

structure Triple where
  subject : Resource
  predicate : Iri
  object : Term
  deriving DecidableEq, Repr

/-- A solution: the two ends of a path. -/
structure Solution where
  subject : Term
  object : Term
  deriving DecidableEq, Repr

namespace Solution

def reversed (t : Solution) : Solution := ⟨t.object, t.subject⟩

def text (t : Solution) : String := t.subject.text ++ " " ++ t.object.text

@[simp] theorem reversed_reversed (t : Solution) : t.reversed.reversed = t := rfl

end Solution

end PropertyPath
