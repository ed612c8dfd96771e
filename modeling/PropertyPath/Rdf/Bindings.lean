import PropertyPath.Rdf.Term

/-!
# Variables and their bindings

`Bindings` is a finite map from variables to terms. A binding is never overwritten: binding a
variable to a second term is refused.
-/
namespace PropertyPath

structure Variable where
  name : String
  deriving DecidableEq, Repr, Inhabited

def Variable.text (v : Variable) : String := "?" ++ v.name

/-- An end of a pattern: a constant or a variable. -/
inductive Endpoint where
  | term (term : Term)
  | var (name : Variable)
  deriving DecidableEq, Repr

namespace Endpoint

def toTerm? : Endpoint → Option Term
  | term t => some t
  | var _ => none

def toVariable? : Endpoint → Option Variable
  | term _ => none
  | var v => some v

def text : Endpoint → String
  | term t => t.text
  | var v => v.text

end Endpoint

/-- The bound variables with their terms, in the order of binding. -/
structure Bindings where
  entries : List (Variable × Term)
  deriving DecidableEq, Repr

namespace Bindings

def empty : Bindings := ⟨[]⟩

instance : Inhabited Bindings := ⟨empty⟩

def get? (b : Bindings) (v : Variable) : Option Term := b.entries.lookup v

/-- `none` when the variable is bound to a different term. -/
def bind? (b : Bindings) (v : Variable) (t : Term) : Option Bindings :=
  match b.get? v with
  | none => some ⟨b.entries ++ [(v, t)]⟩
  | some u => if u = t then some b else none

def size (b : Bindings) : Nat := b.entries.length

def isEmpty (b : Bindings) : Bool := b.entries.isEmpty

@[simp] theorem get?_empty (v : Variable) : empty.get? v = none := rfl

theorem lookup_append_single {xs : List (Variable × Term)} {v w : Variable} {t : Term}
    (h : xs.lookup v = none) :
    (xs ++ [(v, t)]).lookup w = if w = v then some t else xs.lookup w := by
  rw [List.lookup_append]
  by_cases hw : w = v
  · rw [if_pos hw, hw, h, List.lookup_cons_self, Option.none_or]
  · have hw' : (w == v) = false := by simpa using hw
    rw [if_neg hw, List.lookup_cons, hw', List.lookup_nil, Option.or_none]

/-- A successful binding changes the value of its variable alone. -/
theorem get?_bind? {b c : Bindings} {v w : Variable} {t : Term} (h : b.bind? v t = some c) :
    c.get? w = if w = v then some t else b.get? w := by
  unfold bind? at h
  cases hv : b.get? v with
  | none =>
      rw [hv] at h
      cases h
      exact lookup_append_single hv
  | some u =>
      rw [hv] at h
      by_cases hu : u = t
      · simp only [hu, if_true, Option.some.injEq] at h
        subst h
        by_cases hw : w = v
        · rw [if_pos hw, hw, hv, hu]
        · rw [if_neg hw]
      · simp [hu] at h

/-- A variable is refused exactly when it is bound to another term. -/
theorem bind?_eq_none_iff {b : Bindings} {v : Variable} {t : Term} :
    b.bind? v t = none ↔ ∃ u, b.get? v = some u ∧ u ≠ t := by
  unfold bind?
  cases hv : b.get? v with
  | none => simp
  | some u => by_cases hu : u = t <;> simp [hu]

end Bindings

end PropertyPath
