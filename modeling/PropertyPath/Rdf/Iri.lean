/-!
# IRIs and finite sets of IRIs

An IRI is taken as it is: any text counts, also the empty one. IRIs are ordered by the code points
of their text. A finite set is kept as its ascending listing, so two sets with the same members are
the same value, and everything that is printed from a set is printed in that order.
-/
namespace PropertyPath

structure Iri where
  value : String
  deriving DecidableEq, Repr, Inhabited

namespace Iri

instance : LT Iri := ⟨fun a b => a.value < b.value⟩

instance (a b : Iri) : Decidable (a < b) := inferInstanceAs (Decidable (a.value < b.value))

/-- The text is put between angle brackets and is not escaped. -/
def text (i : Iri) : String := "<" ++ i.value ++ ">"

theorem lt_irrefl (a : Iri) : ¬ a < a := String.lt_irrefl a.value

theorem lt_trans {a b c : Iri} (hab : a < b) (hbc : b < c) : a < c := String.lt_trans hab hbc

theorem lt_of_not_lt_of_ne {a b : Iri} (hlt : ¬ a < b) (hne : a ≠ b) : b < a := by
  apply Classical.byContradiction
  intro hba
  apply hne
  cases a
  cases b
  congr
  exact String.le_antisymm (String.not_lt.mp hba) (String.not_lt.mp hlt)

end Iri

/-- A finite set of IRIs, held as its strictly ascending listing. -/
structure IriSet where
  toList : List Iri
  ascending : toList.Pairwise (· < ·)
  deriving DecidableEq, Repr

namespace IriSet

def empty : IriSet := ⟨[], List.Pairwise.nil⟩

instance : Inhabited IriSet := ⟨empty⟩

instance : Membership Iri IriSet := ⟨fun s i => i ∈ s.toList⟩

instance (i : Iri) (s : IriSet) : Decidable (i ∈ s) := inferInstanceAs (Decidable (i ∈ s.toList))

def isEmpty (s : IriSet) : Bool := s.toList.isEmpty

/-- Puts an IRI at its place in an ascending listing, unless it is there already. -/
def insertInto (x : Iri) : List Iri → List Iri
  | [] => [x]
  | y :: ys => if x < y then x :: y :: ys else if x = y then y :: ys else y :: insertInto x ys

theorem mem_insertInto {x z : Iri} {ys : List Iri} : z ∈ insertInto x ys ↔ z = x ∨ z ∈ ys := by
  induction ys with
  | nil => simp [insertInto]
  | cons y ys ih =>
      rw [insertInto]
      split
      · simp
      · split
        · next h => simp [h]
        · simp only [List.mem_cons, ih]
          exact or_left_comm

theorem pairwise_insertInto {x : Iri} {ys : List Iri} (h : ys.Pairwise (· < ·)) :
    (insertInto x ys).Pairwise (· < ·) := by
  induction ys with
  | nil => simp [insertInto]
  | cons y ys ih =>
      rw [insertInto]
      rw [List.pairwise_cons] at h
      split
      · next hxy =>
          refine List.Pairwise.cons ?_ (List.Pairwise.cons h.1 h.2)
          intro z hz
          rcases List.mem_cons.mp hz with rfl | hz
          · exact hxy
          · exact Iri.lt_trans hxy (h.1 z hz)
      · split
        · exact List.Pairwise.cons h.1 h.2
        · next hxy hne =>
            refine List.Pairwise.cons ?_ (ih h.2)
            intro z hz
            rcases mem_insertInto.mp hz with rfl | hz
            · exact Iri.lt_of_not_lt_of_ne hxy hne
            · exact h.1 z hz

def insert (x : Iri) (s : IriSet) : IriSet :=
  ⟨insertInto x s.toList, pairwise_insertInto s.ascending⟩

/-- The set of the members of a list, whatever its order and its repetitions. -/
def ofList (xs : List Iri) : IriSet := xs.foldr insert empty

@[simp] theorem not_mem_empty (i : Iri) : ¬ i ∈ empty := List.not_mem_nil

@[simp] theorem mem_insert {x i : Iri} {s : IriSet} :
    i ∈ s.insert x ↔ i = x ∨ i ∈ s := mem_insertInto

@[simp] theorem mem_ofList {i : Iri} {xs : List Iri} : i ∈ ofList xs ↔ i ∈ xs := by
  induction xs with
  | nil => simp [ofList]
  | cons x xs ih =>
      have h : ofList (x :: xs) = (ofList xs).insert x := rfl
      rw [h, mem_insert, ih, List.mem_cons]

theorem toList_ofList_ne_nil {xs : List Iri} (hne : xs ≠ []) : (ofList xs).toList ≠ [] := by
  cases xs with
  | nil => exact absurd rfl hne
  | cons x xs =>
      have hmem : x ∈ ofList (x :: xs) := mem_ofList.mpr List.mem_cons_self
      exact List.ne_nil_of_mem hmem

/-- An ascending listing is determined by its members. -/
theorem eq_of_ascending {xs ys : List Iri} (hx : xs.Pairwise (· < ·)) (hy : ys.Pairwise (· < ·))
    (h : ∀ i, i ∈ xs ↔ i ∈ ys) : xs = ys := by
  induction xs generalizing ys with
  | nil =>
      cases ys with
      | nil => rfl
      | cons y ys => exact absurd ((h y).mpr List.mem_cons_self) List.not_mem_nil
  | cons x xs ih =>
      cases ys with
      | nil => exact absurd ((h x).mp List.mem_cons_self) List.not_mem_nil
      | cons y ys =>
          rw [List.pairwise_cons] at hx hy
          have hxy : x = y := by
            rcases List.mem_cons.mp ((h x).mp List.mem_cons_self) with e | hxin
            · exact e
            · rcases List.mem_cons.mp ((h y).mpr List.mem_cons_self) with e | hyin
              · exact e.symm
              · exact absurd (Iri.lt_trans (hx.1 y hyin) (hy.1 x hxin)) (Iri.lt_irrefl x)
          subst hxy
          congr 1
          apply ih hx.2 hy.2
          intro i
          constructor
          · intro hi
            rcases List.mem_cons.mp ((h i).mp (List.mem_cons_of_mem x hi)) with rfl | hi'
            · exact absurd (hx.1 i hi) (Iri.lt_irrefl i)
            · exact hi'
          · intro hi
            rcases List.mem_cons.mp ((h i).mpr (List.mem_cons_of_mem x hi)) with rfl | hi'
            · exact absurd (hy.1 i hi) (Iri.lt_irrefl i)
            · exact hi'

theorem ext {s t : IriSet} (h : ∀ i, i ∈ s ↔ i ∈ t) : s = t := by
  cases s with
  | mk xs hx =>
      cases t with
      | mk ys hy =>
          congr
          exact eq_of_ascending hx hy h

end IriSet

end PropertyPath
