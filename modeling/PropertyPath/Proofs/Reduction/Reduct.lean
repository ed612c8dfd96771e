import PropertyPath.Proofs.Automaton.Nesting
import PropertyPath.Proofs.Automaton.Relation
import PropertyPath.Proofs.Automaton.Validity

/-!
# Reducts of an automaton

What every pass has to keep: the relation of the automaton in every graph and whether the empty walk
is accepted; and it must not nest closures deeper or let a transition be taken without an edge.
-/
namespace PropertyPath

structure Label.IsReductOf (l' l : Label) : Prop where
  relation : ∀ G, l'.relation G = l.relation G
  nesting : l'.nesting ≤ l.nesting
  epsilonFree : l.EpsilonFree → l'.EpsilonFree

structure Automaton.IsReductOf (b a : Automaton) : Prop where
  relation : ∀ G, b.relation G = a.relation G
  initial : b.isFinal start = a.isFinal start
  nesting : b.nesting ≤ a.nesting
  epsilonFree : a.EpsilonFree → b.EpsilonFree

namespace Automaton

theorem IsReductOf.refl (a : Automaton) : a.IsReductOf a :=
  ⟨fun _ => rfl, rfl, Nat.le_refl _, id⟩

theorem IsReductOf.trans {c b a : Automaton} (h : c.IsReductOf b) (h' : b.IsReductOf a) :
    c.IsReductOf a where
  relation G := (h.relation G).trans (h'.relation G)
  initial := h.initial.trans h'.initial
  nesting := Nat.le_trans h.nesting h'.nesting
  epsilonFree := fun ha => h.epsilonFree (h'.epsilonFree ha)

end Automaton

/-- A label that was there before, or a choice of chains. Neither the choice nor one of its chains
is empty unless one was before. -/
inductive Label.ComesFrom (ts : List Transition) (l : Label) : Prop
  | kept (t : Transition) : t ∈ ts → t.label = l → ComesFrom ts l
  | chains (branches : List (List Instruction)) : l.branches? = some branches →
      ((∀ t ∈ ts, t.label.EpsilonFree) → branches ≠ [] ∧ [] ∉ branches) → ComesFrom ts l

namespace Label.ComesFrom
variable {ts : List Transition} {l : Label}

theorem validate (h : l.ComesFrom ts) (hts : ∀ t ∈ ts, t.label.validate = .ok ()) :
    l.validate = .ok () := by
  cases h with
  | kept t ht hl => exact hl ▸ hts t ht
  | chains branches hbranches _ => exact Label.validate_of_branches hbranches

theorem nesting (h : l.ComesFrom ts) {n : Nat} (hts : ∀ t ∈ ts, t.label.nesting ≤ n) :
    l.nesting ≤ n := by
  cases h with
  | kept t ht hl => exact hl ▸ hts t ht
  | chains branches hbranches _ =>
      rw [Label.nesting_of_branches hbranches]
      exact Nat.zero_le n

theorem epsilonFree (h : l.ComesFrom ts) (hts : ∀ t ∈ ts, t.label.EpsilonFree) :
    l.EpsilonFree := by
  cases h with
  | kept t ht hl => exact hl ▸ hts t ht
  | chains branches hbranches hnonempty =>
      exact (Label.epsilonFree_of_branches hbranches).mpr (hnonempty hts)

end Label.ComesFrom

namespace Automaton

/-- Labels that come from an automaton neither nest deeper nor take fewer edges. -/
theorem IsReductOf.of_labels {b a : Automaton} (hrelation : ∀ G, b.relation G = a.relation G)
    (hstart : b.isFinal start = a.isFinal start)
    (hlabels : ∀ t ∈ b.transitions, t.label.ComesFrom a.transitions) : b.IsReductOf a where
  relation := hrelation
  initial := hstart
  nesting := nesting_le_iff.mpr fun t ht =>
    (hlabels t ht).nesting (nesting_le_iff.mp (Nat.le_refl a.nesting))
  epsilonFree := fun ha => epsilonFree_iff.mpr fun t ht =>
    (hlabels t ht).epsilonFree (epsilonFree_iff.mp ha)

/-- Automata with the same states and the same moves have the same relation. -/
theorem relation_congr {b a : Automaton} {G : Set Triple} (hstates : b.states = a.states)
    (hmoves : b.Moves G = a.Moves G) : b.relation G = a.relation G := by
  have hfinal (q : StateName) : b.isFinal q = a.isFinal q := by
    rw [isFinal, isFinal, state?, state?, hstates]
  rw [relation_eq, relation_eq]
  funext x y
  simp only [Leads, hmoves, hfinal]

end Automaton

end PropertyPath
