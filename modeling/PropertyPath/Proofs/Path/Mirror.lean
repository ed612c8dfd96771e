import PropertyPath.Proofs.Path.Depth
import PropertyPath.Proofs.Path.Marking
import PropertyPath.Proofs.Path.Plain

/-!
# Mirror images of paths

The mirror image of a path takes every edge the other way round and has the items of every sequence
in reverse order. The normal form of an inverted path is the mirror image of the normal form of the
path. Cut off at its letters, a mirror image reads the words of the path backwards, with every
letter mirrored.
-/
namespace PropertyPath
open scoped Computability

namespace PropertySet

/-- The same edges, taken the other way round. -/
def mirror (set : PropertySet) : PropertySet := set.withInverse (!set.inverse)

end PropertySet

namespace Closure
variable {α β : Type}

theorem map_language (kind : Closure) (f : α → β) (L : Language α) :
    Language.map f (kind.language L) = kind.language (Language.map f L) := by
  cases kind with
  | zeroOrMore => exact Language.map_kstar f L
  | oneOrMore => rw [language, language, map_mul, Language.map_kstar]
  | zeroOrOne => rw [language, language, map_add, map_one]

theorem language_reverse (kind : Closure) (L : Language α) :
    (kind.language L).reverse = kind.language L.reverse := by
  cases kind with
  | zeroOrMore => exact Language.reverse_kstar L
  | oneOrMore =>
      rw [language, language, Language.reverse_mul, Language.reverse_kstar,
        Language.mul_self_kstar_comm]
  | zeroOrOne => rw [language, language, Language.reverse_add, Language.reverse_one]

end Closure

namespace PathTree

mutual

def mirror : PathTree → PathTree
  | .property set => .property set.mirror
  | .inverse item => .inverse (mirror item)
  | .negation items => .negation (mirrorAll items)
  | .closure kind item => .closure kind (mirror item)
  | .sequence items => .sequence (mirrorAll items).reverse
  | .alternative items => .alternative (mirrorAll items)

def mirrorAll : List PathTree → List PathTree
  | [] => []
  | t :: ts => mirror t :: mirrorAll ts

end

theorem mirrorAll_eq (ts : List PathTree) : mirrorAll ts = ts.map mirror := by
  induction ts with
  | nil => rfl
  | cons t ts ih => rw [mirrorAll, ih, List.map_cons]

mutual

theorem mirror_mirror (t : PathTree) : t.mirror.mirror = t := by
  cases t with
  | property set => simp [mirror, PropertySet.mirror, PropertySet.withInverse]
  | inverse item => rw [mirror, mirror, mirror_mirror item]
  | negation items => rw [mirror, mirror, mirrorAll_mirrorAll items]
  | closure kind item => rw [mirror, mirror, mirror_mirror item]
  | sequence items =>
      rw [mirror, mirror, mirrorAll_eq, List.map_reverse, List.reverse_reverse, ← mirrorAll_eq,
        mirrorAll_mirrorAll items]
  | alternative items => rw [mirror, mirror, mirrorAll_mirrorAll items]

theorem mirrorAll_mirrorAll (ts : List PathTree) : mirrorAll (mirrorAll ts) = ts := by
  cases ts with
  | nil => rfl
  | cons t ts => rw [mirrorAll, mirrorAll, mirror_mirror t, mirrorAll_mirrorAll ts]

end

theorem body_mirror (t : PathTree) : t.mirror.body = t.body.mirror := by
  cases t <;> rfl

theorem loop?_mirror (t : PathTree) : t.mirror.loop? = t.loop? := by
  cases t <;> rfl

section normal

theorem sequenceItems_mirror (t : PathTree) :
    t.mirror.sequenceItems = (t.sequenceItems.map mirror).reverse := by
  cases t with
  | sequence items => rw [mirror, sequenceItems, sequenceItems, mirrorAll_eq]
  | _ => rfl

theorem alternativeItems_mirror (t : PathTree) :
    t.mirror.alternativeItems = t.alternativeItems.map mirror := by
  cases t with
  | alternative items => rw [mirror, alternativeItems, alternativeItems, mirrorAll_eq]
  | _ => rfl

theorem mirror_joinSequence (ts : List PathTree) :
    (joinSequence ts).mirror = joinSequence (ts.map mirror).reverse := by
  have hsplice (ts : List PathTree) : ((ts.flatMap sequenceItems).map mirror).reverse =
      (ts.map mirror).reverse.flatMap sequenceItems := by
    induction ts with
    | nil => rfl
    | cons t ts ih =>
        rw [List.flatMap_cons, List.map_append, List.reverse_append, ih, List.map_cons,
          List.reverse_cons, List.flatMap_append, List.flatMap_singleton, sequenceItems_mirror]
  match ts with
  | [] => rfl
  | [t] => rfl
  | t :: u :: ts =>
      have hmany : joinSequence ((t :: u :: ts).map mirror).reverse =
          .sequence (((t :: u :: ts).map mirror).reverse.flatMap sequenceItems) := by
        unfold joinSequence
        split
        · next v hv =>
            have hlength := congrArg List.length hv
            simp at hlength
        · rfl
      have hfew :
          joinSequence (t :: u :: ts) = .sequence ((t :: u :: ts).flatMap sequenceItems) := rfl
      rw [hmany, hfew, ← hsplice, mirror, mirrorAll_eq]

theorem mirror_joinAlternative (ts : List PathTree) :
    (joinAlternative ts).mirror = joinAlternative (ts.map mirror) := by
  have hsplice (ts : List PathTree) : (ts.flatMap alternativeItems).map mirror =
      (ts.map mirror).flatMap alternativeItems := by
    induction ts with
    | nil => rfl
    | cons t ts ih =>
        rw [List.flatMap_cons, List.map_append, ih, List.map_cons, List.flatMap_cons,
          alternativeItems_mirror]
  match ts with
  | [] => rfl
  | [t] => rfl
  | t :: u :: ts =>
      have hmany : joinAlternative (t :: u :: ts) =
          .alternative ((t :: u :: ts).flatMap alternativeItems) := rfl
      rw [hmany, mirror, mirrorAll_eq, hsplice]
      rfl

theorem negatedLeaf_not (inverted inverse : Bool) (steps : List (Bool × Iri)) :
    negatedLeaf (!inverted) inverse steps = (negatedLeaf inverted inverse steps).map mirror := by
  rw [negatedLeaf, negatedLeaf]
  split
  · rfl
  · simp [mirror, PropertySet.mirror, PropertySet.withInverse]

mutual

/-- The normal form of an inverted tree is the mirror image of the normal form of the tree. -/
theorem normalizeFrom_not (k : Nat) (inverted : Bool) (t : PathTree) :
    normalizeFrom k (!inverted) t = (normalizeFrom k inverted t).map mirror := by
  cases t with
  | property set =>
      rw [normalizeFrom, normalizeFrom]
      split
      · rfl
      · simp [Except.map, mirror, PropertySet.mirror]
  | inverse item => exact normalizeFrom_not k (!inverted) item
  | negation items =>
      rw [normalizeFrom, normalizeFrom]
      cases negatedStepsAll k false items with
      | error fault => rfl
      | ok steps =>
          simp only [bind, Except.bind, ← List.map_append, negatedLeaf_not]
          cases negatedLeaf inverted false steps ++ negatedLeaf inverted true steps with
          | nil => rfl
          | cons leaf leaves => exact congrArg Except.ok (mirror_joinAlternative _).symm
  | closure kind item =>
      rw [normalizeFrom, normalizeFrom, normalizeFrom_not k inverted item]
      cases normalizeFrom k inverted item with
      | error fault => rfl
      | ok u => rfl
  | sequence items =>
      rw [normalizeFrom, normalizeFrom, normalizeAllFrom_not k inverted items]
      cases normalizeAllFrom k inverted items with
      | error fault => rfl
      | ok us =>
          cases inverted with
          | false => exact congrArg Except.ok (mirror_joinSequence us).symm
          | true =>
              refine congrArg Except.ok ((mirror_joinSequence us.reverse).trans ?_).symm
              rw [List.map_reverse, List.reverse_reverse]
              rfl
  | alternative items =>
      rw [normalizeFrom, normalizeFrom, normalizeAllFrom_not k inverted items]
      cases normalizeAllFrom k inverted items with
      | error fault => rfl
      | ok us => exact congrArg Except.ok (mirror_joinAlternative us).symm

theorem normalizeAllFrom_not (k : Nat) (inverted : Bool) (ts : List PathTree) :
    normalizeAllFrom k (!inverted) ts = (normalizeAllFrom k inverted ts).map (·.map mirror) := by
  cases ts with
  | nil => rfl
  | cons t ts =>
      rw [normalizeAllFrom, normalizeAllFrom, normalizeFrom_not k inverted t,
        normalizeAllFrom_not (k + t.size) inverted ts]
      cases normalizeFrom k inverted t with
      | error fault => rfl
      | ok u =>
          cases normalizeAllFrom (k + t.size) inverted ts with
          | error fault => rfl
          | ok us => rfl

end

/-- Followed from its end, the normal form of a path is the mirror image of what it is when it is
followed from its start. -/
theorem normalize_not (forward : Bool) (t : PathTree) :
    t.normalize (!forward) = (t.normalize forward).map mirror :=
  normalizeFrom_not 0 (!forward) t

end normal

mutual

theorem plain_mirror {t : PathTree} (h : t.Plain) : t.mirror.Plain := by
  cases t with
  | property set => exact h
  | inverse item => exact h.elim
  | negation items => exact h.elim
  | closure kind item =>
      have hitem : item.mirror.Plain := plain_mirror (t := item) h
      exact hitem
  | sequence items =>
      have hitems : AllPlain items := h
      have hmirrored := allPlain_iff.mp (plain_mirrorAll hitems)
      exact allPlain_iff.mpr fun u hu => hmirrored u (List.mem_reverse.mp hu)
  | alternative items =>
      have hitems : AllPlain items := h
      have hmirrored := plain_mirrorAll hitems
      exact hmirrored

theorem plain_mirrorAll {ts : List PathTree} (h : AllPlain ts) : AllPlain (mirrorAll ts) := by
  cases ts with
  | nil => trivial
  | cons t ts => exact ⟨plain_mirror h.1, plain_mirrorAll h.2⟩

end

theorem allNullable_append (ts us : List PathTree) :
    allNullable (ts ++ us) = (allNullable ts && allNullable us) := by
  induction ts with
  | nil => rfl
  | cons t ts ih => rw [List.cons_append, allNullable, allNullable, ih, Bool.and_assoc]

mutual

theorem nullable_mirror (t : PathTree) : t.mirror.nullable = t.nullable := by
  cases t with
  | property set => rfl
  | inverse item => exact nullable_mirror item
  | negation items => rfl
  | closure kind item => rw [mirror, nullable, nullable, nullable_mirror item]
  | sequence items => exact (nullable_mirrorAll items).1
  | alternative items => exact (nullable_mirrorAll items).2

theorem nullable_mirrorAll (ts : List PathTree) :
    allNullable (mirrorAll ts).reverse = allNullable ts ∧
    anyNullable (mirrorAll ts) = anyNullable ts := by
  cases ts with
  | nil => exact ⟨rfl, rfl⟩
  | cons t ts =>
      obtain ⟨hall, hany⟩ := nullable_mirrorAll ts
      constructor
      · rw [mirrorAll, List.reverse_cons, allNullable_append, hall, allNullable, allNullable,
          allNullable, nullable_mirror t, Bool.and_true, Bool.and_comm]
      · rw [mirrorAll, anyNullable, anyNullable, nullable_mirror t, hany]

end

section words

/-- A letter by itself, or nothing at all if it may be left out. -/
def alone (t : PathTree) : Language PathTree := {w | w = [t] ∨ (w = [] ∧ t.nullable = true)}

mutual

/-- The words of a path that is cut off at its letters. -/
def letterWords : PathTree → Language PathTree
  | .property set => alone (.property set)
  | .inverse _ => 0
  | .negation _ => 0
  | .closure kind item => alone (.closure kind item)
  | .sequence items => letterWordsOfSequence items
  | .alternative items => letterWordsOfAny items

def letterWordsOfSequence : List PathTree → Language PathTree
  | [] => 1
  | t :: ts => letterWords t * letterWordsOfSequence ts

def letterWordsOfAny : List PathTree → Language PathTree
  | [] => 0
  | t :: ts => letterWords t + letterWordsOfAny ts

end

/-- The words of a whole path: a closure at its root is no letter but repeats the words below it. -/
def rootWords (t : PathTree) : Language PathTree :=
  match t.loop? with
  | none => t.body.letterWords
  | some kind => kind.language t.body.letterWords

theorem mem_alone {t : PathTree} {w : List PathTree} :
    w ∈ t.alone ↔ w = [t] ∨ (w = [] ∧ t.nullable = true) := Iff.rfl

theorem letterWordsOfSequence_append (ts us : List PathTree) :
    letterWordsOfSequence (ts ++ us) = letterWordsOfSequence ts * letterWordsOfSequence us := by
  induction ts with
  | nil => rw [List.nil_append, letterWordsOfSequence, one_mul]
  | cons t ts ih =>
      rw [List.cons_append, letterWordsOfSequence, letterWordsOfSequence, ih, mul_assoc]

theorem alone_mirror (t : PathTree) : t.mirror.alone = (Language.map mirror t.alone).reverse := by
  ext w
  rw [Language.mem_reverse, mem_alone, nullable_mirror]
  constructor
  · rintro (rfl | ⟨rfl, hnullable⟩)
    · exact ⟨[t], Or.inl rfl, rfl⟩
    · exact ⟨[], Or.inr ⟨rfl, hnullable⟩, rfl⟩
  · rintro ⟨v, rfl | ⟨rfl, hnullable⟩, hv⟩
    · exact Or.inl (List.reverse_eq_iff.mp hv.symm)
    · exact Or.inr ⟨List.reverse_eq_nil_iff.mp hv.symm, hnullable⟩

mutual

/-- The words of the mirror image are the words of the path backwards, with every letter
mirrored. -/
theorem letterWords_mirror (t : PathTree) :
    t.mirror.letterWords = (Language.map mirror t.letterWords).reverse := by
  cases t with
  | property set => exact alone_mirror (.property set)
  | inverse item => exact (congrArg Language.reverse (map_zero _)).symm
  | negation items => exact (congrArg Language.reverse (map_zero _)).symm
  | closure kind item => exact alone_mirror (.closure kind item)
  | sequence items => exact (letterWords_mirrorAll items).1
  | alternative items => exact (letterWords_mirrorAll items).2

theorem letterWords_mirrorAll (ts : List PathTree) :
    letterWordsOfSequence (mirrorAll ts).reverse =
        (Language.map mirror (letterWordsOfSequence ts)).reverse ∧
      letterWordsOfAny (mirrorAll ts) = (Language.map mirror (letterWordsOfAny ts)).reverse := by
  cases ts with
  | nil =>
      constructor
      · rw [letterWordsOfSequence, map_one, Language.reverse_one]
        rfl
      · rw [letterWordsOfAny, map_zero, Language.reverse_zero]
        rfl
  | cons t ts =>
      obtain ⟨hsequence, hany⟩ := letterWords_mirrorAll ts
      constructor
      · rw [mirrorAll, List.reverse_cons, letterWordsOfSequence_append,
          hsequence, letterWordsOfSequence,
          letterWordsOfSequence, mul_one, letterWords_mirror t, letterWordsOfSequence, map_mul,
          Language.reverse_mul]
      · rw [mirrorAll, letterWordsOfAny, letterWordsOfAny, hany, letterWords_mirror t, map_add,
          Language.reverse_add]

end

theorem rootWords_mirror (t : PathTree) :
    t.mirror.rootWords = (Language.map mirror t.rootWords).reverse := by
  rw [rootWords, rootWords, loop?_mirror, body_mirror, letterWords_mirror]
  cases t.loop? with
  | none => rfl
  | some kind =>
      change kind.language (Language.map mirror t.body.letterWords).reverse = _
      rw [← kind.language_reverse, ← kind.map_language]

mutual

/-- The letters of a normal path are normal, and have no more closures within each other. -/
theorem letters_letterWords {t : PathTree} (h : t.Plain) {w : List PathTree}
    (hw : w ∈ t.letterWords) :
    ∀ u ∈ w, u.Plain ∧ u.closureDepth ≤ t.closureDepth := by
  have halone (hw : w ∈ t.alone) : ∀ u ∈ w, u.Plain ∧ u.closureDepth ≤ t.closureDepth := by
    rcases hw with rfl | ⟨rfl, _⟩
    · exact List.forall_mem_singleton.mpr ⟨h, Nat.le_refl _⟩
    · exact nofun
  cases t with
  | property set => exact halone hw
  | inverse item => exact h.elim
  | negation items => exact h.elim
  | closure kind item => exact halone hw
  | sequence items =>
      have hitems : AllPlain items := h
      exact (letters_letterWordsAll hitems w).1 hw
  | alternative items =>
      have hitems : AllPlain items := h
      exact (letters_letterWordsAll hitems w).2 hw

theorem letters_letterWordsAll {ts : List PathTree} (h : AllPlain ts) (w : List PathTree) :
    (w ∈ letterWordsOfSequence ts → ∀ u ∈ w, u.Plain ∧ u.closureDepth ≤ closureDepthAll ts) ∧
      (w ∈ letterWordsOfAny ts → ∀ u ∈ w, u.Plain ∧ u.closureDepth ≤ closureDepthAll ts) := by
  cases ts with
  | nil =>
      constructor
      · rintro rfl
        exact nofun
      · exact False.elim
  | cons t ts =>
      have hfirst : ∀ {v}, v ∈ t.letterWords → ∀ u ∈ v,
          u.Plain ∧ u.closureDepth ≤ closureDepthAll (t :: ts) := by
        intro v hv u hu
        obtain ⟨hplain, hdepth⟩ := letters_letterWords h.1 hv u hu
        exact ⟨hplain, Nat.le_trans hdepth (Nat.le_max_left _ _)⟩
      have hrest : ∀ {u : PathTree}, u.Plain ∧ u.closureDepth ≤ closureDepthAll ts →
          u.Plain ∧ u.closureDepth ≤ closureDepthAll (t :: ts) :=
        fun hu => ⟨hu.1, Nat.le_trans hu.2 (Nat.le_max_right _ _)⟩
      constructor
      · rintro ⟨v, hv, v', hv', rfl⟩ u hu
        rcases List.mem_append.mp hu with hu | hu
        · exact hfirst hv u hu
        · exact hrest ((letters_letterWordsAll h.2 v').1 hv' u hu)
      · rintro (hw | hw) u hu
        · exact hfirst hw u hu
        · exact hrest ((letters_letterWordsAll h.2 w).2 hw u hu)

end

/-- The words of a closure have no other letters than the words that it repeats. -/
theorem letters_language {P : PathTree → Prop} {L : Language PathTree} (h : ∀ w ∈ L, ∀ u ∈ w, P u)
    (kind : Closure) : ∀ w ∈ kind.language L, ∀ u ∈ w, P u := by
  have hstar : ∀ w ∈ L∗, ∀ u ∈ w, P u := by
    rintro _ ⟨words, rfl, hwords⟩ u hu
    obtain ⟨v, hv, hu⟩ := List.mem_flatten.mp hu
    exact h v (hwords v hv) u hu
  cases kind with
  | zeroOrMore => exact hstar
  | oneOrMore =>
      rintro _ ⟨v, hv, v', hv', rfl⟩ u hu
      exact (List.mem_append.mp hu).elim (h v hv u) (hstar v' hv' u)
  | zeroOrOne =>
      rintro w (rfl | hw) u hu
      · cases hu
      · exact h w hw u hu

theorem letters_rootWords {t : PathTree} (h : t.Plain) :
    ∀ w ∈ t.rootWords, ∀ u ∈ w, u.Plain ∧ u.closureDepth ≤ t.body.closureDepth := by
  have hbody : t.body.Plain := by cases t <;> exact h
  have hletters :
      ∀ w ∈ t.body.letterWords, ∀ u ∈ w, u.Plain ∧ u.closureDepth ≤ t.body.closureDepth :=
    fun w hw => letters_letterWords hbody hw
  rw [rootWords]
  cases t.loop? with
  | none => exact hletters
  | some kind => exact letters_language hletters kind

end words

end PathTree

end PropertyPath
