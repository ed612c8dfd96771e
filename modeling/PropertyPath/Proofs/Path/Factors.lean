import PropertyPath.Proofs.Path.Formed
import PropertyPath.Proofs.Path.Marking

/-!
# Letter sets are exact

Each letter that a set of a path lists is needed: it comes first, comes last or is followed in some
word of the path. For a sequence a word of each item has to be found that goes with the words of the
other items, and there is one since every alternative has an item. Two letters that follow each
other in a sequence or in a loop do so in one of the parts, or where two of them meet.
-/
namespace PropertyPath
open scoped Computability

section split
variable {α : Type} {p q : α} {u v x y : List α}

/-- Two neighbours in two words put together are neighbours in one of them, or meet between them. -/
theorem neighbours_append (h : u ++ p :: q :: v = x ++ y) : (∃ s, x = u ++ p :: q :: s) ∨
    (x = u ++ [p] ∧ y = q :: v) ∨ ∃ s, y = s ++ p :: q :: v := by
  rcases List.append_eq_append_iff.mp h with ⟨s, rfl, hs⟩ | ⟨s, rfl, rfl⟩
  · cases s with
    | nil => exact Or.inr (Or.inr ⟨[], hs.symm⟩)
    | cons r s =>
        rw [List.cons_append, List.cons.injEq] at hs
        obtain ⟨rfl, hs⟩ := hs
        cases s with
        | nil => exact Or.inr (Or.inl ⟨rfl, hs.symm⟩)
        | cons r s =>
            rw [List.cons_append, List.cons.injEq] at hs
            obtain ⟨rfl, _⟩ := hs
            exact Or.inl ⟨s, rfl⟩
  · exact Or.inr (Or.inr ⟨s, rfl⟩)

/-- The last letter of two words put together is the last one of the second word, unless that is
empty. -/
theorem last_append (h : u ++ [p] = x ++ y) : (x = u ++ [p] ∧ y = []) ∨ ∃ s, y = s ++ [p] := by
  rcases List.eq_nil_or_concat' y with rfl | ⟨s, r, rfl⟩
  · exact Or.inl ⟨by simpa using h.symm, rfl⟩
  · rw [← List.append_assoc] at h
    exact Or.inr ⟨s, by rw [List.append_inj_right' h rfl]⟩

end split

section words
variable {L M : Language StateName} {p q : StateName}

/-- Some word of the language begins with the letter. -/
def Begins (L : Language StateName) (p : StateName) : Prop := ∃ v, p :: v ∈ L

/-- Some word of the language ends with the letter. -/
def Finishes (L : Language StateName) (p : StateName) : Prop := ∃ u, u ++ [p] ∈ L

/-- The second letter comes right after the first one in some word of the language. -/
def Neighbours (L : Language StateName) (p q : StateName) : Prop := ∃ u v, u ++ p :: q :: v ∈ L

/-- The letter is in some word of the language. -/
def Occurs (L : Language StateName) (p : StateName) : Prop := ∃ w ∈ L, p ∈ w

section mul

theorem begins_mul (hM : ∃ w, w ∈ M) : Begins (L * M) p ↔ Begins L p ∨ [] ∈ L ∧ Begins M p := by
  constructor
  · rintro ⟨v, x, hx, y, hy, hxy⟩
    cases x with
    | nil =>
        obtain rfl : y = p :: v := hxy
        exact Or.inr ⟨hx, v, hy⟩
    | cons r x =>
        obtain ⟨rfl, _⟩ := List.cons.inj hxy
        exact Or.inl ⟨x, hx⟩
  · rintro (⟨v, hv⟩ | ⟨hnil, v, hv⟩)
    · obtain ⟨w, hw⟩ := hM
      exact ⟨v ++ w, Language.append_mem_mul hv hw⟩
    · exact ⟨v, Language.append_mem_mul hnil hv⟩

theorem finishes_mul (hL : ∃ w, w ∈ L) :
    Finishes (L * M) p ↔ ([] ∈ M ∧ Finishes L p) ∨ Finishes M p := by
  constructor
  · rintro ⟨u, x, hx, y, hy, hxy⟩
    rcases last_append hxy.symm with ⟨rfl, rfl⟩ | ⟨s, rfl⟩
    · exact Or.inl ⟨hy, u, hx⟩
    · exact Or.inr ⟨s, hy⟩
  · rintro (⟨hnil, u, hu⟩ | ⟨u, hu⟩)
    · exact ⟨u, by simpa using Language.append_mem_mul hu hnil⟩
    · obtain ⟨w, hw⟩ := hL
      exact ⟨w ++ u, by simpa using Language.append_mem_mul hw hu⟩

theorem neighbours_mul (hL : ∃ w, w ∈ L) (hM : ∃ w, w ∈ M) :
    Neighbours (L * M) p q ↔ Neighbours L p q ∨ (Finishes L p ∧ Begins M q) ∨ Neighbours M p q := by
  constructor
  · rintro ⟨u, v, x, hx, y, hy, hxy⟩
    rcases neighbours_append hxy.symm with ⟨s, rfl⟩ | ⟨rfl, rfl⟩ | ⟨s, rfl⟩
    · exact Or.inl ⟨u, s, hx⟩
    · exact Or.inr (Or.inl ⟨⟨u, hx⟩, v, hy⟩)
    · exact Or.inr (Or.inr ⟨s, v, hy⟩)
  · rintro (⟨u, v, huv⟩ | ⟨⟨u, hu⟩, v, hv⟩ | ⟨u, v, huv⟩)
    · obtain ⟨w, hw⟩ := hM
      exact ⟨u, v ++ w, by simpa using Language.append_mem_mul huv hw⟩
    · exact ⟨u, v, by simpa using Language.append_mem_mul hu hv⟩
    · obtain ⟨w, hw⟩ := hL
      exact ⟨w ++ u, v, by simpa using Language.append_mem_mul hw huv⟩

theorem occurs_mul (hL : ∃ w, w ∈ L) (hM : ∃ w, w ∈ M) :
    Occurs (L * M) p ↔ Occurs L p ∨ Occurs M p := by
  constructor
  · rintro ⟨_, ⟨x, hx, y, hy, rfl⟩, hp⟩
    exact (List.mem_append.mp hp).imp (fun hp => ⟨x, hx, hp⟩) fun hp => ⟨y, hy, hp⟩
  · rintro (⟨x, hx, hp⟩ | ⟨y, hy, hp⟩)
    · obtain ⟨w, hw⟩ := hM
      exact ⟨_, Language.append_mem_mul hx hw, List.mem_append_left _ hp⟩
    · obtain ⟨w, hw⟩ := hL
      exact ⟨_, Language.append_mem_mul hw hy, List.mem_append_right _ hp⟩

end mul

section kstar

theorem begins_kstar : Begins L∗ p ↔ Begins L p := by
  constructor
  · rintro ⟨v, hv⟩
    obtain ⟨ws, hws, hwords⟩ := Language.mem_kstar_iff_exists_nonempty.mp hv
    cases ws with
    | nil => cases hws
    | cons w ws =>
        obtain ⟨hw, hne⟩ := hwords w List.mem_cons_self
        cases w with
        | nil => exact absurd rfl hne
        | cons r w =>
            obtain ⟨rfl, _⟩ := List.cons.inj hws
            exact ⟨w, hw⟩
  · exact fun ⟨v, hv⟩ => ⟨v, (le_kstar : L ≤ L∗) hv⟩

theorem finishes_kstar : Finishes L∗ p ↔ Finishes L p := by
  constructor
  · rintro ⟨u, hu⟩
    obtain ⟨ws, hws, hwords⟩ := Language.mem_kstar.mp hu
    induction ws generalizing u with
    | nil => simp at hws
    | cons w ws ih =>
        obtain ⟨hw, hrest⟩ := List.forall_mem_cons.mp hwords
        rcases last_append hws with ⟨rfl, _⟩ | ⟨s, hs⟩
        · exact ⟨u, hw⟩
        · exact ih s (hs ▸ Language.join_mem_kstar hrest) hs.symm hrest
  · exact fun ⟨u, hu⟩ => ⟨u, (le_kstar : L ≤ L∗) hu⟩

/-- Two neighbours in a repeated word are neighbours in a word, or one word ends with the first of
them and another one begins with the second. -/
theorem neighbours_kstar : Neighbours L∗ p q ↔ Neighbours L p q ∨ (Finishes L p ∧ Begins L q) := by
  constructor
  · rintro ⟨u, v, huv⟩
    obtain ⟨ws, hws, hwords⟩ := Language.mem_kstar.mp huv
    clear huv
    induction ws generalizing u with
    | nil => simp at hws
    | cons w ws ih =>
        obtain ⟨hw, hrest⟩ := List.forall_mem_cons.mp hwords
        rcases neighbours_append hws with ⟨s, rfl⟩ | ⟨rfl, hv⟩ | ⟨s, hs⟩
        · exact Or.inl ⟨u, s, hw⟩
        · exact Or.inr ⟨⟨u, hw⟩, begins_kstar.mp ⟨v, hv ▸ Language.join_mem_kstar hrest⟩⟩
        · exact ih s hs.symm hrest
  · rintro (⟨u, v, huv⟩ | ⟨⟨u, hu⟩, v, hv⟩)
    · exact ⟨u, v, (le_kstar : L ≤ L∗) huv⟩
    · refine ⟨u, v, ?_⟩
      have hmem : [u ++ [p], q :: v].flatten ∈ L∗ := Language.join_mem_kstar (by simp [hu, hv])
      simpa using hmem

theorem occurs_kstar : Occurs L∗ p ↔ Occurs L p := by
  constructor
  · rintro ⟨w, hw, hp⟩
    obtain ⟨ws, rfl, hwords⟩ := Language.mem_kstar.mp hw
    obtain ⟨x, hx, hp⟩ := List.mem_flatten.mp hp
    exact ⟨x, hwords x hx, hp⟩
  · exact fun ⟨w, hw, hp⟩ => ⟨w, (le_kstar : L ≤ L∗) hw, hp⟩

end kstar

/-- Which letters come first or last, follow each other or occur does not depend on the empty
word. -/
theorem factors_congr (h : ∀ w ≠ [], w ∈ L ↔ w ∈ M) : (∀ p, Begins L p ↔ Begins M p) ∧
    (∀ p, Finishes L p ↔ Finishes M p) ∧ (∀ p q, Neighbours L p q ↔ Neighbours M p q) ∧
      ∀ p, Occurs L p ↔ Occurs M p := by
  refine ⟨fun p => ?_, fun p => ?_, fun p q => ?_, fun p => ?_⟩
  · exact exists_congr fun v => h _ (List.cons_ne_nil p v)
  · exact exists_congr fun u => h _ (List.append_ne_nil_of_right_ne_nil u (List.cons_ne_nil p []))
  · exact exists_congr fun u => exists_congr fun v =>
      h _ (List.append_ne_nil_of_right_ne_nil u (List.cons_ne_nil p (q :: v)))
  · exact exists_congr fun w => and_congr_left fun hp => h w (List.ne_nil_of_mem hp)

end words

namespace LetterSets
variable {A B : LetterSets} {L M : Language StateName}

/-- The sets are those of the words of a language, with nothing missing and nothing that no word
needs. -/
structure Exact (A : LetterSets) (L : Language StateName) : Prop where
  nil : A.nullable = true ↔ [] ∈ L
  first : ∀ p, p ∈ A.first ↔ Begins L p
  last : ∀ p, p ∈ A.last ↔ Finishes L p
  follow : ∀ p q, (p, q) ∈ A.follow ↔ Neighbours L p q
  positions : ∀ p, p ∈ A.positions ↔ Occurs L p

theorem exact_none : none.Exact 0 where
  nil := by simp [none]
  first _ := iff_of_false nofun nofun
  last _ := iff_of_false nofun nofun
  follow _ _ := iff_of_false nofun nofun
  positions _ := iff_of_false nofun nofun

theorem exact_empty : empty.Exact 1 where
  nil := by simp [empty]
  first _ := by simp [empty, Begins]
  last _ := by simp [empty, Finishes]
  follow _ _ := by simp [empty, Neighbours]
  positions _ := by simp [empty, Occurs]

theorem exact_letter (p : StateName) (nullable : Bool) :
    (letter p nullable).Exact (letterWords p nullable) where
  nil := by simp [letter, mem_letterWords]
  first q := by simp [letter, Begins, mem_letterWords]
  last q := by simp [letter, Finishes, mem_letterWords, List.append_eq_singleton_iff]
  follow q r := by simp [letter, Neighbours, mem_letterWords, List.append_eq_singleton_iff]
  positions q := by simp [letter, Occurs, mem_letterWords]

theorem Exact.append (hA : A.Exact L) (hB : B.Exact M) (hL : ∃ w, w ∈ L) (hM : ∃ w, w ∈ M) :
    (A.append B).Exact (L * M) where
  nil := by
    rw [Language.mem_mul]
    simp [LetterSets.append, hA.nil, hB.nil]
  first p := by
    rw [begins_mul hM, ← hA.nil, ← hA.first, ← hB.first]
    by_cases hnull : A.nullable = true <;> simp [LetterSets.append, hnull]
  last p := by
    rw [finishes_mul hL, ← hB.nil, ← hA.last, ← hB.last]
    by_cases hnull : B.nullable = true <;> simp [LetterSets.append, hnull]
  follow p q := by
    rw [neighbours_mul hL hM, ← hA.follow, ← hA.last, ← hB.first, ← hB.follow]
    simp [LetterSets.append]
  positions p := by
    rw [occurs_mul hL hM, ← hA.positions, ← hB.positions]
    exact List.mem_append

theorem Exact.union (hA : A.Exact L) (hB : B.Exact M) : (A.union B).Exact (L + M) where
  nil := by
    rw [Language.mem_add, ← hA.nil, ← hB.nil]
    simp [LetterSets.union]
  first p := by
    simp only [LetterSets.union, List.mem_append, hA.first, hB.first, Begins,
      Language.mem_add, exists_or]
  last p := by
    simp only [LetterSets.union, List.mem_append, hA.last, hB.last, Finishes,
      Language.mem_add, exists_or]
  follow p q := by
    simp only [LetterSets.union, List.mem_append, hA.follow, hB.follow, Neighbours,
      Language.mem_add, exists_or]
  positions p := by
    simp only [LetterSets.union, List.mem_append, hA.positions, hB.positions, Occurs,
      Language.mem_add, or_and_right,
      exists_or]

theorem Exact.loop (hA : A.Exact L) (kind : Closure) : (A.loop kind).Exact (kind.language L) := by
  have hnil : (A.loop kind).nullable = true ↔ [] ∈ kind.language L := by
    rw [Closure.nil_mem_language, ← hA.nil]
    simp [LetterSets.loop]
  by_cases hkind : kind.repeats = true
  · obtain ⟨hfirst, hlast, hfollow, hpositions⟩ :=
      factors_congr fun w (hw : w ≠ []) => Closure.mem_language_of_repeats hkind (L := L) hw
    refine ⟨hnil, fun p => ?_, fun p => ?_, fun p q => ?_, fun p => ?_⟩
    · rw [hfirst, begins_kstar, ← hA.first]
      rfl
    · rw [hlast, finishes_kstar, ← hA.last]
      rfl
    · rw [hfollow, neighbours_kstar, ← hA.follow, ← hA.last, ← hA.first]
      simp [LetterSets.loop, hkind]
    · rw [hpositions, occurs_kstar, ← hA.positions]
      rfl
  · cases kind with
    | zeroOrMore => exact absurd rfl hkind
    | oneOrMore => exact absurd rfl hkind
    | zeroOrOne =>
        obtain ⟨hfirst, hlast, hfollow, hpositions⟩ :=
          factors_congr fun w (hw : w ≠ []) => Closure.mem_language_zeroOrOne (L := L) hw
        refine ⟨hnil, fun p => ?_, fun p => ?_, fun p q => ?_, fun p => ?_⟩
        · rw [hfirst, ← hA.first]
          rfl
        · rw [hlast, ← hA.last]
          rfl
        · rw [hfollow, ← hA.follow]
          simp [LetterSets.loop, Closure.repeats]
        · rw [hpositions, ← hA.positions]
          rfl

end LetterSets

namespace PathTree

theorem exact_markCases :
    MarkCases (fun _ t m => t.Formed → m.sets.Exact m.language ∧ ∃ w ∈ m.language, w ≠ [])
      fun _ ts ms => (∀ t ∈ ts, t.Formed) →
        ((Marked.setsOfSequence ms).Exact (Marked.languageOfSequence ms) ∧
            ∃ w ∈ Marked.languageOfSequence ms, ts ≠ [] → w ≠ []) ∧
          (Marked.setsOfAny ms).Exact (Marked.languageOfAny ms) ∧
            (ts ≠ [] → ∃ w ∈ Marked.languageOfAny ms, w ≠ []) where
  property _ _ _ := ⟨LetterSets.exact_letter _ _, [_], Or.inl rfl, List.cons_ne_nil _ _⟩
  closure _ _ _ _ := ⟨LetterSets.exact_letter _ _, [_], Or.inl rfl, List.cons_ne_nil _ _⟩
  sequence _ _ _ _ h hformed := by
    obtain ⟨hitems, hne⟩ := throughout_sequence.mp hformed
    obtain ⟨⟨hexact, w, hw, hletter⟩, _⟩ := h hitems
    exact ⟨hexact, w, hw, hletter hne⟩
  alternative _ _ _ _ h hformed := by
    obtain ⟨hitems, hne⟩ := throughout_alternative.mp hformed
    obtain ⟨_, hexact, hword⟩ := h hitems
    exact ⟨hexact, hword hne⟩
  nil _ _ := ⟨⟨LetterSets.exact_empty, [], rfl, absurd rfl⟩, LetterSets.exact_none, absurd rfl⟩
  cons _ _ _ _ _ _ hfirst hrest hformed := by
    obtain ⟨hformed, hformed'⟩ := List.forall_mem_cons.mp hformed
    obtain ⟨hexact, v, hv, hletter⟩ := hfirst hformed
    obtain ⟨⟨hsequence, w, hw, _⟩, hany, _⟩ := hrest hformed'
    refine ⟨⟨hexact.append hsequence ⟨v, hv⟩ ⟨w, hw⟩, v ++ w,
      Language.append_mem_mul hv hw, fun _ => ?_⟩,
      hexact.union hany, fun _ => ⟨v, Or.inl hv, hletter⟩⟩
    exact List.append_ne_nil_of_left_ne_nil hletter w

/-- The sets of a path that has something in each of its nodes are exact, and the path reads some
letter. -/
theorem exact_mark {k : Nat} {t : PathTree} (hformed : t.Formed) {m : Marked}
    (h : t.mark k = .ok m) :
    m.sets.Exact m.language ∧ ∃ w ∈ m.language, w ≠ [] := exact_markCases.mark h hformed

end PathTree

end PropertyPath
