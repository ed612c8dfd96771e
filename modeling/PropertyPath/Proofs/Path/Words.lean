import PropertyPath.Path.Marked
import PropertyPath.Proofs.Path.Relation

/-!
# Words of letters

Which letters come first, which come last and which may follow each other tells all words that a
marked path reads, provided that no two letters have the same position. A word of a sequence goes
over from one item to the next in one place; a loop does the same with the path itself in the place
of the next item, so one lemma on such a passage serves both.
-/
namespace PropertyPath
open scoped Computability

theorem Closure.nil_mem_language {α : Type} {kind : Closure} {L : Language α} :
    [] ∈ kind.language L ↔ kind.allowsZero = true ∨ [] ∈ L := by
  cases kind with
  | zeroOrMore => exact iff_of_true (Language.nil_mem_kstar L) (Or.inl rfl)
  | oneOrMore =>
      rw [Closure.language, Language.mem_mul]
      simp [Closure.allowsZero, Language.nil_mem_kstar]
  | zeroOrOne => exact iff_of_true (Or.inl rfl) (Or.inl rfl)

/-- Of the words of a closure that repeats, none is missing in the star but perhaps the empty
one. -/
theorem Closure.mem_language_of_repeats {α : Type} {kind : Closure} (hkind : kind.repeats = true)
    {L : Language α} {w : List α} (hw : w ≠ []) : w ∈ kind.language L ↔ w ∈ L∗ := by
  cases kind with
  | zeroOrMore => rfl
  | oneOrMore =>
      have hsplit : w ∈ L∗ ↔ w ∈ 1 + L * L∗ := by rw [one_add_mul_kstar]
      rw [hsplit, Language.mem_add, Language.mem_one]
      exact ⟨Or.inr, fun h => h.resolve_left hw⟩
  | zeroOrOne => cases hkind

theorem Closure.mem_language_zeroOrOne {α : Type} {L : Language α} {w : List α} (hw : w ≠ []) :
    w ∈ Closure.zeroOrOne.language L ↔ w ∈ L := by
  rw [Closure.language, Language.mem_add, Language.mem_one]
  exact ⟨fun h => h.resolve_left hw, Or.inr⟩

/-- What a set of words over some positions begins with, ends with, and lets follow each other. -/
structure LetterSets where
  positions : List StateName
  nullable : Bool
  first : List StateName
  last : List StateName
  follow : List (StateName × StateName)

namespace LetterSets
variable {A B C : LetterSets} {L M : Language StateName}

/-- From a letter on, a word goes from followers to followers and ends with a last letter. -/
def Continues (A : LetterSets) : StateName → List StateName → Prop
  | p, [] => p ∈ A.last
  | p, q :: v => (p, q) ∈ A.follow ∧ Continues A q v

/-- The sets speak of the given positions only and determine the words of a language. -/
structure Describes (A : LetterSets) (L : Language StateName) : Prop where
  first : ∀ p ∈ A.first, p ∈ A.positions
  last : ∀ p ∈ A.last, p ∈ A.positions
  follow : ∀ p q, (p, q) ∈ A.follow → p ∈ A.positions ∧ q ∈ A.positions
  nil : [] ∈ L ↔ A.nullable = true
  cons : ∀ p v, p :: v ∈ L ↔ p ∈ A.first ∧ A.Continues p v

theorem Describes.letters (h : A.Describes L) {w : List StateName} (hw : w ∈ L) :
    ∀ p ∈ w, p ∈ A.positions := by
  have hrest :
      ∀ (v : List StateName) (p : StateName), A.Continues p v → ∀ q ∈ v, q ∈ A.positions := by
    intro v
    induction v with
    | nil => exact fun _ _ => nofun
    | cons q v ih =>
        intro p hcontinues
        exact List.forall_mem_cons.mpr ⟨(h.follow p q hcontinues.1).2, ih q hcontinues.2⟩
  cases w with
  | nil => exact nofun
  | cons p v =>
      obtain ⟨hfirst, hcontinues⟩ := (h.cons p v).mp hw
      exact List.forall_mem_cons.mpr ⟨h.first p hfirst, hrest v p hcontinues⟩

/-- Sets that agree from some positions on let the same words follow. -/
theorem continues_congr {P : StateName → Prop}
    (hfollow : ∀ p, P p → ∀ q, (p, q) ∈ A.follow ↔ (p, q) ∈ B.follow)
    (hlast : ∀ p, P p → (p ∈ A.last ↔ p ∈ B.last)) (hclosed : ∀ p q, (p, q) ∈ B.follow → P q)
    {p : StateName} (hp : P p) (v : List StateName) : A.Continues p v ↔ B.Continues p v := by
  induction v generalizing p with
  | nil => exact hlast p hp
  | cons q v ih =>
      rw [Continues, Continues, hfollow p hp q]
      apply and_congr_right
      intro hpq
      exact ih (hclosed p q hpq)

/-- A word passes over from the letters of `A` to letters that `next` holds of, and goes on with
what `rest` holds of; or it stays with the letters of `A` if it may end there. -/
theorem continues_passage {P next : StateName → Prop} {stops : Prop}
    {rest : StateName → List StateName → Prop}
    (hfollow : ∀ p, P p → ∀ q, (p, q) ∈ C.follow ↔ (p, q) ∈ A.follow ∨ (p ∈ A.last ∧ next q))
    (hlast : ∀ p, P p → (p ∈ C.last ↔ p ∈ A.last ∧ stops))
    (hclosed : ∀ p q, (p, q) ∈ A.follow → P q)
    (hrest : ∀ q, next q → ∀ v, C.Continues q v ↔ rest q v)
    {p : StateName} (hp : P p) (v : List StateName) :
    C.Continues p v ↔ (A.Continues p v ∧ stops) ∨
      ∃ v₁ q v₂, v = v₁ ++ q :: v₂ ∧ A.Continues p v₁ ∧ next q ∧ rest q v₂ := by
  induction v generalizing p with
  | nil =>
      rw [Continues, Continues, hlast p hp]
      simp
  | cons q v ih =>
      rw [Continues, Continues, hfollow p hp q]
      constructor
      · intro h
        rcases h with ⟨hpq | ⟨hend, hnext⟩, hv⟩
        · rcases (ih (hclosed p q hpq)).mp hv with ⟨hstay, hstops⟩ |
            ⟨v₁, r, v₂, rfl, hv₁, hnext, hv₂⟩
          · exact Or.inl ⟨⟨hpq, hstay⟩, hstops⟩
          · exact Or.inr ⟨q :: v₁, r, v₂, rfl, ⟨hpq, hv₁⟩, hnext, hv₂⟩
        · exact Or.inr ⟨[], q, v, rfl, hend, hnext, (hrest q hnext v).mp hv⟩
      · intro h
        rcases h with ⟨⟨hpq, hstay⟩, hstops⟩ | ⟨v₁, r, v₂, hv, hv₁, hnext, hv₂⟩
        · exact ⟨Or.inl hpq, (ih (hclosed p q hpq)).mpr (Or.inl ⟨hstay, hstops⟩)⟩
        · cases v₁ with
          | nil =>
              obtain ⟨rfl, rfl⟩ := List.cons.inj hv
              exact ⟨Or.inr ⟨hv₁, hnext⟩, (hrest q hnext v).mpr hv₂⟩
          | cons u v₁ =>
              obtain ⟨rfl, rfl⟩ := List.cons.inj hv
              obtain ⟨hpq, hv₁⟩ := hv₁
              have hrest' := (ih (hclosed p q hpq)).mpr (Or.inr ⟨v₁, r, v₂, rfl, hv₁, hnext, hv₂⟩)
              exact ⟨Or.inl hpq, hrest'⟩

def none : LetterSets := ⟨[], false, [], [], []⟩

def empty : LetterSets := ⟨[], true, [], [], []⟩

/-- One letter, which may be left out if it is nullable. -/
def letterWords (p : StateName) (nullable : Bool) : Language StateName :=
  {w | w = [p] ∨ (w = [] ∧ nullable = true)}

theorem mem_letterWords {p : StateName} {nullable : Bool} {w : List StateName} :
    w ∈ letterWords p nullable ↔ w = [p] ∨ (w = [] ∧ nullable = true) := Iff.rfl

def letter (p : StateName) (nullable : Bool) : LetterSets := ⟨[p], nullable, [p], [p], []⟩

def append (A B : LetterSets) : LetterSets :=
  ⟨A.positions ++ B.positions, A.nullable && B.nullable,
    A.first ++ (if A.nullable then B.first else []), (if B.nullable then A.last else []) ++ B.last,
    A.follow ++ Marked.pairs A.last B.first ++ B.follow⟩

def union (A B : LetterSets) : LetterSets :=
  ⟨A.positions ++ B.positions, A.nullable || B.nullable, A.first ++ B.first, A.last ++ B.last,
    A.follow ++ B.follow⟩

/-- What is repeated, or may be left out. -/
def loop (kind : Closure) (A : LetterSets) : LetterSets :=
  ⟨A.positions, kind.allowsZero || A.nullable, A.first, A.last,
    A.follow ++ if kind.repeats then Marked.pairs A.last A.first else []⟩

theorem describes_none : none.Describes 0 where
  first := nofun
  last := nofun
  follow := nofun
  nil := by simp [none]
  cons := by simp [none]

theorem describes_empty : empty.Describes 1 where
  first := nofun
  last := nofun
  follow := nofun
  nil := by simp [empty]
  cons := by simp [empty]

theorem describes_letter (p : StateName) (nullable : Bool) :
    (letter p nullable).Describes (letterWords p nullable) where
  first := fun _ h => h
  last := fun _ h => h
  follow := nofun
  nil := by simp [letter, mem_letterWords]
  cons := by
    intro q v
    cases v <;> simp [letter, Continues, mem_letterWords]

section append

/-- After the passage a word knows nothing of the first item. -/
theorem continues_append_right (hA : A.Describes L) (hB : B.Describes M)
    (hdisjoint : ∀ p ∈ A.positions, p ∉ B.positions) {q : StateName} (hq : q ∈ B.positions)
    (v : List StateName) : (A.append B).Continues q v ↔ B.Continues q v := by
  have hnot : ∀ p ∈ B.positions, p ∉ A.last ∧ ∀ q, (p, q) ∉ A.follow := by
    intro p hp
    have hpA := fun h => hdisjoint p h hp
    exact ⟨fun h => hpA (hA.last p h), fun q h => hpA (hA.follow p q h).1⟩
  apply continues_congr (P := fun p => p ∈ B.positions) _ _ (fun p q h => (hB.follow p q h).2) hq
  · intro p hp r
    simp [append, hnot p hp]
  · intro p hp
    by_cases hnull : B.nullable = true <;> simp [append, hnot p hp, hnull]

/-- A word that begins in the first item stays there or passes over to the second. -/
theorem continues_append_left (hA : A.Describes L) (hB : B.Describes M)
    (hdisjoint : ∀ p ∈ A.positions, p ∉ B.positions) {p : StateName} (hp : p ∈ A.positions)
    (v : List StateName) :
    (A.append B).Continues p v ↔ (A.Continues p v ∧ B.nullable = true) ∨
      ∃ v₁ q v₂, v = v₁ ++ q :: v₂ ∧ A.Continues p v₁ ∧ q ∈ B.first ∧ B.Continues q v₂ := by
  have hnot : ∀ p ∈ A.positions, p ∉ B.last ∧ ∀ q, (p, q) ∉ B.follow := by
    intro p hp
    have hpB := hdisjoint p hp
    exact ⟨fun h => hpB (hB.last p h), fun q h => hpB (hB.follow p q h).1⟩
  apply continues_passage
    (P := fun p => p ∈ A.positions) _ _ (fun p q h => (hA.follow p q h).2) _ hp
  · intro p hp q
    simp [append, hnot p hp]
  · intro p hp
    by_cases hnull : B.nullable = true <;> simp [append, hnot p hp, hnull]
  · intro q hq
    exact continues_append_right hA hB hdisjoint (hB.first q hq)

theorem cons_mem_mul_iff (hA : A.Describes L) (hB : B.Describes M)
    (hdisjoint : ∀ p ∈ A.positions, p ∉ B.positions) (p : StateName) (v : List StateName) :
    p :: v ∈ L * M ↔ p ∈ (A.append B).first ∧ (A.append B).Continues p v := by
  have hleft := @continues_append_left _ _ _ _ hA hB hdisjoint
  have hright := @continues_append_right _ _ _ _ hA hB hdisjoint
  rw [Language.mem_mul]
  constructor
  · intro h
    rcases h with ⟨u, hu, w, hw, huw⟩
    cases u with
    | nil =>
        obtain rfl : w = p :: v := huw
        obtain ⟨hp, hv⟩ := (hB.cons p v).mp hw
        have hnull := hA.nil.mp hu
        exact ⟨by simp [append, hnull, hp], (hright (hB.first p hp) v).mpr hv⟩
    | cons r u =>
        obtain ⟨rfl, rfl⟩ := List.cons.inj huw
        obtain ⟨hp, hu⟩ := (hA.cons r u).mp hu
        refine ⟨List.mem_append_left _ hp, (hleft (hA.first r hp) _).mpr ?_⟩
        cases w with
        | nil => exact Or.inl ⟨by simpa using hu, hB.nil.mp hw⟩
        | cons q w =>
            obtain ⟨hq, hw⟩ := (hB.cons q w).mp hw
            exact Or.inr ⟨u, q, w, rfl, hu, hq, hw⟩
  · intro h
    rcases h with ⟨hp, hv⟩
    rcases List.mem_append.mp hp with hp | hp
    · rcases (hleft (hA.first p hp) v).mp hv with ⟨hv, hnull⟩ | ⟨v₁, q, v₂, rfl, hv₁, hq, hv₂⟩
      · exact ⟨p :: v, (hA.cons p v).mpr ⟨hp, hv⟩, [], hB.nil.mpr hnull, List.append_nil _⟩
      · exact ⟨p :: v₁, (hA.cons p v₁).mpr ⟨hp, hv₁⟩, q :: v₂, (hB.cons q v₂).mpr ⟨hq, hv₂⟩, rfl⟩
    · split at hp
      · next hnull =>
          have hv' := (hright (hB.first p hp) v).mp hv
          exact ⟨[], hA.nil.mpr hnull, p :: v, (hB.cons p v).mpr ⟨hp, hv'⟩, rfl⟩
      · cases hp

theorem Describes.append (hA : A.Describes L) (hB : B.Describes M)
    (hdisjoint : ∀ p ∈ A.positions, p ∉ B.positions) : (A.append B).Describes (L * M) where
  first p hp := by
    rcases List.mem_append.mp hp with hp | hp
    · exact List.mem_append_left _ (hA.first p hp)
    · split at hp
      · exact List.mem_append_right _ (hB.first p hp)
      · cases hp
  last p hp := by
    rcases List.mem_append.mp hp with hp | hp
    · split at hp
      · exact List.mem_append_left _ (hA.last p hp)
      · cases hp
    · exact List.mem_append_right _ (hB.last p hp)
  follow p q hpq := by
    rcases List.mem_append.mp hpq with hpq | hpq
    · rcases List.mem_append.mp hpq with hpq | hpq
      · obtain ⟨hp, hq⟩ := hA.follow p q hpq
        exact ⟨List.mem_append_left _ hp, List.mem_append_left _ hq⟩
      · obtain ⟨hp, hq⟩ := Marked.mem_pairs.mp hpq
        exact ⟨List.mem_append_left _ (hA.last p hp), List.mem_append_right _ (hB.first q hq)⟩
    · obtain ⟨hp, hq⟩ := hB.follow p q hpq
      exact ⟨List.mem_append_right _ hp, List.mem_append_right _ hq⟩
  nil := by
    rw [Language.mem_mul]
    simp [LetterSets.append, hA.nil, hB.nil]
  cons := cons_mem_mul_iff hA hB hdisjoint

end append

theorem Describes.union (hA : A.Describes L) (hB : B.Describes M)
    (hdisjoint : ∀ p ∈ A.positions, p ∉ B.positions) : (A.union B).Describes (L + M) where
  first p hp := List.mem_append.mpr ((List.mem_append.mp hp).imp (hA.first p) (hB.first p))
  last p hp := List.mem_append.mpr ((List.mem_append.mp hp).imp (hA.last p) (hB.last p))
  follow p q hpq := by
    rcases List.mem_append.mp hpq with hpq | hpq
    · obtain ⟨hp, hq⟩ := hA.follow p q hpq
      exact ⟨List.mem_append_left _ hp, List.mem_append_left _ hq⟩
    · obtain ⟨hp, hq⟩ := hB.follow p q hpq
      exact ⟨List.mem_append_right _ hp, List.mem_append_right _ hq⟩
  nil := by
    rw [Language.mem_add, hA.nil, hB.nil]
    simp [LetterSets.union]
  cons p v := by
    have hleft : ∀ p ∈ A.positions, (A.union B).Continues p v ↔ A.Continues p v := by
      intro p hp
      apply continues_congr
        (P := fun p => p ∈ A.positions) _ _ (fun p q h => (hA.follow p q h).2) hp
      · intro p hp q
        have hnot : (p, q) ∉ B.follow := fun h => hdisjoint p hp (hB.follow p q h).1
        simp [LetterSets.union, hnot]
      · intro p hp
        have hnot : p ∉ B.last := fun h => hdisjoint p hp (hB.last p h)
        simp [LetterSets.union, hnot]
    have hright : ∀ p ∈ B.positions, (A.union B).Continues p v ↔ B.Continues p v := by
      intro p hp
      apply continues_congr
        (P := fun p => p ∈ B.positions) _ _ (fun p q h => (hB.follow p q h).2) hp
      · intro p hp q
        have hnot : (p, q) ∉ A.follow := fun h => hdisjoint p (hA.follow p q h).1 hp
        simp [LetterSets.union, hnot]
      · intro p hp
        have hnot : p ∉ A.last := fun h => hdisjoint p (hA.last p h) hp
        simp [LetterSets.union, hnot]
    rw [Language.mem_add, hA.cons, hB.cons]
    constructor
    · intro hcase
      rcases hcase with ⟨hp, hv⟩ | ⟨hp, hv⟩
      · exact ⟨List.mem_append_left _ hp, (hleft p (hA.first p hp)).mpr hv⟩
      · exact ⟨List.mem_append_right _ hp, (hright p (hB.first p hp)).mpr hv⟩
    · intro hgiven
      rcases hgiven with ⟨hp, hv⟩
      rcases List.mem_append.mp hp with hp | hp
      · exact Or.inl ⟨hp, (hleft p (hA.first p hp)).mp hv⟩
      · exact Or.inr ⟨hp, (hright p (hB.first p hp)).mp hv⟩

section loop
variable {kind : Closure}

/-- A repeated word is a word and, unless it ends there, a repeated word after it. -/
theorem continues_repeated (hkind : kind.repeats = true) (p : StateName) (v : List StateName) :
    (A.loop kind).Continues p v ↔ A.Continues p v ∨ ∃ v₁ q v₂, v = v₁ ++ q :: v₂ ∧
      A.Continues p v₁ ∧ q ∈ A.first ∧ (A.loop kind).Continues q v₂ := by
  have hfollow :
      ∀ p q, (p, q) ∈ (A.loop kind).follow ↔ (p, q) ∈ A.follow ∨ (p ∈ A.last ∧ q ∈ A.first) := by
    intro p q
    simp [loop, hkind]
  have hpassage : (A.loop kind).Continues p v ↔ (A.Continues p v ∧ True) ∨ ∃ v₁ q v₂,
      v = v₁ ++ q :: v₂ ∧ A.Continues p v₁ ∧ q ∈ A.first ∧ (A.loop kind).Continues q v₂ := by
    apply continues_passage (P := fun _ => True) (fun p _ => hfollow p) _ (fun _ _ _ => trivial)
      (fun _ _ _ => Iff.rfl) trivial
    exact fun p _ => (and_iff_left trivial).symm
  rwa [and_iff_left trivial] at hpassage

theorem cons_mem_kstar_iff (hA : A.Describes L) (hkind : kind.repeats = true) (p : StateName)
    (v : List StateName) : p :: v ∈ L∗ ↔ p ∈ A.first ∧ (A.loop kind).Continues p v := by
  constructor
  · intro h
    obtain ⟨ws, hws, hwords⟩ := Language.mem_kstar_iff_exists_nonempty.mp h
    induction ws generalizing p v with
    | nil => cases hws
    | cons w ws ih =>
        rw [List.forall_mem_cons] at hwords
        obtain ⟨⟨hw, hnonempty⟩, hrest⟩ := hwords
        cases w with
        | nil => exact absurd rfl hnonempty
        | cons r u =>
            obtain ⟨rfl, rfl⟩ := List.cons.inj hws
            obtain ⟨hp, hu⟩ := (hA.cons p u).mp hw
            refine ⟨hp, (continues_repeated hkind p _).mpr ?_⟩
            cases hflat : ws.flatten with
            | nil => exact Or.inl (by simpa using hu)
            | cons q v₂ =>
                have hmem := Language.join_mem_kstar fun w hw => (hrest w hw).1
                rw [hflat] at hmem
                obtain ⟨hq, hv₂⟩ := ih q v₂ hmem hflat.symm hrest
                exact Or.inr ⟨u, q, v₂, rfl, hu, hq, hv₂⟩
  · intro hgiven
    rcases hgiven with ⟨hp, hv⟩
    induction hn : v.length using Nat.strong_induction_on generalizing p v with
    | h n ih =>
        rcases (continues_repeated hkind p v).mp hv with hv | ⟨v₁, q, v₂, rfl, hv₁, hq, hv₂⟩
        · exact (le_kstar : L ≤ L∗) ((hA.cons p v).mpr ⟨hp, hv⟩)
        · have hlt : v₂.length < n := by
            simp only [List.length_append, List.length_cons] at hn
            omega
          have hrest := ih v₂.length hlt q v₂ hq hv₂ rfl
          rw [← Language.one_add_self_mul_kstar_eq_kstar]
          exact Or.inr ⟨p :: v₁, (hA.cons p v₁).mpr ⟨hp, hv₁⟩, q :: v₂, hrest, rfl⟩

theorem Describes.loop (hA : A.Describes L) (kind : Closure) :
    (A.loop kind).Describes (kind.language L) where
  first := hA.first
  last := hA.last
  follow p q hpq := by
    rcases List.mem_append.mp hpq with hpq | hpq
    · exact hA.follow p q hpq
    · split at hpq
      · obtain ⟨hp, hq⟩ := Marked.mem_pairs.mp hpq
        exact ⟨hA.last p hp, hA.first q hq⟩
      · cases hpq
  nil := by
    rw [Closure.nil_mem_language, hA.nil]
    simp [LetterSets.loop]
  cons p v := by
    by_cases hkind : kind.repeats = true
    · rw [Closure.mem_language_of_repeats hkind (List.cons_ne_nil p v)]
      exact cons_mem_kstar_iff hA hkind p v
    · cases kind with
      | zeroOrMore => exact absurd rfl hkind
      | oneOrMore => exact absurd rfl hkind
      | zeroOrOne =>
          have hcontinues : (A.loop .zeroOrOne).Continues p v ↔ A.Continues p v := by
            apply continues_congr (P := fun _ => True) _ _ (fun _ _ _ => trivial) trivial
            · intro p _ q
              simp [LetterSets.loop, Closure.repeats]
            · exact fun _ _ => Iff.rfl
          rw [Closure.mem_language_zeroOrOne (List.cons_ne_nil p v), hA.cons, hcontinues]
          rfl

end loop

end LetterSets

end PropertyPath
