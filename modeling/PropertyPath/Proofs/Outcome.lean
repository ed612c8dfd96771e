import Mathlib.Data.List.Forall2

/-!
# Outcomes of computations that may be refused
-/
namespace PropertyPath
universe u

variable {ε α β : Type u}

/-- A computation in two parts succeeds exactly when both of its parts do. -/
@[simp] theorem bind_eq_ok_iff {m : Except ε α} {f : α → Except ε β} {b : β} :
    (m >>= f) = .ok b ↔ ∃ a, m = .ok a ∧ f a = .ok b := by
  cases m with
  | error e => exact ⟨nofun, nofun⟩
  | ok a =>
      constructor
      · intro h
        exact ⟨a, rfl, h⟩
      · intro hgiven
        rcases hgiven with ⟨_, ha, h⟩
        cases ha
        exact h

/-- A check succeeds in one way only. -/
theorem check_bind_eq_ok_iff {ε β : Type} {m : Except ε Unit} {f : Unit → Except ε β} {b : β} :
    (m >>= f) = .ok b ↔ m = .ok () ∧ f () = .ok b := by
  rw [bind_eq_ok_iff]
  constructor
  · intro h
    rcases h with ⟨_, hm, hf⟩
    exact ⟨hm, hf⟩
  · intro h
    rcases h with ⟨hm, hf⟩
    exact ⟨(), hm, hf⟩

/-- What is refused after a check is refused by the check or after it. -/
theorem check_bind_eq_error_iff {ε β : Type} {m : Except ε Unit} {f : Unit → Except ε β} {e : ε} :
    (m >>= f) = .error e ↔ m = .error e ∨ m = .ok () ∧ f () = .error e := by
  cases m with
  | error e' =>
      constructor
      · intro h
        cases h
        exact Or.inl rfl
      · intro hrefused
        rcases hrefused with h | ⟨h, _⟩
        · cases h
          rfl
        · cases h
  | ok a =>
      constructor
      · intro h
        exact Or.inr ⟨rfl, h⟩
      · intro hrefused
        rcases hrefused with h | ⟨_, h⟩
        · cases h
        · exact h

@[simp] theorem pure_eq_ok_iff {a b : α} : (pure a : Except ε α) = .ok b ↔ a = b := by
  constructor
  · intro h
    cases h
    rfl
  · intro heq
    subst heq
    rfl

theorem mem_mapM {f : α → Except ε β} {as : List α} {bs : List β} (h : as.mapM f = .ok bs) {b : β} :
    b ∈ bs ↔ ∃ a ∈ as, f a = .ok b := by
  induction as generalizing bs with
  | nil =>
      cases h
      simp
  | cons a as ih =>
      rw [List.mapM_cons] at h
      simp only [bind_eq_ok_iff, pure_eq_ok_iff] at h
      obtain ⟨b', hb', bs', hbs', rfl⟩ := h
      simp only [List.mem_cons, ih hbs', exists_eq_or_imp, hb', Except.ok.injEq]
      rw [eq_comm]

theorem mapM_ne_nil {f : α → Except ε β} {as : List α} {bs : List β} (hne : as ≠ [])
    (h : as.mapM f = .ok bs) : bs ≠ [] := by
  cases as with
  | nil => exact absurd rfl hne
  | cons a as =>
      rw [List.mapM_cons] at h
      simp only [bind_eq_ok_iff, pure_eq_ok_iff] at h
      obtain ⟨b, _, bs', _, rfl⟩ := h
      exact List.cons_ne_nil b bs'

theorem exists_mapM {f : α → Except ε β} {as : List α} (h : ∀ a ∈ as, ∃ b, f a = .ok b) :
    ∃ bs, as.mapM f = .ok bs := by
  induction as with
  | nil => exact ⟨[], rfl⟩
  | cons a as ih =>
      obtain ⟨⟨b, hb⟩, has⟩ := List.forall_mem_cons.mp h
      obtain ⟨bs, hbs⟩ := ih has
      refine ⟨b :: bs, ?_⟩
      rw [List.mapM_cons, hb, hbs]
      rfl

/-- A computation on each element gives the results one by one. -/
theorem mapM_eq_ok_iff {f : α → Except ε β} {as : List α} {bs : List β} :
    as.mapM f = .ok bs ↔ List.Forall₂ (fun a b => f a = .ok b) as bs := by
  induction as generalizing bs with
  | nil =>
      rw [List.mapM_nil, pure_eq_ok_iff, List.forall₂_nil_left_iff, eq_comm]
  | cons a as ih =>
      rw [List.mapM_cons]
      simp only [bind_eq_ok_iff, pure_eq_ok_iff, ih]
      constructor
      · intro h
        obtain ⟨b, hb, bs', hbs', rfl⟩ := h
        exact List.Forall₂.cons hb hbs'
      · intro h
        cases h with
        | cons hb hbs => exact ⟨_, hb, _, hbs, rfl⟩

theorem exists_related_of_mem {R : α → β → Prop} {as : List α} {bs : List β}
    (h : List.Forall₂ R as bs) {a : α} (ha : a ∈ as) : ∃ b ∈ bs, R a b := by
  induction h with
  | nil => cases ha
  | cons hab _ ih =>
      rcases List.mem_cons.mp ha with rfl | ha
      · exact ⟨_, List.mem_cons_self, hab⟩
      · obtain ⟨b, hb, hrelated⟩ := ih ha
        exact ⟨b, List.mem_cons_of_mem _ hb, hrelated⟩

end PropertyPath
