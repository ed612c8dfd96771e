import Mathlib.Data.List.Dedup
import Mathlib.Data.List.Perm.Subperm

/-!
# Lists without repeats

What removing repeats from a list leaves: each element once, and in the order in which they first
appear.
-/
namespace PropertyPath

/-- The elements of the second list, each once and in the order in which they first appear there. -/
structure FirstAppearances {α : Type} (us ts : List α) : Prop where
  nodup : us.Nodup
  mem : ∀ u, u ∈ us ↔ u ∈ ts
  ordered : us.Pairwise fun u v => ∃ before after, ts = before ++ after ∧ u ∈ before ∧ v ∉ before

section eraseDups
variable {α : Type} [BEq α]

/-- Removing repeats goes on with what differs from the first element. -/
@[elab_as_elim]
theorem eraseDups_induction {motive : List α → Prop} (nil : motive [])
    (cons : ∀ s l, motive (l.filter fun b => !b == s) → motive (s :: l)) (l : List α) : motive l :=
  match l with
  | [] => nil
  | s :: l => cons s l (eraseDups_induction nil cons (l.filter fun b => !b == s))
termination_by l.length
decreasing_by exact Nat.lt_succ_of_le (List.length_filter_le _ l)

variable [LawfulBEq α]

theorem nodup_eraseDups (l : List α) : l.eraseDups.Nodup := by
  induction l using eraseDups_induction with
  | nil => exact List.nodup_nil
  | cons s l ih =>
      rw [List.eraseDups_cons, List.nodup_cons]
      exact ⟨by simp [List.mem_eraseDups], ih⟩

/-- A list without repeats is left as it is. -/
theorem eraseDups_eq_self {l : List α} (h : l.Nodup) : l.eraseDups = l := by
  induction l using eraseDups_induction with
  | nil => rfl
  | cons s l ih =>
      obtain ⟨hs, hl⟩ := List.nodup_cons.mp h
      have hothers : (l.filter fun b => !b == s) = l := by
        rw [List.filter_eq_self]
        rintro b hb
        simp only [Bool.not_eq_true', beq_eq_false_iff_ne]
        exact fun heq => hs (heq ▸ hb)
      rw [hothers] at ih
      rw [List.eraseDups_cons, hothers, ih hl]

theorem length_eraseDups_le (l : List α) : l.eraseDups.length ≤ l.length :=
  (List.subperm_of_subset (nodup_eraseDups l) fun _ hu => List.mem_eraseDups.mp hu).length_le

theorem firstAppearances_eraseDups (l : List α) : FirstAppearances l.eraseDups l := by
  refine ⟨nodup_eraseDups l, fun u => List.mem_eraseDups, ?_⟩
  induction l using eraseDups_induction with
  | nil => exact List.Pairwise.nil
  | cons s l ih =>
      rw [List.eraseDups_cons, List.pairwise_cons]
      have hne {v : α} (hv : v ∈ (l.filter fun b => !b == s).eraseDups) : v ≠ s := by
        simpa using (List.mem_filter.mp (List.mem_eraseDups.mp hv)).2
      constructor
      · exact fun v hv => ⟨[s], l, rfl, List.mem_singleton_self s, by simpa using hne hv⟩
      · refine ih.imp_of_mem ?_
        rintro u v _ hv ⟨before, after, hsplit, hu, hnot⟩
        obtain ⟨first, rest, rfl, rfl, _⟩ := List.filter_eq_append_iff.mp hsplit
        refine ⟨s :: first, rest, rfl, List.mem_cons_of_mem s (List.mem_filter.mp hu).1, ?_⟩
        simp only [List.mem_cons, not_or]
        exact ⟨hne hv, fun hmem => hnot (List.mem_filter.mpr ⟨hmem, by simpa using hne hv⟩)⟩

end eraseDups

end PropertyPath
