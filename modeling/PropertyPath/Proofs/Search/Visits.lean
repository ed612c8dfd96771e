import PropertyPath.Proofs.Outcome
import PropertyPath.Search.Configuration

/-!
# What visits remember

Visits only grow: what has been reached stays reached, and the configurations that are reported as
new are those that have come in, each of them once. When nothing limits them, visits are never
refused.
-/
namespace PropertyPath.Visits

/-- `w` is what has become of `v` when the given configurations were new, one after the other. -/
structure Grows (v : Visits) (fresh : List Configuration) (w : Visits) : Prop where
  reached : w.reached = (fresh.map Configuration.key).reverse ++ v.reached
  delivered : w.delivered = v.delivered
  limit : w.limit = v.limit
  nodup : v.reached.Nodup → w.reached.Nodup

variable {u v w : Visits} {fresh later : List Configuration}

theorem Grows.refl (v : Visits) : v.Grows [] v := ⟨rfl, rfl, rfl, id⟩

theorem Grows.trans (h : u.Grows fresh v) (h' : v.Grows later w) : u.Grows (fresh ++ later) w where
  reached := by rw [h'.reached, h.reached, List.map_append, List.reverse_append, List.append_assoc]
  delivered := h'.delivered.trans h.delivered
  limit := h'.limit.trans h.limit
  nodup hu := h'.nodup (h.nodup hu)

theorem Grows.mem_reached (h : v.Grows fresh w) {k : Term × Term × StateName} :
    k ∈ w.reached ↔ (∃ c ∈ fresh, c.key = k) ∨ k ∈ v.reached := by
  rw [h.reached, List.mem_append, List.mem_reverse, List.mem_map]

theorem Grows.subset (h : v.Grows fresh w) : v.reached ⊆ w.reached :=
  fun _ hk => h.mem_reached.mpr (Or.inr hk)

theorem visit_eq_ok_iff {c : Configuration} {new : Bool} : v.visit c = (w, .ok new) ↔
    (c.key ∈ v.reached ∧ w = v ∧ new = false) ∨
      (c.key ∉ v.reached ∧ (v.add c).checkLimit = .ok () ∧ w = v.add c ∧ new = true) := by
  by_cases hc : c.key ∈ v.reached
  · rw [visit, if_pos hc, Prod.mk.injEq, Except.ok.injEq]
    simp [hc, eq_comm]
  · rw [visit, if_neg hc, Prod.mk.injEq]
    cases (v.add c).checkLimit with
    | error fault => simp [hc, Except.map]
    | ok _ => simp [hc, Except.map, eq_comm]

theorem checkLimit_eq_ok_iff :
    v.checkLimit = .ok () ↔ ∀ limit, v.limit = some limit → v.size ≤ limit := by
  unfold checkLimit
  cases v.limit with
  | none => simp
  | some limit => simp

theorem visitAll_cons_eq_ok_iff {c : Configuration} {cs : List Configuration} :
    v.visitAll (c :: cs) = .ok (w, fresh) ↔ ∃ u new later, v.visit c = (u, .ok new) ∧
      u.visitAll cs = .ok (w, later) ∧ fresh = if new then c :: later else later := by
  rw [visitAll]
  constructor
  · intro h
    split at h
    · cases h
    · next u new hvisit =>
        simp only [bind_eq_ok_iff, pure_eq_ok_iff] at h
        obtain ⟨⟨w', later⟩, hrest, heq⟩ := h
        cases heq
        exact ⟨u, new, later, hvisit, hrest, rfl⟩
  · intro h
    obtain ⟨u, new, later, hvisit, hrest, rfl⟩ := h
    rw [hvisit]
    change (u.visitAll cs >>= _) = _
    rw [hrest]
    rfl

theorem grows_of_visit {c : Configuration} {new : Bool} (h : v.visit c = (w, .ok new)) :
    v.Grows (if new then [c] else []) w := by
  rcases visit_eq_ok_iff.mp h with ⟨_, rfl, rfl⟩ | ⟨hc, _, rfl, rfl⟩
  · exact Grows.refl w
  · exact ⟨rfl, rfl, rfl, fun hnodup => List.nodup_cons.mpr ⟨hc, hnodup⟩⟩

/-- Visits that are not refused grow by the configurations that are new among those visited. -/
theorem grows_of_visitAll {cs : List Configuration} (h : v.visitAll cs = .ok (w, fresh)) :
    v.Grows fresh w ∧ fresh ⊆ cs := by
  induction cs generalizing v fresh with
  | nil =>
      cases h
      exact ⟨Grows.refl _, List.Subset.refl _⟩
  | cons c cs ih =>
      obtain ⟨u, new, later, hvisit, hrest, rfl⟩ := visitAll_cons_eq_ok_iff.mp h
      obtain ⟨hgrows, hsub⟩ := ih hrest
      have hall := (grows_of_visit hvisit).trans hgrows
      cases new with
      | false => exact ⟨hall, List.subset_cons_of_subset c hsub⟩
      | true => exact ⟨hall, List.cons_subset_cons c hsub⟩

/-- One visit is never refused, and afterwards the configuration is reached. -/
theorem visit_grows (h : v.limit = none) (c : Configuration) :
    ∃ w new, v.visit c = (w, .ok new) ∧ v.Grows (if new then [c] else []) w := by
  by_cases hc : c.key ∈ v.reached
  · refine ⟨v, false, if_pos hc, ?_⟩
    exact Grows.refl v
  · have hlimit : (v.add c).checkLimit = .ok () := by
      have hnone : (v.add c).limit = none := h
      rw [checkLimit, hnone]
    refine ⟨v.add c, true, ?_, ?_⟩
    · rw [visit, if_neg hc, hlimit]
      rfl
    · refine ⟨rfl, rfl, rfl, ?_⟩
      intro hnodup
      exact List.nodup_cons.mpr ⟨hc, hnodup⟩

theorem visitAll_grows (h : v.limit = none) (cs : List Configuration) :
    ∃ w fresh, v.visitAll cs = .ok (w, fresh) ∧ v.Grows fresh w ∧ fresh ⊆ cs ∧
      ∀ c ∈ cs, c.key ∈ w.reached := by
  induction cs generalizing v with
  | nil => exact ⟨v, [], rfl, Grows.refl v, List.Subset.refl _, nofun⟩
  | cons c cs ih =>
      obtain ⟨u, new, hvisit, hgrows⟩ := visit_grows h c
      have hc : c.key ∈ u.reached := by
        have hmem := mem_reached_visit v c
        rw [hvisit] at hmem
        exact hmem
      obtain ⟨w, fresh, hrest, hgrows', hsub, hreached⟩ := ih (hgrows.limit.trans h)
      refine ⟨w, (if new then [c] else []) ++ fresh, ?_, hgrows.trans hgrows', ?_, ?_⟩
      · rw [visitAll, hvisit]
        change (u.visitAll cs >>= _) = _
        rw [hrest]
        cases new <;> rfl
      · cases new with
        | false => exact List.subset_cons_of_subset c hsub
        | true => exact List.cons_subset_cons c hsub
      · exact List.forall_mem_cons.mpr ⟨hgrows'.subset hc, hreached⟩

theorem visitAll_single_of_mem {c : Configuration} (h : c.key ∈ v.reached) :
    v.visitAll [c] = .ok (v, []) := by
  have hvisit : v.visit c = (v, .ok false) := if_pos h
  rw [visitAll, hvisit]
  rfl

theorem visitAll_single_of_not_mem (hlimit : v.limit = none) {c : Configuration}
    (h : c.key ∉ v.reached) : v.visitAll [c] = .ok (v.add c, [c]) := by
  have hcheck : (v.add c).checkLimit = .ok () := by
    have hnone : (v.add c).limit = none := hlimit
    rw [checkLimit, hnone]
  rw [visitAll, visit, if_neg h, hcheck]
  rfl

/-- A pair is delivered once it has come up, whether it is new or not, and never twice. -/
theorem deliver_spec (v : Visits) (x y : Term) :
    ∃ new, v.deliver x y =
        ({ v with delivered := (if new then [(x, y)] else []) ++ v.delivered }, new) ∧
      (x, y) ∈ (if new then [(x, y)] else []) ++ v.delivered ∧
      (v.delivered.Nodup → ((if new then [(x, y)] else []) ++ v.delivered).Nodup) := by
  by_cases h : (x, y) ∈ v.delivered
  · exact ⟨false, if_pos h, h, id⟩
  · exact ⟨true, if_neg h, List.mem_cons_self, fun hnodup => List.nodup_cons.mpr ⟨h, hnodup⟩⟩

/-- Of the nodes with themselves, those that are new are told, and no others. -/
theorem mem_deliverReflexive (v : Visits) (ts : List Term) {t : Solution} :
    t ∈ (v.deliverReflexive ts).2 ↔ t.subject = t.object ∧ t.subject ∈ ts ∧
      (t.subject, t.subject) ∉ v.delivered := by
  induction ts generalizing v with
  | nil => simp [deliverReflexive]
  | cons u ts ih =>
      obtain ⟨x, y⟩ := t
      rw [deliverReflexive]
      by_cases h : (u, u) ∈ v.delivered
      · have hdeliver : v.deliver u u = (v, false) := if_pos h
        simp only [hdeliver, Bool.false_eq_true, if_false, ih, List.mem_cons]
        constructor
        · intro hfound
          rcases hfound with ⟨heq, hmem, hnot⟩
          exact ⟨heq, Or.inr hmem, hnot⟩
        · intro hgiven
          rcases hgiven with ⟨heq, rfl | hmem, hnot⟩
          · exact absurd h hnot
          · exact ⟨heq, hmem, hnot⟩
      · have hdeliver : v.deliver u u = ({ v with delivered := (u, u) :: v.delivered }, true) :=
          if_neg h
        simp only [hdeliver, if_true, ih, List.mem_cons, Solution.mk.injEq, Prod.mk.injEq, and_self,
          not_or]
        constructor
        · intro hgiven
          rcases hgiven with ⟨rfl, rfl⟩ | ⟨heq, hmem, _, hnot⟩
          · exact ⟨rfl, Or.inl rfl, h⟩
          · exact ⟨heq, Or.inr hmem, hnot⟩
        · intro hgiven
          rcases hgiven with ⟨rfl, hmem, hnot⟩
          by_cases hxu : x = u
          · exact Or.inl ⟨hxu, hxu⟩
          · exact Or.inr ⟨rfl, hmem.resolve_left hxu, hxu, hnot⟩

/-- Which nodes have not been delivered with themselves depends on what has been delivered alone. -/
theorem deliverReflexive_congr (h : w.delivered = v.delivered) (ts : List Term) :
    (w.deliverReflexive ts).2 = (v.deliverReflexive ts).2 := by
  induction ts generalizing v w with
  | nil => rfl
  | cons t ts ih =>
      rw [deliverReflexive, deliverReflexive, deliver, deliver, h]
      by_cases hmem : (t, t) ∈ v.delivered
      · rw [if_pos hmem, if_pos hmem]
        exact ih h
      · rw [if_neg hmem, if_neg hmem]
        have hrest := ih (v := { v with delivered := (t, t) :: v.delivered })
          (w := { w with delivered := (t, t) :: v.delivered }) rfl
        exact congrArg (⟨t, t⟩ :: ·) hrest

theorem nodup_deliverReflexive (v : Visits) (ts : List Term) : (v.deliverReflexive ts).2.Nodup := by
  induction ts generalizing v with
  | nil => exact List.nodup_nil
  | cons u ts ih =>
      obtain ⟨new, hdeliver, hmem, _⟩ := v.deliver_spec u u
      rw [deliverReflexive, hdeliver]
      cases new with
      | false => exact ih _
      | true =>
          refine List.nodup_cons.mpr ⟨?_, ih _⟩
          intro hagain
          exact ((mem_deliverReflexive _ ts).mp hagain).2.2 hmem

/-- Configurations are reached, or refused; nothing is delivered by that. -/
theorem delivered_of_visitAll {cs fresh : List Configuration} (h : v.visitAll cs = .ok (w, fresh)) :
    w.delivered = v.delivered := (grows_of_visitAll h).1.delivered

end PropertyPath.Visits
