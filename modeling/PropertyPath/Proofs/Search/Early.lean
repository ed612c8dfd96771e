import PropertyPath.Proofs.Search.Bounds
import PropertyPath.Proofs.Search.Refines

/-!
# To stop early changes nothing

A search that stops as early as it can is compared with one that never does. While neither has found
the only node it looks for, both do the same. Then the first one goes on to the next origin, and the
other one goes on in vain: every pair that it may still come upon has been delivered. What it visits
meanwhile belongs to an origin that does not come up again, and what it remembers about closures is
what a search behind them would find at any time, so afterwards both do the same again, the first
one with fewer visits.
-/
namespace PropertyPath
open Evaluation

namespace Visits

/-- The visits of two searches of the same origins, the second of which has visited less. -/
structure Lags (xs : List Term) (v w : Visits) : Prop where
  limit : w.limit = v.limit
  delivered : w.delivered = v.delivered
  size : w.size ≤ v.size
  begun : ∀ x ∈ xs, (x, x, Automaton.start) ∈ v.reached ∧ (x, x, Automaton.start) ∈ w.reached
  known : ∀ key, key ∈ v.reached ∨ key ∈ w.reached → key.1 ∈ xs

/-- From the origin the same has been reached. -/
def Abreast (x : Term) (v w : Visits) : Prop :=
  ∀ key, key.1 = x → (key ∈ v.reached ↔ key ∈ w.reached)

variable {xs : List Term} {v v' w w' : Visits} {x : Term} {c : Configuration}
  {cs fresh : List Configuration}

theorem lags_start (limit : Option Nat) : Lags [] (withLimit limit) (withLimit limit) where
  limit := rfl
  delivered := rfl
  size := Nat.le_refl _
  begun := nofun
  known := nofun

theorem Abreast.add (h : Abreast x v w) (c : Configuration) : Abreast x (v.add c) (w.add c) := by
  intro key hkey
  simp only [Visits.add, List.mem_cons, h key hkey]

/-- What both searches visit belongs to one of the origins, or begins a new one. -/
theorem Lags.add (h : Lags xs v w) {ys : List Term} (hxs : xs ⊆ ys) (hc : c.subject ∈ ys)
    (hys : ∀ y ∈ ys, y ∈ xs ∨ c = .origin y) : Lags ys (v.add c) (w.add c) where
  limit := h.limit
  delivered := h.delivered
  size := Nat.succ_le_succ h.size
  begun y hy := by
    rcases hys y hy with hold | rfl
    · exact ⟨List.mem_cons_of_mem _ (h.begun y hold).1, List.mem_cons_of_mem _ (h.begun y hold).2⟩
    · exact ⟨List.mem_cons_self, List.mem_cons_self⟩
  known key hkey := by
    simp only [Visits.add, List.mem_cons] at hkey
    rcases hkey with (rfl | hkey) | rfl | hkey
    · exact hc
    · exact hxs (h.known key (Or.inl hkey))
    · exact hc
    · exact hxs (h.known key (Or.inr hkey))

/-- Where there is room for one more visit there is room for it when less has been visited. -/
theorem Lags.checkLimit (h : Lags xs v w) (hroom : (v.add c).checkLimit = .ok ()) :
    (w.add c).checkLimit = .ok () := by
  rw [checkLimit_eq_ok_iff] at hroom ⊢
  intro limit hlimit
  exact (Nat.succ_le_succ h.size).trans (hroom limit (h.limit ▸ hlimit))

theorem Lags.visit (h : Lags xs v w) (hsame : Abreast x v w) (hx : x ∈ xs) (hc : c.subject = x)
    {new : Bool} (hvisit : v.visit c = (v', .ok new)) :
    ∃ w', w.visit c = (w', .ok new) ∧ Lags xs v' w' ∧ Abreast x v' w' := by
  rcases visit_eq_ok_iff.mp hvisit with ⟨hmem, rfl, rfl⟩ | ⟨hmem, hroom, rfl, rfl⟩
  · exact ⟨w, visit_eq_ok_iff.mpr (Or.inl ⟨(hsame c.key hc).mp hmem, rfl, rfl⟩), h, hsame⟩
  · have hnew : c.key ∉ w.reached := fun hw => hmem ((hsame c.key hc).mpr hw)
    refine ⟨w.add c, visit_eq_ok_iff.mpr (Or.inr ⟨hnew, h.checkLimit hroom, rfl, rfl⟩), ?_,
      hsame.add c⟩
    exact h.add (List.Subset.refl xs) (hc ▸ hx) fun y hy => Or.inl hy

/-- While the same has been reached from an origin, the same is new. -/
theorem Lags.visitAll (h : Lags xs v w) (hsame : Abreast x v w) (hx : x ∈ xs)
    (hcs : ∀ c ∈ cs, c.subject = x) (hvisited : v.visitAll cs = .ok (v', fresh)) :
    ∃ w', w.visitAll cs = .ok (w', fresh) ∧ Lags xs v' w' ∧ Abreast x v' w' := by
  induction cs generalizing v w fresh with
  | nil =>
      cases hvisited
      exact ⟨w, rfl, h, hsame⟩
  | cons c cs ih =>
      obtain ⟨hc, hrest⟩ := List.forall_mem_cons.mp hcs
      obtain ⟨u, new, later, hvisit, hlater, rfl⟩ := visitAll_cons_eq_ok_iff.mp hvisited
      obtain ⟨u', hvisit', hu, husame⟩ := h.visit hsame hx hc hvisit
      obtain ⟨w', hlater', hw', hwsame⟩ := ih hu husame hrest hlater
      exact ⟨w', visitAll_cons_eq_ok_iff.mpr ⟨u', new, later, hvisit', hlater', rfl⟩, hw', hwsame⟩

/-- An origin is new to both searches or to none of them. -/
theorem Lags.visitAll_origin (h : Lags xs v w)
    (hvisited : v.visitAll [.origin x] = .ok (v', fresh)) :
    ∃ w', w.visitAll [.origin x] = .ok (w', fresh) ∧ Lags (x :: xs) v' w' ∧
      (fresh = [] ∨ Abreast x v' w') := by
  by_cases hx : x ∈ xs
  · have hv := visitAll_single_of_mem (c := .origin x) (h.begun x hx).1
    have hw := visitAll_single_of_mem (c := .origin x) (h.begun x hx).2
    obtain ⟨rfl, rfl⟩ := Prod.mk.inj (Except.ok.inj (hv.symm.trans hvisited))
    refine ⟨w, hw, ?_, Or.inl rfl⟩
    refine { h with
      begun := ?_
      known := fun key hkey => List.mem_cons_of_mem x (h.known key hkey) }
    exact List.forall_mem_cons.mpr ⟨h.begun x hx, h.begun⟩
  · have hsame : Abreast x v w := by
      intro key hkey
      constructor
      · exact fun hv => absurd (h.known key (Or.inl hv)) (hkey ▸ hx)
      · exact fun hw => absurd (h.known key (Or.inr hw)) (hkey ▸ hx)
    obtain ⟨u, new, later, hvisit, hlater, rfl⟩ := visitAll_cons_eq_ok_iff.mp hvisited
    cases hlater
    rcases visit_eq_ok_iff.mp hvisit with ⟨hmem, _⟩ | ⟨hmem, hroom, rfl, rfl⟩
    · exact absurd (h.known _ (Or.inl hmem)) hx
    · have hnew : (Configuration.origin x).key ∉ w.reached := fun hw => hx (h.known _ (Or.inr hw))
      have hvisit' : w.visit (.origin x) = (w.add (.origin x), .ok true) :=
        visit_eq_ok_iff.mpr (Or.inr ⟨hnew, h.checkLimit hroom, rfl, rfl⟩)
      refine ⟨_, visitAll_cons_eq_ok_iff.mpr ⟨_, true, [], hvisit', rfl, rfl⟩,
        ?_, Or.inr (hsame.add _)⟩
      refine h.add (List.subset_cons_self x xs) List.mem_cons_self ?_
      intro y hy
      rcases List.mem_cons.mp hy with rfl | hy
      · exact Or.inr rfl
      · exact Or.inl hy

/-- A search that goes on while the other one has stopped only visits more. -/
theorem Lags.grows (h : Lags xs v w) (hgrows : v.Grows fresh v')
    (hfresh : ∀ c ∈ fresh, c.subject ∈ xs) :
    Lags xs v' w where
  limit := h.limit.trans hgrows.limit.symm
  delivered := h.delivered.trans hgrows.delivered.symm
  size := by
    refine h.size.trans ?_
    rw [Visits.size, Visits.size, hgrows.reached, List.length_append]
    exact Nat.le_add_left _ _
  begun x hx := ⟨hgrows.subset (h.begun x hx).1, (h.begun x hx).2⟩
  known key hkey := by
    rcases hkey with hv | hw
    · rcases hgrows.mem_reached.mp hv with ⟨c, hc, rfl⟩ | hv
      · exact hfresh c hc
      · exact h.known key (Or.inl hv)
    · exact h.known key (Or.inr hw)

end Visits

namespace Search

/-- The same search, when it stops as early as it can. -/
def early (s : Search) : Search := { s with options := { s.options with earlyTermination := true } }

/-- Wherever the first search behind closures finds something, the second one finds the same. -/
structure Agrees (close close' : ClosureSearch) : Prop where
  refines : ∀ a x, (close a x).Refines (close' a x) Eq
  silent : ∀ a x, (close a x).Silent
  silent' : ∀ a x, (close' a x).Silent

/-- If the label is a closure, the nodes are those that the search behind it finds at any time. -/
def Recalled (close : ClosureSearch) (l : Label) (x : Term) (ys : List Term) : Prop :=
  ∀ kind a, l = .closure kind a → ∀ k, (close a x k).result = .ok ys

/-- How far two searches have come: what they have visited, and what they remember about
closures. -/
structure Behind (s : Search) (close' : ClosureSearch) (xs : List Term) (p q : Progress) :
    Prop where
  lags : p.visits.Lags xs q.visits
  recalls : s.Recalls (Recalled close') p
  recalls' : s.Recalls (Recalled close') q

variable {s : Search} {close close' : ClosureSearch} {xs : List Term} {x : Term} {p p' q : Progress}
  {c : Configuration} {queue : List Configuration} {fresh? : Option (List Configuration)}

theorem supplies_recalled (hclose : Agrees close close') :
    s.Supplies close (fun _ => True) (Recalled close') where
  fault _ := trivial
  branches t _ branches hbranches x := by
    refine (ends_joinedPairs (fun _ => trivial) _ _).mono ?_
    intro pairs _ kind a hlabel
    rw [hlabel] at hbranches
    cases hbranches
  closures t _ kind a hlabel x := by
    intro k
    cases hresult : (close a x k).result with
    | error stop => trivial
    | ok ys =>
        intro kind' a' hlabel' k'
        obtain ⟨rfl, rfl⟩ := Label.closure.inj (hlabel.symm.trans hlabel')
        obtain ⟨_, hys, _, rfl⟩ := hclose.refines a x k ys hresult k'
        exact hys

section follow
variable {t : Transition} {i : Nat}

theorem silent_follow (hclose : ∀ a x, (close a x).Silent) (i : Nat) (t : Transition) (x : Term)
    (p : Progress) : (s.follow close i t x p).Silent :=
  (finishes_follow hclose i t x p).mono fun _ _ hkeeps => hkeeps.1

/-- Behind a closure there is what is remembered of it, or what is found anew. -/
theorem returns_follow_of_recalled (hclose : ∀ a x, (close a x).Silent)
    (hi : (t, i) ∈ s.automaton.transitions.zipIdx) {kind : Closure} {a : Automaton}
    (hlabel : t.label = .closure kind a) {ys : List Term} (hys : Recalled close t.label x ys)
    (hp : s.Recalls (Recalled close) p) :
    (s.follow close i t x p).Returns fun r =>
      r.1 = ys ∧ r.2.visits = p.visits ∧ s.Recalls (Recalled close) r.2 := by
  cases hfound : s.remembered? i x p with
  | some zs =>
      have hzs := hp t i hi x zs (lookup_of_remembered hfound) kind a hlabel 0
      rw [hys kind a hlabel 0] at hzs
      rw [follow_of_remembered hlabel hfound]
      exact returns_pure ⟨(Except.ok.inj hzs).symm, rfl, hp⟩
  | none =>
      rw [follow_of_closure hlabel hfound]
      have hreturns : (close a x).Returns (· = ys) :=
        fun k => ⟨ys, hys kind a hlabel k, hclose a x k, rfl⟩
      refine Returns.bind hreturns ?_
      intro _ heq
      subst heq
      have hlog : ∀ e ∈ [Event.closure i x], e.isSolution = false := by
        simp [Event.isSolution]
      refine Returns.bind (returns_log hlog) ?_
      exact fun _ _ => returns_pure ⟨rfl, rfl, hp.cons hi hys⟩

theorem refines_follow (hg : s.graph.Steady) (hclose : Agrees close close')
    (hi : (t, i) ∈ s.automaton.transitions.zipIdx) (hp : s.Recalls (Recalled close') p)
    (hq : s.Recalls (Recalled close') q) (x : Term) :
    (s.follow close i t x p).Refines (s.early.follow close' i t x q) fun r r' =>
      r.1 = r'.1 ∧ (r.2.visits = p.visits ∧ s.Recalls (Recalled close') r.2) ∧
        r'.2.visits = q.visits ∧ s.Recalls (Recalled close') r'.2 := by
  cases hbranches : t.label.branches? with
  | some branches =>
      rw [follow_of_branches hbranches, follow_of_branches hbranches]
      refine (refines_joinedPairs hg _ _).bind_same fun pairs => ?_
      exact refines_pure ⟨rfl, ⟨rfl, hp⟩, rfl, hq⟩
  | none =>
      obtain ⟨kind, a, hlabel⟩ := Label.exists_closure_of_branches hbranches
      have hends := ends_follow (supplies_recalled hclose) hi hp x
      have hfinishes : (s.follow close i t x p).Finishes fun solutions r => ∀ a, r = .ok a →
          solutions = [] ∧ Recalled close' t.label x a.1 ∧ a.2.visits = p.visits ∧
            s.Recalls (Recalled close') a.2 :=
        fun k _ hok => ⟨silent_follow hclose.silent i t x p k, hends.of_ok hok⟩
      refine refines_of_finishes hfinishes ?_
      intro r hr
      obtain ⟨hys, hvisits, hrecalls⟩ := hr
      refine Yields.mono
        (returns_follow_of_recalled (s := s.early) hclose.silent' hi hlabel hys hq) ?_
      intro _ r' hboth
      rcases hboth with ⟨rfl, heq, hvisits', hrecalls'⟩
      exact ⟨rfl, heq.symm, ⟨hvisits, hrecalls⟩, hvisits', hrecalls'⟩

end follow

/-- While both searches have reached the same from an origin, they find the same behind
transitions. -/
theorem refines_followAll (hg : s.graph.Steady) (hclose : Agrees close close') (hx : c.subject ∈ xs)
    {ts : List (Transition × Nat)} (hts : ts ⊆ s.automaton.transitions.zipIdx)
    (h : s.Behind close' xs p q) (hsame : p.visits.Abreast c.subject q.visits) :
    (s.followAll close c ts p).Refines (s.early.followAll close' c ts q) fun r r' =>
      r.1 = r'.1 ∧ (∀ d ∈ r.1, d.subject = c.subject) ∧ s.Behind close' xs r.2 r'.2 ∧
        r.2.visits.Abreast c.subject r'.2.visits := by
  induction ts generalizing p q with
  | nil => exact refines_pure ⟨rfl, nofun, h, hsame⟩
  | cons t ts ih =>
      obtain ⟨t, i⟩ := t
      obtain ⟨hi, hrest⟩ := List.cons_subset.mp hts
      rw [followAll, followAll]
      refine (refines_follow hg hclose hi h.recalls h.recalls' c.node).bind ?_
      intro r r' hboth
      obtain ⟨nodes, p₁⟩ := r
      obtain ⟨nodes', q₁⟩ := r'
      obtain ⟨hnodes, ⟨hvisits, hp₁⟩, hvisits', hq₁⟩ := hboth
      dsimp only at hnodes hvisits hvisits'
      subst hnodes
      have hcs :
          ∀ d ∈ nodes.map (fun node => c.successor node t.target), d.subject = c.subject := by
        intro d hd
        obtain ⟨_, _, rfl⟩ := List.mem_map.mp hd
        rfl
      have hvisit :
          ∀ m, p₁.visits.visitAll (nodes.map fun node => c.successor node t.target) = .ok m →
          ∃ m', q₁.visits.visitAll (nodes.map fun node => c.successor node t.target) = .ok m' ∧
            m.2 = m'.2 ∧ (∀ d ∈ m.2, d.subject = c.subject) ∧ m.1.Lags xs m'.1 ∧
              m.1.Abreast c.subject m'.1 := by
        intro m hm
        rw [hvisits] at hm
        rw [hvisits']
        obtain ⟨w, hw, hlags, habreast⟩ := h.lags.visitAll hsame hx hcs hm
        have hfresh := (Visits.grows_of_visitAll hm).2
        exact ⟨(w, m.2), hw, rfl, fun d hd => hcs d (hfresh hd), hlags, habreast⟩
      refine (refines_ofExcept hvisit).bind ?_
      intro m m' hboth
      obtain ⟨visits, fresh⟩ := m
      obtain ⟨visits', fresh'⟩ := m'
      obtain ⟨heq, hfresh, hlags, habreast⟩ := hboth
      dsimp only at heq
      subst heq
      refine (ih (p := { p₁ with visits }) (q := { q₁ with visits := visits' }) hrest
        ⟨hlags, hp₁, hq₁⟩ habreast).bind ?_
      intro r r' hboth
      obtain ⟨later, p₂⟩ := r
      obtain ⟨later', q₂⟩ := r'
      obtain ⟨heq, hlater, hbehind, habreast'⟩ := hboth
      dsimp only at heq
      subst heq
      refine refines_pure ⟨rfl, ?_, hbehind, habreast'⟩
      exact List.forall_mem_append.mpr ⟨hfresh, hlater⟩

/-- Both searches deliver the pair of a configuration or none of them does. -/
theorem Behind.mark (h : s.Behind close' xs p q) (c : Configuration) :
    s.Behind close' xs (s.mark c p).1 (s.mark c q).1 ∧ (s.mark c q).2 = (s.mark c p).2 := by
  have hp := marks_mark s c p
  have hq := marks_mark s c q
  obtain ⟨hdelivered, hbatch⟩ := mark_congr s c h.lags.delivered
  refine ⟨⟨?_, h.recalls.mark c, h.recalls'.mark c⟩, hbatch⟩
  refine ⟨?_, hdelivered, ?_, ?_, ?_⟩
  · rw [hp.limit, hq.limit]
    exact h.lags.limit
  · rw [Visits.size, Visits.size, hp.reached, hq.reached]
    exact h.lags.size
  · rw [hp.reached, hq.reached]
    exact h.lags.begun
  · rw [hp.reached, hq.reached]
    exact h.lags.known

/-- What an expansion leaves to both searches: the same, or nothing to the one that stops. -/
def Parts (s : Search) (close' : ClosureSearch) (xs : List Term) (x : Term)
    (r r' : Option (List Configuration) × Progress) : Prop :=
  ∃ fresh, r.1 = some fresh ∧ (∀ d ∈ fresh, d.subject = x) ∧ s.Behind close' xs r.2 r'.2 ∧
    ((r'.1 = some fresh ∧ r.2.visits.Abreast x r'.2.visits) ∨ (r'.1 = none ∧ s.Answered x r.2))

theorem refines_onward (hg : s.graph.Steady) (hclose : Agrees close close') (hx : c.subject ∈ xs)
    (h : s.Behind close' xs p q) (hsame : p.visits.Abreast c.subject q.visits)
    (batch : List Solution) :
    (s.onward close c p batch).Refines (s.early.onward close' c q batch)
      (s.Parts close' xs c.subject) := by
  have hdeep : s.early.isTooDeep c = s.isTooDeep c := rfl
  rw [onward, onward, hdeep]
  split
  · refine (refines_log _).bind_same fun _ => ?_
    exact refines_pure ⟨[], rfl, List.forall_mem_nil _, h, Or.inl ⟨rfl, hsame⟩⟩
  · refine (refines_followAll hg hclose hx (leaving_subset c.state) h hsame).bind ?_
    intro r r' hboth
    obtain ⟨fresh, p₁⟩ := r
    obtain ⟨fresh', q₁⟩ := r'
    obtain ⟨heq, hfresh, hbehind, habreast⟩ := hboth
    dsimp only at heq
    subst heq
    refine (refines_log _).bind_same fun _ => ?_
    exact refines_pure ⟨fresh, rfl, hfresh, hbehind, Or.inl ⟨rfl, habreast⟩⟩

/-- What is left of an expansion is done in vain when the other search stops. -/
theorem refines_onward_of_answered (hclose : Agrees close close') (hx : c.subject ∈ xs)
    (h : s.Behind close' xs p q) (hanswered : s.Answered c.subject p) (batch : List Solution) :
    (s.onward close c p batch).Refines
      (do
        Evaluation.deliver batch
        return ((none, q) : Option (List Configuration) × Progress))
      (s.Parts close' xs c.subject) := by
  rw [onward]
  split
  · refine (refines_log _).bind_same fun _ => ?_
    exact refines_pure ⟨[], rfl, List.forall_mem_nil _, h, Or.inr ⟨rfl, hanswered⟩⟩
  · have hsilent : (s.followAll close c (s.leaving c.state) p).Silent :=
      (finishes_followAll hclose.silent c _ p).mono fun _ _ hkeeps => hkeeps.1
    refine hsilent.refines_bind
      (ends_followAll (supplies_recalled hclose) c (leaving_subset c.state) h.recalls) ?_
    intro r hr
    obtain ⟨fresh, p₁⟩ := r
    obtain ⟨hrecalls, hgrows, hleads⟩ := hr
    have hfresh : ∀ d ∈ fresh, d.subject = c.subject := fun d hd => (hleads d hd).subject
    have hlags : p₁.visits.Lags xs q.visits := h.lags.grows hgrows fun d hd => hfresh d hd ▸ hx
    refine (refines_log _).bind_same fun _ => ?_
    refine refines_pure ⟨fresh, rfl, hfresh, ⟨hlags, hrecalls, h.recalls'⟩, Or.inr ⟨rfl, ?_⟩⟩
    intro y hy
    change (c.subject, y) ∈ p₁.visits.delivered
    rw [hgrows.delivered]
    exact hanswered y hy

theorem refines_expand (hg : s.graph.Steady) (hlate : s.options.earlyTermination = false)
    (hclose : Agrees close close') (hx : c.subject ∈ xs) (h : s.Behind close' xs p q)
    (hsame : p.visits.Abreast c.subject q.visits) :
    (s.expand close c p).Refines (s.early.expand close' c q) (s.Parts close' xs c.subject) := by
  obtain ⟨hbehind, hbatch⟩ := h.mark c
  have hmark : s.early.mark c q = s.mark c q := rfl
  have hnot : ¬ s.stopsAt c = true := by
    rw [stopsAt, hlate, Bool.and_false, Bool.false_and]
    exact Bool.false_ne_true
  rw [expand_eq, expand_eq, hmark, hbatch, if_neg hnot]
  refine (refines_log _).bind_same fun _ => ?_
  split
  · next hstops =>
      rw [stopsAt, Bool.and_eq_true, Bool.and_eq_true] at hstops
      obtain ⟨⟨hhits, _⟩, hfixed⟩ := hstops
      have htold := (marks_mark s c p).told hhits
      exact refines_onward_of_answered hclose hx hbehind (answered_of_hits rfl hhits hfixed htold) _
  · refine refines_onward hg hclose hx hbehind ?_ _
    intro key hkey
    rw [(marks_mark s c p).reached, (marks_mark s c q).reached]
    exact hsame key hkey

/-- When everything that is looked for from an origin has been delivered, an expansion only visits
more. -/
theorem Expands.behind (hexpands : s.Expands (Recalled close') c p fresh? p')
    (h : s.Behind close' xs p q) (hx : c.subject ∈ xs) (hanswered : s.Answered c.subject p) :
    p'.visits.delivered = p.visits.delivered ∧ s.Behind close' xs p' q := by
  have hdelivered : p'.visits.delivered = p.visits.delivered := by
    rcases hexpands.delivered with heq | ⟨hhits, hnew, _⟩
    · exact heq
    · exact absurd (hanswered c.node (hits_iff.mp hhits).2) hnew
  have hgrows : p.visits.Grows (fresh?.getD []) p'.visits :=
    ⟨hexpands.reached, hdelivered, hexpands.limit, hexpands.nodup⟩
  have hlags := h.lags.grows hgrows fun d hd => (hexpands.leads d hd).subject ▸ hx
  exact ⟨hdelivered, hlags, hexpands.recalls, h.recalls'⟩

theorem ends_explore_of_answered (hclose : Agrees close close') (hx : x ∈ xs) {n : Nat}
    (hqueue : ∀ d ∈ queue, d.subject = x) (h : s.Behind close' xs p q)
    (hanswered : s.Answered x p) :
    (s.explore close n queue p).Ends (fun _ => True) fun p' =>
      p'.visits.delivered = p.visits.delivered ∧ s.Behind close' xs p' q := by
  induction n generalizing queue p with
  | zero =>
      cases queue with
      | nil => exact ends_pure ⟨rfl, h⟩
      | cons c queue => exact fun _ => trivial
  | succ n ih =>
      cases queue with
      | nil => exact ends_pure ⟨rfl, h⟩
      | cons c queue =>
          obtain ⟨rfl, hrest⟩ := List.forall_mem_cons.mp hqueue
          rw [explore]
          refine Ends.bind (ends_expand (supplies_recalled hclose) c h.recalls) ?_
          intro r hexpands
          obtain ⟨fresh?, p₁⟩ := r
          obtain ⟨hdelivered, hbehind⟩ := hexpands.behind h hx hanswered
          cases fresh? with
          | none => exact ends_pure ⟨hdelivered, hbehind⟩
          | some fresh =>
              have hfresh : ∀ d ∈ fresh, d.subject = c.subject :=
                fun d hd => (hexpands.leads d hd).subject
              have hanswered₁ : s.Answered c.subject p₁ := fun y hy => hdelivered ▸ hanswered y hy
              refine (ih (List.forall_mem_append.mpr ⟨hrest, hfresh⟩) hbehind hanswered₁).mono ?_
              exact fun p' hp' => ⟨hp'.1.trans hdelivered, hp'.2⟩

/-- The rest of the search of an origin delivers nothing then. -/
theorem finishes_explore_of_answered (hclose : Agrees close close') (hx : x ∈ xs) {n : Nat}
    (hqueue : ∀ d ∈ queue, d.subject = x) (h : s.Behind close' xs p q)
    (hanswered : s.Answered x p) :
    (s.explore close n queue p).Finishes fun solutions r => ∀ p', r = .ok p' →
      solutions = [] ∧ s.Behind close' xs p' q := by
  intro k p' hok
  obtain ⟨hdelivered, hbehind⟩ := (ends_explore_of_answered hclose hx hqueue h hanswered).of_ok hok
  obtain ⟨pairs, hsolutions, _, hnews⟩ := finishes_explore hclose.silent n queue p k
  have hpairs : pairs.reverse = [] := by
    have heq := hnews p' hok
    rw [hdelivered, List.self_eq_append_left] at heq
    exact heq
  rw [List.reverse_eq_nil_iff] at hpairs
  rw [hpairs] at hsolutions
  exact ⟨hsolutions, hbehind⟩

/-- The search of an origin may be stopped early. -/
theorem refines_explore (hg : s.graph.Steady) (hlate : s.options.earlyTermination = false)
    (hclose : Agrees close close') (hx : x ∈ xs) {n : Nat} (hqueue : ∀ d ∈ queue, d.subject = x)
    (h : s.Behind close' xs p q) (hsame : p.visits.Abreast x q.visits) :
    (s.explore close n queue p).Refines (s.early.explore close' n queue q)
      (s.Behind close' xs) := by
  induction n generalizing queue p q with
  | zero =>
      cases queue with
      | nil => exact refines_pure h
      | cons c queue =>
          intro _ _ hok
          cases hok
  | succ n ih =>
      cases queue with
      | nil => exact refines_pure h
      | cons c queue =>
          obtain ⟨rfl, hrest⟩ := List.forall_mem_cons.mp hqueue
          rw [explore, explore]
          refine (refines_expand hg hlate hclose hx h hsame).bind ?_
          intro r r' hparts
          obtain ⟨fresh?, p₁⟩ := r
          obtain ⟨fresh?', q₁⟩ := r'
          obtain ⟨fresh, hsome, hfresh, hbehind, hcase⟩ := hparts
          have hall := List.forall_mem_append.mpr ⟨hrest, hfresh⟩
          dsimp only at hsome hcase
          subst hsome
          rcases hcase with ⟨rfl, habreast⟩ | ⟨rfl, hanswered⟩
          · exact ih hall hbehind habreast
          · refine refines_of_finishes
              (finishes_explore_of_answered hclose hx hall hbehind hanswered) ?_
            exact fun p' hp' => returns_pure hp'

theorem refines_searchFrom (hg : s.graph.Steady) (hlate : s.options.earlyTermination = false)
    (hclose : Agrees close close') (origins : List Term) (h : s.Behind close' xs p q) :
    (s.searchFrom close origins p).Refines (s.early.searchFrom close' origins q) fun p' q' =>
      q'.visits.delivered = p'.visits.delivered := by
  induction origins generalizing xs p q with
  | nil => exact refines_pure h.lags.delivered
  | cons x origins ih =>
      rw [searchFrom, searchFrom]
      have hvisit : ∀ m, p.visits.visitAll [.origin x] = .ok m →
          ∃ m', q.visits.visitAll [.origin x] = .ok m' ∧ m.2 = m'.2 ∧
            (∀ d ∈ m.2, d.subject = x) ∧ m.1.Lags (x :: xs) m'.1 ∧
              (m.2 = [] ∨ m.1.Abreast x m'.1) := by
        intro m hm
        obtain ⟨w, hw, hlags, habreast⟩ := h.lags.visitAll_origin hm
        have hfresh := (Visits.grows_of_visitAll hm).2
        refine ⟨(w, m.2), hw, rfl, ?_, hlags, habreast⟩
        intro d hd
        rw [List.mem_singleton.mp (hfresh hd)]
        rfl
      refine (refines_ofExcept hvisit).bind ?_
      intro m m' hboth
      obtain ⟨visits, fresh⟩ := m
      obtain ⟨visits', fresh'⟩ := m'
      obtain ⟨heq, hfresh, hlags, hcase⟩ := hboth
      dsimp only at heq
      subst heq
      have hbehind : s.Behind close' (x :: xs) { p with visits } { q with visits := visits' } :=
        ⟨hlags, h.recalls, h.recalls'⟩
      have hexplore : (s.explore close s.rounds fresh { p with visits }).Refines
          (s.early.explore close' s.rounds fresh { q with visits := visits' })
          (s.Behind close' (x :: xs)) := by
        rcases hcase with heq | habreast
        · dsimp only at heq
          subst heq
          rw [explore, explore]
          exact refines_pure hbehind
        · exact refines_explore hg hlate hclose List.mem_cons_self hfresh hbehind habreast
      exact hexplore.bind fun p' q' hp' => ih hp'

theorem behind_start (s : Search) (close' : ClosureSearch) : s.Behind close' [] s.start s.start :=
  ⟨Visits.lags_start _, nofun, nofun⟩

/-- The searches behind closures agree, as those within them do. -/
theorem agrees_closureSearch (hg : s.graph.Steady) (hlate : s.options.earlyTermination = false)
    (allowed : Nat) : Agrees (s.closureSearch allowed) (s.early.closureSearch allowed) := by
  refine ⟨?_, fun a x => silent_closureSearch allowed a x, fun a x =>
    silent_closureSearch allowed a x⟩
  induction allowed with
  | zero => exact fun _ _ => refines_fail _
  | succ allowed ih =>
      intro a x
      have hclose : Agrees (s.closureSearch allowed) (s.early.closureSearch allowed) :=
        ⟨ih, fun a x => silent_closureSearch allowed a x, fun a x =>
          silent_closureSearch allowed a x⟩
      have hsearch := refines_searchFrom (s := s.nested a) hg hlate hclose [x] (behind_start _ _)
      rw [closureSearch, closureSearch]
      exact hsearch.collect.bind_same fun solutions => refines_pure rfl

theorem refines_run (hg : s.graph.Steady) (hlate : s.options.earlyTermination = false)
    (origins : List Term) : (s.run origins).Refines (s.early.run origins) fun p q =>
      q.visits.delivered = p.visits.delivered :=
  refines_searchFrom hg hlate (agrees_closureSearch hg hlate _) origins (behind_start _ _)

theorem refines_probe (hg : s.graph.Steady) : s.probe.Refines s.early.probe Eq := by
  have hall : ∀ openings, (s.probeAll openings).Refines (s.early.probeAll openings) Eq := by
    intro openings
    induction openings with
    | nil => exact refines_pure rfl
    | cons branches openings ih =>
        rw [probeAll, probeAll]
        refine (refines_joinedPairs hg _ _).bind_same fun pairs => ?_
        exact ih.bind_same fun more => refines_pure rfl
  exact (hall _).bind_same fun origins => refines_pure rfl

theorem refines_reflexive (hg : s.graph.Steady)
    (h : q.visits.delivered = p.visits.delivered) :
    (s.reflexive p).Refines (s.early.reflexive q) Eq := by
  refine (refines_ask hg _ _).bind_same fun bs => ?_
  rw [Visits.deliverReflexive_congr h]
  exact refines_log _

end Search

end PropertyPath
