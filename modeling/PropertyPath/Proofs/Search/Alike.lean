import PropertyPath.Proofs.Outcome
import PropertyPath.Proofs.Search.Refines
import PropertyPath.Search.Origins

/-!
# Graphs that answer alike

Two graphs answer alike when they give the same solutions to every query, in whatever order, however
often, and whenever they are asked. What is put together of the answers of one of them then comes to
the same as what is put together of the answers of the other. Of evaluations this is said one way
round: where one of them ends with a value, so does the other one, unless it stops for a reason that
is allowed.
-/
namespace PropertyPath
open Evaluation

/-- The same variables are bound to the same terms. -/
def Bindings.Same (b c : Bindings) : Prop := ∀ v, b.get? v = c.get? v

/-- The solutions of one list are those of the other, in whatever order and however often. -/
def SameSolutions (bs cs : List Bindings) : Prop :=
  (∀ b ∈ bs, ∃ c ∈ cs, b.Same c) ∧ ∀ c ∈ cs, ∃ b ∈ bs, b.Same c

/-- The elements of one list are those of the other. -/
def SameElements {α : Type} (xs ys : List α) : Prop := ∀ x, x ∈ xs ↔ x ∈ ys

/-- The answers have the same solutions, or both of them are faults. -/
def Answer.Alike : Answer → Answer → Prop
  | .ok bs, .ok cs => SameSolutions bs cs
  | .error _, .error _ => True
  | _, _ => False

/-- Every call is answered alike by two graphs, whatever calls have come before. -/
def GraphService.Alike (g : GraphService) (context : CallContext) (g' : GraphService)
    (context' : CallContext) : Prop :=
  ∀ k j call, (g.answer k call context).Alike (g'.answer j call context')

theorem Bindings.Same.symm {b c : Bindings} (h : b.Same c) : c.Same b := fun v => (h v).symm

theorem Endpoint.resolve_same {b c : Bindings} (h : b.Same c) (p : Endpoint) :
    p.resolve b = p.resolve c := by
  cases p with
  | term t => rfl
  | var v => exact h v

theorem SameSolutions.symm {bs cs : List Bindings} (h : SameSolutions bs cs) :
    SameSolutions cs bs := by
  constructor
  · intro c hc
    obtain ⟨b, hb, hsame⟩ := h.2 c hc
    exact ⟨b, hb, hsame.symm⟩
  · intro b hb
    obtain ⟨c, hc, hsame⟩ := h.1 b hb
    exact ⟨c, hc, hsame.symm⟩

theorem SameSolutions.trans {bs cs ds : List Bindings} (h : SameSolutions bs cs)
    (h' : SameSolutions cs ds) : SameSolutions bs ds := by
  constructor
  · intro b hb
    obtain ⟨c, hc, hbc⟩ := h.1 b hb
    obtain ⟨d, hd, hcd⟩ := h'.1 c hc
    exact ⟨d, hd, fun v => (hbc v).trans (hcd v)⟩
  · intro d hd
    obtain ⟨c, hc, hcd⟩ := h'.2 d hd
    obtain ⟨b, hb, hbc⟩ := h.2 c hc
    exact ⟨b, hb, fun v => (hbc v).trans (hcd v)⟩

namespace Answer
variable {a b c : Answer}

theorem Alike.symm (h : a.Alike b) : b.Alike a := by
  cases a with
  | ok bs =>
      cases b with
      | ok cs => exact SameSolutions.symm h
      | error _ => exact h
  | error _ =>
      cases b with
      | ok cs => exact h
      | error _ => trivial

theorem Alike.trans (h : a.Alike b) (h' : b.Alike c) : a.Alike c := by
  cases b with
  | ok cs =>
      cases a with
      | error _ => exact h.elim
      | ok bs =>
          cases c with
          | error _ => exact h'.elim
          | ok ds => exact SameSolutions.trans h h'
  | error _ =>
      cases a with
      | ok bs => exact h.elim
      | error _ =>
          cases c with
          | ok ds => exact h'.elim
          | error _ => trivial

end Answer

namespace GraphService
variable {g g' : GraphService} {context context' : CallContext}

theorem Alike.symm (h : g.Alike context g' context') : g'.Alike context' g context :=
  fun k j call => (h j k call).symm

/-- What answers like another graph answers alike at all times. -/
theorem Alike.self (h : g.Alike context g' context') : g.Alike context g context :=
  fun k j call => (h k 0 call).trans (h j 0 call).symm

end GraphService

namespace SameElements
variable {α β : Type} {xs ys xs' ys' : List α}

theorem refl (xs : List α) : SameElements xs xs := fun _ => Iff.rfl

theorem append (h : SameElements xs ys) (h' : SameElements xs' ys') :
    SameElements (xs ++ xs') (ys ++ ys') := by
  intro x
  rw [List.mem_append, List.mem_append, h x, h' x]

theorem map (h : SameElements xs ys) (f : α → β) : SameElements (xs.map f) (ys.map f) := by
  intro y
  simp only [List.mem_map, h _]

theorem eraseDups [BEq α] [LawfulBEq α] (h : SameElements xs ys) :
    SameElements xs.eraseDups ys.eraseDups := by
  intro x
  rw [List.mem_eraseDups, List.mem_eraseDups, h x]

end SameElements

/-- What is the same of equal bindings is the same of equal solutions. -/
theorem exists_mapM_same {α : Type} {f : Bindings → Except EvaluationFault α}
    (hf : ∀ b c, b.Same c → f b = f c) {bs cs : List Bindings}
    (h : SameSolutions bs cs) {xs : List α}
    (hxs : bs.mapM f = .ok xs) : ∃ ys, cs.mapM f = .ok ys ∧ SameElements xs ys := by
  have hall : ∀ b ∈ bs, ∃ x, f b = .ok x := by
    clear h
    induction bs generalizing xs with
    | nil => exact nofun
    | cons b bs ih =>
        rw [List.mapM_cons] at hxs
        simp only [bind_eq_ok_iff] at hxs
        obtain ⟨x, hx, rest, hrest, _⟩ := hxs
        exact List.forall_mem_cons.mpr ⟨⟨x, hx⟩, ih hrest⟩
  obtain ⟨ys, hys⟩ : ∃ ys, cs.mapM f = .ok ys := by
    apply exists_mapM
    intro c hc
    obtain ⟨b, hb, hsame⟩ := h.2 c hc
    obtain ⟨x, hx⟩ := hall b hb
    exact ⟨x, (hf b c hsame) ▸ hx⟩
  refine ⟨ys, hys, ?_⟩
  intro x
  rw [mem_mapM hxs, mem_mapM hys]
  constructor
  · rintro ⟨b, hb, hx⟩
    obtain ⟨c, hc, hsame⟩ := h.1 b hb
    exact ⟨c, hc, (hf b c hsame) ▸ hx⟩
  · rintro ⟨c, hc, hx⟩
    obtain ⟨b, hb, hsame⟩ := h.2 c hc
    exact ⟨b, hb, (hf b c hsame).symm ▸ hx⟩

namespace Evaluation
variable {α β γ δ : Type} {m : Evaluation α} {m' : Evaluation β} {f : α → Evaluation γ}
  {f' : β → Evaluation δ} {E : Halt → Prop} {R : α → β → Prop} {S : γ → δ → Prop}

/-- Wherever `m` ends with a value, `m'` ends with a related one, or for one of the given
reasons. -/
def Backs (m : Evaluation α) (m' : Evaluation β) (E : Halt → Prop) (R : α → β → Prop) : Prop :=
  ∀ k a, (m k).result = .ok a → m'.Ends E (R a)

theorem Backs.bind (h : m.Backs m' E R) (hf : ∀ a b, R a b → (f a).Backs (f' b) E S) :
    (m >>= f).Backs (m' >>= f') E S := by
  intro k c hok
  obtain ⟨a, ha⟩ := exists_of_bind_eq_ok hok
  rw [(bind_of_ok (f := f) ha).1] at hok
  exact Ends.bind (h k a ha) fun b hab => hf a b hab _ c hok

theorem backs_pure {a : α} {b : β} (h : R a b) :
    (Pure.pure a : Evaluation α).Backs (Pure.pure b) E R := by
  intro _ c hc
  cases hc
  exact ends_pure h

theorem backs_fail (fault : EvaluationFault) : (fail fault : Evaluation α).Backs m' E R := by
  intro _ a ha
  cases ha

theorem backs_log (events events' : List Event) :
    (log events).Backs (log events') E fun _ _ => True :=
  fun _ _ _ => ends_log _

theorem backs_ofExcept {r : Except EvaluationFault α} {r' : Except EvaluationFault β}
    (h : ∀ a, r = .ok a → ∃ b, r' = .ok b ∧ R a b) : (ofExcept r).Backs (ofExcept r') E R := by
  cases r with
  | error fault => exact backs_fail fault
  | ok a =>
      obtain ⟨b, rfl, hab⟩ := h a rfl
      exact backs_pure hab

theorem backs_ask {g g' : GraphService} {context context' : CallContext}
    (h : g.Alike context g' context') (call : GraphCall) :
    (ask g context call).Backs (ask g' context' call) E SameSolutions := by
  intro k bs hbs j
  have hcall := h k j call
  rw [ask] at hbs ⊢
  cases hanswer : g.answer k call context with
  | error fault =>
      rw [hanswer] at hbs
      cases hbs
  | ok bs' =>
      rw [hanswer] at hbs hcall
      cases hbs
      cases hanswer' : g'.answer j call context' with
      | error fault =>
          rw [hanswer'] at hcall
          exact hcall.elim
      | ok cs =>
          rw [hanswer'] at hcall
          exact hcall

/-- What the evaluation ends with at some time has the element. -/
def Gives (m : Evaluation (List α)) (x : α) : Prop := ∃ k xs, (m k).result = .ok xs ∧ x ∈ xs

/-- An evaluation and one that backs it end with nothing but what the former gives. -/
theorem Backs.ends_gives {m m' : Evaluation (List α)} (h : m.Backs m' (fun _ => True) SameElements)
    (h' : m'.Backs m (fun _ => False) SameElements) :
    m'.Ends (fun _ => True) fun ys => ∀ y, y ∈ ys ↔ m.Gives y := by
  intro j
  cases hresult : (m' j).result with
  | error stop => trivial
  | ok ys =>
      intro y
      constructor
      · intro hy
        have hback := h' j ys hresult 0
        cases hfirst : (m 0).result with
        | error stop =>
            rw [hfirst] at hback
            exact hback.elim
        | ok xs =>
            rw [hfirst] at hback
            exact ⟨0, xs, hfirst, (hback y).mp hy⟩
      · rintro ⟨k, xs, hxs, hy⟩
        exact ((h k xs hxs).of_ok hresult y).mp hy

end Evaluation

section hops
variable {g g' : GraphService} {context context' : CallContext} {E : Halt → Prop}

theorem Hop.ends_same (h : Hop) {b c : Bindings} (hsame : b.Same c) : h.ends b = h.ends c := by
  rw [ends, ends, Endpoint.resolve_same hsame, hsame h.finish]

theorem Hop.backs_execute (halike : g.Alike context g' context') (h : Hop) :
    (h.execute g context).Backs (h.execute g' context') E SameElements := by
  unfold execute
  split
  · split
    · exact backs_pure (SameElements.refl _)
    · exact backs_fail _
  · refine Backs.bind (backs_ask halike _) ?_
    intro bs cs hsame
    refine Backs.bind (backs_ofExcept fun pairs hpairs =>
      exists_mapM_same (fun _ _ => h.ends_same) hsame hpairs) ?_
    exact fun _ _ hpairs => backs_pure hpairs.eraseDups

theorem backs_joinedPairs (halike : g.Alike context g' context') (start : Endpoint)
    (branches : List (List Instruction)) : (joinedPairs g context start branches).Backs
      (joinedPairs g' context' start branches) E SameElements := by
  have hbranches : (pairsByChain g context start branches).Backs
      (pairsByChain g' context' start branches) E SameElements := by
    induction branches with
    | nil => exact backs_pure (SameElements.refl _)
    | cons is branches ih =>
        rw [pairsByChain, pairsByChain]
        refine Backs.bind (Hop.backs_execute halike _) fun _ _ hpairs => ?_
        exact Backs.bind ih fun _ _ hmore => backs_pure (hpairs.append hmore)
  exact Backs.bind hbranches fun _ _ hpairs => backs_pure hpairs.eraseDups

/-- The nodes that one of several chains leads to. -/
def landings (g : GraphService) (context : CallContext) (x : Term)
    (branches : List (List Instruction)) :
    Evaluation (List Term) := do
  let pairs ← joinedPairs g context (.term x) branches
  return pairs.map (·.2)

theorem backs_landings (halike : g.Alike context g' context') (x : Term)
    (branches : List (List Instruction)) :
    (landings g context x branches).Backs (landings g' context' x branches) E SameElements :=
  Backs.bind (backs_joinedPairs halike _ _) fun _ _ hpairs => backs_pure (hpairs.map _)

end hops

namespace Search
variable {s : Search} {g : GraphService} {context : CallContext} {E : Halt → Prop}

/-- The same search in another graph. -/
def asking (s : Search) (g : GraphService) (context : CallContext) : Search :=
  { s with graph := g, context }

theorem backs_probe (halike : s.graph.Alike s.context g context) :
    s.probe.Backs (s.asking g context).probe E SameElements := by
  have hall : ∀ openings, (s.probeAll openings).Backs ((s.asking g context).probeAll openings) E
      SameElements := by
    intro openings
    induction openings with
    | nil => exact backs_pure (SameElements.refl _)
    | cons branches openings ih =>
        rw [probeAll, probeAll]
        refine Backs.bind (backs_joinedPairs halike _ _) fun _ _ hpairs => ?_
        exact Backs.bind ih fun _ _ hmore => backs_pure ((hpairs.map _).append hmore)
  exact Backs.bind (hall _) fun _ _ hxs => backs_pure hxs.eraseDups

/-- The nodes of the graph, as they are found for the empty walks. -/
def everyNode (s : Search) : Evaluation (List Term) := do
  let solutions ← .ask s.graph s.context (.bgp [anyTriple])
  return tripleEnds solutions

theorem sameElements_tripleEnds {bs cs : List Bindings} (h : SameSolutions bs cs) :
    SameElements (tripleEnds bs) (tripleEnds cs) := by
  intro x
  simp only [tripleEnds, List.mem_flatMap]
  constructor
  · rintro ⟨b, hb, hx⟩
    obtain ⟨c, hc, hsame⟩ := h.1 b hb
    exact ⟨c, hc, by rw [← hsame, ← hsame]; exact hx⟩
  · rintro ⟨c, hc, hx⟩
    obtain ⟨b, hb, hsame⟩ := h.2 c hc
    exact ⟨b, hb, by rw [hsame, hsame]; exact hx⟩

theorem backs_everyNode (halike : s.graph.Alike s.context g context) :
    s.everyNode.Backs (s.asking g context).everyNode E SameElements :=
  Backs.bind (backs_ask halike _) fun _ _ hsame => backs_pure (sameElements_tripleEnds hsame)

end Search

end PropertyPath
