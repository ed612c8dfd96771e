import Mathlib.Data.Finset.Card
import PropertyPath.Proofs.Search.Visits

/-!
# Visits that go on after a refusal

A configuration is refused when it is new and as many as the limit allows have been reached before.
What is refused is remembered and counted like anything else, so it is no longer new when it comes
again. The limit therefore bounds how many configurations are let in, but it bounds what is
remembered only as long as nothing is refused.
-/
namespace PropertyPath.Visits

/-- What visits are asked for: to visit a configuration, or to deliver a pair. -/
inductive Call where
  | visit (c : Configuration)
  | deliver (origin object : Term)
  deriving DecidableEq, Repr

/-- What a call is answered; only visits are refused. -/
inductive Reply where
  | visited (outcome : Except EvaluationFault Bool)
  | delivered (new : Bool)
  deriving DecidableEq

/-- The visits after a call, refused or not, and what it is answered. -/
def answer (v : Visits) : Call → Visits × Reply
  | .visit c => ((v.visit c).1, .visited (v.visit c).2)
  | .deliver origin object =>
      ((v.deliver origin object).1, .delivered (v.deliver origin object).2)

/-- The visits after several calls and what each of them is answered; a refusal does not end the
calls. -/
def answerAll (v : Visits) : List Call → Visits × List Reply
  | [] => (v, [])
  | call :: calls =>
      let (w, reply) := v.answer call
      let (w', replies) := w.answerAll calls
      (w', reply :: replies)

/-- The configurations that have come up, whatever was answered. -/
def arrivals (calls : List Call) : List (Term × Term × StateName) :=
  calls.filterMap fun
    | .visit c => some c.key
    | .deliver _ _ => none

/-- The pairs that have come up. -/
def pairs (calls : List Call) : List (Term × Term) :=
  calls.filterMap fun
    | .visit _ => none
    | .deliver origin object => some (origin, object)

/-- How many different configurations have come up. -/
def reach (calls : List Call) : Nat := (arrivals calls).toFinset.card

/-- What a call is answered after the given ones: a configuration that has come up before is not
new, and a new one is refused when as many have come up as the limit allows. -/
def reply (limit : Nat) (before : List Call) : Call → Reply
  | .visit c =>
      if (arrivals before).contains c.key then .visited (.ok false)
      else if reach before < limit then .visited (.ok true)
      else .visited (.error (.visitLimitExceeded limit))
  | .deliver origin object => .delivered !(pairs before).contains (origin, object)

def replies (limit : Nat) (before : List Call) : List Call → List Reply
  | [] => []
  | call :: calls => reply limit before call :: replies limit (before ++ [call]) calls

section reach
variable (before : List Call) (c : Configuration) (origin object : Term)
variable {limit : Nat} {before c}

theorem reply_visit_of_mem (hc : c.key ∈ arrivals before) :
    reply limit before (.visit c) = .visited (.ok false) := if_pos (List.contains_iff_mem.mpr hc)

theorem reply_visit_of_notMem (hc : c.key ∉ arrivals before) : reply limit before (.visit c) =
    if reach before < limit then .visited (.ok true)
      else .visited (.error (.visitLimitExceeded limit)) :=
  if_neg (mt List.contains_iff_mem.mp hc)

variable (before c)

@[simp] theorem arrivals_append_visit :
    arrivals (before ++ [.visit c]) = arrivals before ++ [c.key] := by
  simp [arrivals]

@[simp] theorem arrivals_append_deliver :
    arrivals (before ++ [.deliver origin object]) = arrivals before := by
  simp [arrivals]

@[simp] theorem pairs_append_visit : pairs (before ++ [.visit c]) = pairs before := by
  simp [pairs]

@[simp] theorem pairs_append_deliver :
    pairs (before ++ [.deliver origin object]) = pairs before ++ [(origin, object)] := by
  simp [pairs]

/-- Only a configuration that is new adds to the number of different ones. -/
theorem reach_append_visit :
    reach (before ++ [.visit c]) = reach before + if c.key ∈ arrivals before then 0 else 1 := by
  have hset : (arrivals before ++ [c.key]).toFinset = insert c.key (arrivals before).toFinset := by
    ext k
    simp
  rw [reach, arrivals_append_visit, hset, Finset.card_insert_eq_ite]
  simp only [List.mem_toFinset]
  split <;> rfl

@[simp] theorem reach_append_deliver :
    reach (before ++ [.deliver origin object]) = reach before := by
  rw [reach, arrivals_append_deliver, reach]

end reach

/-- The invariant of a run: what has come up is remembered, each configuration once. -/
structure Remembers (v : Visits) (limit : Nat) (calls : List Call) : Prop where
  limit : v.limit = some limit
  nodup : v.reached.Nodup
  reached : ∀ k, k ∈ v.reached ↔ k ∈ arrivals calls
  delivered : ∀ p, p ∈ v.delivered ↔ p ∈ pairs calls

variable {v : Visits} {limit : Nat} {before : List Call}

theorem remembers_withLimit (limit : Nat) : (withLimit (some limit)).Remembers limit [] where
  limit := rfl
  nodup := List.nodup_nil
  reached _ := Iff.rfl
  delivered _ := Iff.rfl

namespace Remembers

theorem size_eq (h : v.Remembers limit before) : v.size = reach before := by
  have hset : v.reached.toFinset = (arrivals before).toFinset := by
    ext k
    rw [List.mem_toFinset, List.mem_toFinset, h.reached]
  rw [size, reach, ← hset, List.toFinset_card_of_nodup h.nodup]

/-- With one configuration more there are more than the limit allows when there were enough
before. -/
theorem checkLimit_add (h : v.Remembers limit before) (c : Configuration) :
    (v.add c).checkLimit =
      if reach before < limit then .ok () else .error (.visitLimitExceeded limit) := by
  have hlimit : (v.add c).limit = some limit := h.limit
  have hsize : (v.add c).size = reach before + 1 := congrArg (· + 1) h.size_eq
  rw [checkLimit, hlimit]
  change (if limit < (v.add c).size then _ else _) = _
  rw [hsize]
  by_cases hlt : reach before < limit
  · rw [if_neg (by omega), if_pos hlt]
  · rw [if_pos (by omega), if_neg hlt]

/-- A visit is remembered, whether it is refused or not. -/
theorem visit (h : v.Remembers limit before) (c : Configuration) :
    (v.visit c).1.Remembers limit (before ++ [.visit c]) := by
  have hmem (k : Term × Term × StateName) :
      k ∈ (v.visit c).1.reached ↔ k ∈ arrivals before ∨ k = c.key := by
    rw [visit_fst]
    split
    · next hc =>
        rw [h.reached]
        exact ⟨Or.inl, fun hk => hk.elim id fun heq => heq ▸ (h.reached _).mp hc⟩
    · rw [add, List.mem_cons, h.reached, or_comm]
  constructor
  · rw [visit_fst]
    split
    · exact h.limit
    · exact h.limit
  · exact nodup_reached_visit h.nodup c
  · intro k
    rw [hmem, arrivals_append_visit, List.mem_append, List.mem_singleton]
  · intro p
    rw [pairs_append_visit, ← h.delivered, visit_fst]
    split <;> exact Iff.rfl

theorem deliver (h : v.Remembers limit before) (origin object : Term) :
    (v.deliver origin object).1.Remembers limit (before ++ [.deliver origin object]) := by
  obtain ⟨new, hdeliver, hnew, _⟩ := v.deliver_spec origin object
  rw [hdeliver]
  refine ⟨h.limit, h.nodup, fun k => ?_, fun p => ?_⟩
  · rw [arrivals_append_deliver]
    exact h.reached k
  · rw [pairs_append_deliver, List.mem_append (s := pairs before),
      List.mem_singleton, ← h.delivered]
    cases new with
    | true => exact List.mem_cons.trans or_comm
    | false => exact ⟨Or.inl, fun hp => hp.elim id fun heq => heq ▸ hnew⟩

/-- A call is answered as the calls before it tell, and is remembered. -/
theorem answer (h : v.Remembers limit before) (call : Call) :
    ∃ w, v.answer call = (w, reply limit before call) ∧ w.Remembers limit (before ++ [call]) := by
  cases call with
  | visit c =>
      have hreply : Reply.visited (v.visit c).2 = reply limit before (.visit c) := by
        rw [Visits.visit]
        by_cases hc : c.key ∈ v.reached
        · rw [if_pos hc, reply_visit_of_mem ((h.reached _).mp hc)]
        · rw [if_neg hc, reply_visit_of_notMem (mt (h.reached _).mpr hc), h.checkLimit_add]
          split <;> rfl
      exact ⟨_, Prod.ext rfl hreply, h.visit c⟩
  | deliver origin object =>
      have hreply : Reply.delivered (v.deliver origin object).2 =
          reply limit before (.deliver origin object) := by
        rw [Visits.deliver, reply]
        by_cases hp : (origin, object) ∈ v.delivered
        · simp [hp, (h.delivered _).mp hp]
        · simp [hp, mt (h.delivered _).mpr hp]
      exact ⟨_, Prod.ext rfl hreply, h.deliver origin object⟩

/-- However many calls there are, each is answered as those before it tell. -/
theorem answerAll (h : v.Remembers limit before) (calls : List Call) :
    ∃ w, v.answerAll calls = (w, replies limit before calls) ∧
    w.Remembers limit (before ++ calls) := by
  induction calls generalizing v before with
  | nil => exact ⟨v, rfl, by simpa using h⟩
  | cons call calls ih =>
      obtain ⟨u, hanswer, hu⟩ := h.answer call
      obtain ⟨w, hrest, hw⟩ := ih hu
      refine ⟨w, ?_, by simpa using hw⟩
      rw [Visits.answerAll, hanswer]
      change (let (w', rs) := u.answerAll calls; (w', reply limit before call :: rs)) = _
      rw [hrest]
      rfl

end Remembers

/-- As many configurations are let in as the limit allows, and all others that are new are
refused. -/
theorem count_replies (limit : Nat) (before calls : List Call) :
    (replies limit before calls).count (.visited (.ok true)) + min limit (reach before) =
        min limit (reach (before ++ calls)) ∧
      (replies limit before calls).count (.visited (.error (.visitLimitExceeded limit))) +
        (reach before - limit) = reach (before ++ calls) - limit := by
  induction calls generalizing before with
  | nil => simp [replies]
  | cons call calls ih =>
      obtain ⟨hlet, hrefused⟩ := ih (before ++ [call])
      rw [List.append_assoc, List.singleton_append] at hlet hrefused
      rw [replies, List.count_cons, List.count_cons]
      cases call with
      | deliver origin object =>
          rw [reach_append_deliver] at hlet hrefused
          simpa [reply] using ⟨hlet, hrefused⟩
      | visit c =>
          rw [reach_append_visit] at hlet hrefused
          by_cases hc : c.key ∈ arrivals before
          · rw [if_pos hc] at hlet hrefused
            rw [reply_visit_of_mem hc]
            simpa using ⟨hlet, hrefused⟩
          · rw [if_neg hc] at hlet hrefused
            rw [reply_visit_of_notMem hc]
            by_cases hlt : reach before < limit
            · simp only [hlt, if_true, beq_self_eq_true, beq_iff_eq, reduceCtorEq,
                Reply.visited.injEq, if_false]
              omega
            · simp only [hlt, if_true, beq_self_eq_true, beq_iff_eq, reduceCtorEq,
                Reply.visited.injEq, if_false]
              omega

/-- However visits and deliveries follow each other, refusals included: each is answered as those
before it tell, where a refused configuration counts as one that has come up, and every
configuration that has come up is counted. As many are let in as the limit allows, and the rest of
them are refused, so no more are counted than the limit allows exactly as long as nothing is
refused. -/
theorem answerAll_withLimit (limit : Nat) (calls : List Call) :
    ∃ v, (withLimit (some limit)).answerAll calls = (v, replies limit [] calls) ∧
      v.size = reach calls ∧
      (replies limit [] calls).count (.visited (.ok true)) = min limit v.size ∧
      (replies limit [] calls).count (.visited (.error (.visitLimitExceeded limit))) =
        v.size - limit ∧
      (v.size ≤ limit ↔
        .visited (.error (.visitLimitExceeded limit)) ∉ replies limit [] calls) := by
  obtain ⟨v, hrun, hv⟩ := (remembers_withLimit limit).answerAll calls
  obtain ⟨hlet, hrefused⟩ := count_replies limit [] calls
  rw [List.nil_append] at hlet hrefused hv
  have hnone : reach [] = 0 := rfl
  rw [hnone] at hlet hrefused
  refine ⟨v, hrun, hv.size_eq, ?_⟩
  rw [hv.size_eq, ← List.count_eq_zero]
  omega

/-- Of three visits the second goes over the limit and is refused. The third visits the same
configuration again and is not refused any more, and two configurations are counted where the limit
allows one. -/
theorem answerAll_withLimit_beyond_limit :
    let first : Configuration := .origin (.iri ⟨"a"⟩)
    let second : Configuration := first.successor (.iri ⟨"b"⟩) 1
    ∃ v, (withLimit (some 1)).answerAll [.visit first, .visit second, .visit second] =
        (v, [.visited (.ok true), .visited (.error (.visitLimitExceeded 1)),
          .visited (.ok false)]) ∧
      v.size = 2 ∧ ¬ v.size ≤ 1 := by
  intro first second
  exact ⟨_, rfl, rfl, by decide⟩

end PropertyPath.Visits
