import PropertyPath.Proofs.Reduction.Coarsest
import PropertyPath.Proofs.Reduction.Recompression

/-!
# Running a pass twice

The outcome of a pass is left as it is by the same pass: merged states are not bisimilar, one choice
is left between two states, and nothing is listed twice. Compression needs to know that no
transition leads from a state that is not reached into one that is; without that it may have to be
run once more, and never more often, since its first outcome has only states that are reached.
Nested automata have been through the pass before the automaton around them, so what holds on one
level holds on all of them.
-/
namespace PropertyPath
open Relation (ReflTransGen)

namespace Transition
variable {seen : List (StateName × StateName)} {ts : List Transition}

/-- No two choices in the list are between the same states, at whichever places they stand. -/
def Apart (ts : List Transition) : Prop :=
  ts.Pairwise fun t u => t.TakesChains → u.TakesChains → t.ends ≠ u.ends

theorem apart_joinParallel : Apart (joinParallel seen ts) := by
  induction ts generalizing seen with
  | nil => exact List.Pairwise.nil
  | cons t ts ih =>
      rw [joinParallel]
      split
      · next hclosure => exact List.pairwise_cons.mpr ⟨fun u _ ht => absurd hclosure ht, ih⟩
      · split
        · exact ih
        · refine List.pairwise_cons.mpr ⟨fun u hu _ huchains hends => ?_, ih⟩
          exact ends_notMem_of_joinParallel hu huchains (hends ▸ List.mem_cons_self)

/-- What has no two choices between the same states, and no chain twice in a choice, is joined
already. -/
theorem joinParallel_eq_self
    (hchoices : ∀ t ∈ ts, t.TakesChains →
      ∃ branches, t.label = .alternative branches ∧ branches.Nodup)
    (hapart : Apart ts) (hseen : ∀ t ∈ ts, t.TakesChains → t.ends ∉ seen) :
    joinParallel seen ts = ts := by
  induction ts generalizing seen with
  | nil => rfl
  | cons t ts ih =>
      obtain ⟨hfirst, hrest⟩ := List.pairwise_cons.mp hapart
      obtain ⟨hchoice, hchoices⟩ := List.forall_mem_cons.mp hchoices
      obtain ⟨hnew, hseen⟩ := List.forall_mem_cons.mp hseen
      rw [joinParallel]
      split
      · rw [ih hchoices hrest hseen]
      · next chains hchains =>
          have htakes : t.TakesChains := by simp [TakesChains, hchains]
          obtain ⟨branches, hlabel, hnodup⟩ := hchoice htakes
          have hothers : chainsBetween t.ends ts = [] := by
            rw [chainsBetween, List.flatMap_eq_nil_iff]
            intro u hu
            split
            · next hends =>
                have hclosure : ¬ u.TakesChains :=
                  fun huchains => hfirst u hu htakes huchains hends.symm
                rw [TakesChains, not_not] at hclosure
                rw [hclosure]
                rfl
            · rfl
          have hown : chainsBetween t.ends (t :: ts) = branches := by
            rw [chainsBetween, List.flatMap_cons, ← chainsBetween, hothers, if_pos rfl,
              hlabel, List.append_nil]
            rfl
          have hstill : ∀ u ∈ ts, u.TakesChains → u.ends ∉ t.ends :: seen := by
            intro u hu huchains hmem
            rcases List.mem_cons.mp hmem with hends | hmem
            · exact hfirst u hu htakes huchains hends.symm
            · exact hseen u hu huchains hmem
          rw [if_neg (by simpa using hnew htakes), hown, eraseDups_eq_self hnodup,
            ih hchoices hrest hstill, ← hlabel]
          cases t
          rfl

theorem distinctBranches_distinctBranches (t : Transition) :
    t.distinctBranches.distinctBranches = t.distinctBranches := by
  obtain ⟨source, target, label⟩ := t
  cases label with
  | alternative branches => simp [distinctBranches, eraseDups_eq_self (nodup_eraseDups branches)]
  | _ => rfl

end Transition

namespace Automaton
variable {a : Automaton}

/-- Every merged state is the first of its block. -/
theorem first_quotient (h : a.validate = .ok ()) {s : State} (hs : s ∈ a.quotient.states) :
    a.quotient.blocks.first s.name = s.name := by
  obtain ⟨_, hvalid, _⟩ := mergeStates_reduct h
  obtain ⟨t, ht, hname, _⟩ := first_spec hvalid hs
  obtain ⟨ht, hfirst⟩ := mem_quotient_states.mp ht
  have hbisimilar := (first_eq_iff_bisimilar hvalid hs ht).mp (hname.symm.trans hfirst.symm)
  rw [← hname, eq_of_bisimilar_quotient h hs ht hbisimilar]

theorem quotient_quotient (h : a.validate = .ok ()) : a.quotient.quotient = a.quotient := by
  obtain ⟨_, hvalid, _⟩ := mergeStates_reduct h
  have hnamed {s : StateName} (hs : ∃ q ∈ a.quotient.states, q.name = s) :
      a.quotient.blocks.first s = s := by
    obtain ⟨q, hq, rfl⟩ := hs
    exact first_quotient h hq
  have hstates : (a.quotient.states.filter fun s => a.quotient.blocks.first s.name == s.name) =
      a.quotient.states :=
    List.filter_eq_self.mpr fun s hs => beq_iff_eq.mpr (first_quotient h hs)
  have himages :
      a.quotient.transitions.map (Partition.image a.quotient.blocks) = a.quotient.transitions := by
    refine (List.map_congr_left fun t ht => ?_).trans (List.map_id _)
    obtain ⟨hsource, htarget, _⟩ := (validate_eq_ok_iff.mp hvalid).2 t ht
    rw [Partition.image, hnamed hsource, hnamed htarget]
    obtain ⟨source, target, label⟩ := t
    rfl
  have hdistinct : a.quotient.transitions.Nodup := nodup_eraseDups _
  rw [quotient, hstates, himages, eraseDups_eq_self hdistinct]
  rfl

theorem joinedPaths_joinedPaths (a : Automaton) : a.joinedPaths.joinedPaths = a.joinedPaths := by
  refine congrArg (Automaton.mk a.states) (Transition.joinParallel_eq_self ?_ ?_ ?_)
  · exact a.isJoined_joinedPaths.choices
  · exact Transition.apart_joinParallel
  · exact fun _ _ _ => List.not_mem_nil

theorem withoutRepeats_withoutRepeats (a : Automaton) :
    a.withoutRepeats.withoutRepeats = a.withoutRepeats := by
  have hdistinct : a.withoutRepeats.transitions.Nodup := nodup_eraseDups _
  have hsame : a.withoutRepeats.transitions.map Transition.distinctBranches =
      a.withoutRepeats.transitions := by
    refine (List.map_congr_left fun u hu => ?_).trans (List.map_id _)
    obtain ⟨t, _, rfl⟩ := mem_withoutRepeats.mp hu
    exact t.distinctBranches_distinctBranches
  rw [withoutRepeats, hsame, eraseDups_eq_self hdistinct]
  rfl

theorem shallow_enteredFromReached : Shallow EnteredFromReached := by
  intro states us ts h hentered u hu hreached
  obtain ⟨t, ht, hlifts⟩ := exists_related_of_mem h hu
  have hforth (p q : StateName) : Transition.Joins ts p q → Transition.Joins us p q :=
    Transition.joins_of_lifts h
  have hback (p q : StateName) (hjoins : Transition.Joins us p q) : Transition.Joins ts p q := by
    obtain ⟨v, hv, rfl, rfl⟩ := hjoins
    obtain ⟨w, hw, hlifts⟩ := exists_related_of_mem h hv
    exact ⟨w, hw, hlifts.source.symm, hlifts.target.symm⟩
  rw [hlifts.target] at hreached
  rw [hlifts.source]
  exact ReflTransGen.mono hforth _ _ (hentered t ht (ReflTransGen.mono hback _ _ hreached))

theorem IsReached.enteredFromReached (h : a.validate = .ok ()) (hreached : a.IsReached) :
    a.EnteredFromReached := by
  intro t ht _
  obtain ⟨s, hs, hname⟩ := ((validate_eq_ok_iff.mp h).2 t ht).source
  exact hname ▸ hreached s hs

end Automaton

namespace Pass
open Automaton

/-- What the pass needs to be told of an automaton so that there is nothing left to do for it a
second time. -/
def Settles : Pass → Automaton → Prop
  | pathsCompression => EnteredFromReached
  | _ => fun _ => True

theorem shallow_settles (p : Pass) : Shallow p.Settles := by
  cases p with
  | pathsCompression => exact shallow_enteredFromReached
  | _ => exact fun _ _ _ _ _ => trivial

theorem result_result (p : Pass) {a : Automaton} (h : a.validate = .ok ()) (hp : p.Settles a) :
    p.result (p.result a) = p.result a := by
  cases p with
  | pathsCompression => exact keptAutomaton_keptAutomaton h hp
  | statesMerging => exact quotient_quotient h
  | pathsMerging => exact joinedPaths_joinedPaths a
  | distinctPaths => exact withoutRepeats_withoutRepeats a

/-- Transitions are left as they are, if what they nest is. -/
theorem reduceNested_eq_self (p : Pass) {ts : List Transition}
    (h : ∀ t ∈ ts, ∀ kind b, t.label = .closure kind b → p.reduce b = .ok b) :
    p.reduceNested ts = .ok ts := by
  induction ts with
  | nil => rfl
  | cons t ts ih =>
      obtain ⟨source, target, label⟩ := t
      obtain ⟨hlabel, hts⟩ := List.forall_mem_cons.mp h
      have hsame : p.reduceLabel label = .ok label := by
        cases label with
        | closure kind nested =>
            rw [reduceLabel, hlabel kind nested rfl]
            rfl
        | _ => rfl
      rw [reduceNested, hsame, ih hts]
      rfl

/-- An automaton is left as it is, if its nested automata are and nothing is left to do on its own
level. -/
theorem reduce_eq_self (p : Pass) {b : Automaton} (h : b.validate = .ok ()) (htop : p.result b = b)
    (hnested : ∀ t ∈ b.transitions, ∀ kind c, t.label = .closure kind c → p.reduce c = .ok c) :
    p.reduce b = .ok b := by
  obtain ⟨states, ts⟩ := b
  obtain ⟨hmake, _⟩ := make_of_proper (validate_eq_ok_iff.mp h).1 (validate_eq_ok_iff.mp h).2
  obtain ⟨hresult, _⟩ := p.reduceTop_reduct h
  rw [htop] at hresult
  rw [Pass.reduce, bind_eq_ok_iff]
  exact ⟨ts, p.reduceNested_eq_self hnested, bind_eq_ok_iff.mpr ⟨_, hmake, hresult⟩⟩

/-- The outcome of a pass is left as it is by the same pass. -/
theorem reduce_reduce (p : Pass) {a : Automaton} (h : a.validate = .ok ())
    (hp : ∀ c, a.Includes c → p.Settles c) :
    ∃ b, p.reduce a = .ok b ∧ b.validate = .ok () ∧ p.reduce b = .ok b := by
  -- what was given is a premise of the relation, since each nested automaton is reduced with its
  -- own levels
  have hsteps : p.Steps fun b a => (∀ c, a.Includes c → p.Settles c) → p.reduce b = .ok b := by
    intro states us ts _ hvalid hlifts hbefore
    have htop : p.Settles ⟨states, us⟩ := p.shallow_settles states us ts
      (hlifts.imp fun _ _ h => h.mono fun _ _ _ => trivial) (hbefore _ (.here _))
    obtain ⟨_, hvalid', _⟩ := p.reduceTop_reduct hvalid
    refine p.reduce_eq_self hvalid' (p.result_result hvalid htop) fun v hv kind b hlabel => ?_
    obtain ⟨t, ht, a, htlabel, hfixed⟩ := p.nested_of_lifts hvalid hlifts hv hlabel
    exact hfixed fun c hc => hbefore c (.within ht htlabel hc)
  obtain ⟨b, hb, hvalid, hfixed⟩ := hsteps.reduce h
  exact ⟨b, hb, hvalid, hfixed hp⟩

end Pass

namespace Automaton

/-- Compressing a third time changes nothing, and neither does the second time if no transition
leads from a state that is not reached into one that is, on any level. -/
theorem reduce_compression_settles {states : List State} {ts : List Transition} {a : Automaton}
    (h : make states ts = .ok a) : ∃ b c, Pass.pathsCompression.reduce a = .ok b ∧
      Pass.pathsCompression.reduce b = .ok c ∧ Pass.pathsCompression.reduce c = .ok c ∧
      ((∀ d, a.Includes d → d.EnteredFromReached) → c = b) := by
  have hvalid := validate_of_make h
  obtain ⟨b, hb, hbvalid, hreached⟩ := Pass.pathsCompression.reduce_throughout (Q := IsReached)
    (fun _ _ _ _ _ => trivial) (fun hvalid _ => isReached_keptAutomaton hvalid) hvalid
    fun _ _ => trivial
  obtain ⟨c, hc, _, hfixed⟩ := Pass.pathsCompression.reduce_reduce hbvalid fun d hd =>
    (hreached d hd).enteredFromReached (hd.validate hbvalid)
  refine ⟨b, c, hb, hc, hfixed, fun hentered => ?_⟩
  obtain ⟨b', hb', _, hfixed'⟩ := Pass.pathsCompression.reduce_reduce hvalid hentered
  cases hb.symm.trans hb'
  cases hc.symm.trans hfixed'
  rfl

/-- The chain is compressed on both levels. State 5 is not reached and enters only itself. -/
theorem reduce_compression_settles_of_chains :
    let p : Instruction := .forward ⟨"p"⟩
    let q : Instruction := .backward ⟨"q"⟩
    let nested : Automaton :=
      ⟨[⟨0, true, false⟩, ⟨1, false, false⟩, ⟨2, false, true⟩, ⟨5, false, false⟩],
       [⟨0, 1, .property p⟩, ⟨1, 2, .property q⟩, ⟨5, 5, .property p⟩]⟩
    let states : List State :=
      [⟨0, true, false⟩, ⟨1, false, false⟩, ⟨2, false, false⟩, ⟨3, false, true⟩, ⟨5, false, false⟩]
    let ts : List Transition :=
      [⟨0, 1, .property q⟩, ⟨1, 2, .property p⟩, ⟨2, 3, .closure .zeroOrMore nested⟩,
       ⟨5, 5, .property q⟩]
    let b : Automaton :=
      ⟨[⟨0, true, false⟩, ⟨2, false, false⟩, ⟨3, false, true⟩],
        [⟨0, 2, .sequence [q, p]⟩, ⟨2, 3, .closure .zeroOrMore
          ⟨[⟨0, true, false⟩, ⟨2, false, true⟩], [⟨0, 2, .sequence [p, q]⟩]⟩⟩]⟩
    make states ts = .ok ⟨states, ts⟩ ∧ Pass.pathsCompression.reduce ⟨states, ts⟩ = .ok b ∧
      Pass.pathsCompression.reduce b = .ok b := by
  intro p q nested states ts b
  have h : make states ts = .ok ⟨states, ts⟩ := rfl
  have hb : Pass.pathsCompression.reduce ⟨states, ts⟩ = .ok b := by decide +kernel
  have hfirst : Transition.Joins ts 0 1 := ⟨_, List.mem_cons_self, rfl, rfl⟩
  have hsecond : Transition.Joins ts 1 2 := ⟨_, List.mem_cons_of_mem _ List.mem_cons_self, rfl, rfl⟩
  have htop : EnteredFromReached ⟨states, ts⟩ := by
    intro t ht hreached
    simp only [ts, List.mem_cons, List.not_mem_nil, or_false] at ht
    rcases ht with rfl | rfl | rfl | rfl
    · exact ReflTransGen.refl
    · exact ReflTransGen.single hfirst
    · exact (ReflTransGen.single hfirst).tail hsecond
    · exact hreached
  have hnested : nested.EnteredFromReached := by
    intro t ht hreached
    simp only [nested, List.mem_cons, List.not_mem_nil, or_false] at ht
    rcases ht with rfl | rfl | rfl
    · exact ReflTransGen.refl
    · exact ReflTransGen.single ⟨_, List.mem_cons_self, rfl, rfl⟩
    · exact hreached
  have hentered : ∀ d, Includes ⟨states, ts⟩ d → d.EnteredFromReached := by
    rintro d (_ | ⟨ht, hlabel, hd⟩)
    · exact htop
    · have hd : nested.Includes d := by
        simp only [ts, List.mem_cons, List.not_mem_nil, or_false] at ht
        rcases ht with rfl | rfl | rfl | rfl <;> cases hlabel
        exact hd
      cases hd with
      | here => exact hnested
      | within ht hlabel _ =>
          simp only [nested, List.mem_cons, List.not_mem_nil, or_false] at ht
          rcases ht with rfl | rfl | rfl <;> cases hlabel
  obtain ⟨b', c, hb', hc, _, hsettled⟩ := reduce_compression_settles h
  cases hb.symm.trans hb'
  cases hsettled hentered
  exact ⟨h, hb, hc⟩

/-- State 3 is not reached, but enters state 1, which therefore is kept the first time and left out
the second time. -/
theorem reduce_compression_twice_of_unreached :
    let p : Instruction := .forward ⟨"p"⟩
    let states : List State :=
      [⟨0, true, false⟩, ⟨1, false, false⟩, ⟨2, false, true⟩, ⟨3, false, false⟩]
    let ts : List Transition := [⟨0, 1, .property p⟩, ⟨1, 2, .property p⟩, ⟨3, 1, .property p⟩]
    let b : Automaton := ⟨[⟨0, true, false⟩, ⟨1, false, false⟩, ⟨2, false, true⟩],
      [⟨0, 1, .sequence [p]⟩, ⟨1, 2, .sequence [p]⟩]⟩
    let c : Automaton := ⟨[⟨0, true, false⟩, ⟨2, false, true⟩], [⟨0, 2, .sequence [p, p]⟩]⟩
    make states ts = .ok ⟨states, ts⟩ ∧ Pass.pathsCompression.reduce ⟨states, ts⟩ = .ok b ∧
      Pass.pathsCompression.reduce b = .ok c ∧ c ≠ b := by
  intro p states ts b c
  exact ⟨rfl, by decide +kernel, by decide +kernel, by decide +kernel⟩

end Automaton

end PropertyPath
