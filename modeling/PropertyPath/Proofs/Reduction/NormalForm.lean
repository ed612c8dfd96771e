import PropertyPath.Proofs.Automaton.Inside
import PropertyPath.Proofs.Reduction.Passes

/-!
# The normal form of optimized automata

Each pass of the optimizer adds something to what an automaton looks like, on every level:
compression drops the states that are not reached, joining leaves one choice between two states, and
removing repeats leaves no transition twice. None of this depends on which automata are nested, so
it is still there when a later pass has reduced those, and each pass keeps what the passes before it
have made.
-/
namespace PropertyPath
open Relation (ReflTransGen)

section lifts
variable {R S : Automaton → Automaton → Prop}

theorem Label.Lifts.mono (hRS : ∀ b a, R b a → S b a) {l' l : Label} (h : l'.Lifts R l) :
    l'.Lifts S l := by
  cases h with
  | same hbranches => exact .same hbranches
  | closure hvalid hR => exact .closure hvalid (hRS _ _ hR)

theorem Transition.Lifts.mono (hRS : ∀ b a, R b a → S b a) {u t : Transition} (h : u.Lifts R t) :
    u.Lifts S t :=
  ⟨h.source, h.target, h.label.mono hRS⟩

end lifts

namespace Transition

/-- One of the transitions leads from the first state to the second. -/
def Joins (ts : List Transition) (p q : StateName) : Prop := ∃ t ∈ ts, t.source = p ∧ t.target = q

/-- The transition is no closure. -/
def TakesChains (t : Transition) : Prop := t.label.branches? ≠ none

theorem Lifts.eq_of_takesChains {R : Automaton → Automaton → Prop}
    {u t : Transition} (h : u.Lifts R t)
    (hu : u.TakesChains) : u = t := by
  obtain ⟨source, target, label⟩ := u
  obtain ⟨source', target', label'⟩ := t
  obtain ⟨rfl, rfl, hlabel⟩ := h
  cases hlabel with
  | same _ => rfl
  | closure _ _ => exact absurd rfl hu

theorem joins_mono {ts us : List Transition} (hsub : ts ⊆ us) {p q : StateName} (h : Joins ts p q) :
    Joins us p q := by
  obtain ⟨t, ht, hends⟩ := h
  exact ⟨t, hsub ht, hends⟩

theorem joins_of_lifts {R : Automaton → Automaton → Prop} {us ts : List Transition}
    (h : List.Forall₂ (Lifts R) us ts) {p q : StateName} (hjoins : Joins ts p q) :
    Joins us p q := by
  obtain ⟨t, ht, rfl, rfl⟩ := hjoins
  obtain ⟨u, hu, hlifts⟩ := exists_related_of_mem h.flip ht
  exact ⟨u, hu, hlifts.source, hlifts.target⟩

section joinParallel
variable {seen : List (StateName × StateName)} {ts : List Transition}

/-- Every pair of states that was joined is joined still. -/
theorem joins_joinParallel {t : Transition} (ht : t ∈ ts) :
    Joins (joinParallel [] ts) t.source t.target := by
  cases hlabel : t.label.branches? with
  | none => exact ⟨t, mem_joinParallel_of_closure ht hlabel, rfl, rfl⟩
  | some branches =>
      obtain ⟨u, hu, hends, _⟩ :=
        (exists_choice_of_branches [] ht hlabel).resolve_left List.not_mem_nil
      exact ⟨u, hu, Prod.mk.inj hends⟩

theorem ends_notMem_of_joinParallel {u : Transition} (hu : u ∈ joinParallel seen ts)
    (hchains : u.TakesChains) :
    u.ends ∉ seen := by
  induction ts generalizing seen with
  | nil => cases hu
  | cons t ts ih =>
      rw [joinParallel] at hu
      split at hu
      · next hnone =>
          rcases List.mem_cons.mp hu with rfl | hu
          · exact absurd hnone hchains
          · exact ih hu
      · split at hu
        · exact ih hu
        · next hseen =>
            rcases List.mem_cons.mp hu with rfl | hu
            · exact fun hmem => hseen (List.contains_iff_mem.mpr hmem)
            · exact fun hmem => ih hu (List.mem_cons_of_mem _ hmem)

/-- No two choices that are left are between the same states. -/
theorem eq_of_joinParallel {t u : Transition} (ht : t ∈ joinParallel seen ts)
    (hu : u ∈ joinParallel seen ts)
    (htchains : t.TakesChains) (huchains : u.TakesChains) (hends : t.ends = u.ends) : t = u := by
  induction ts generalizing seen with
  | nil => cases ht
  | cons v ts ih =>
      rw [joinParallel] at ht hu
      split at ht
      · next hnone =>
          simp only [hnone] at hu
          rcases List.mem_cons.mp ht with rfl | ht
          · exact absurd hnone htchains
          · rcases List.mem_cons.mp hu with rfl | hu
            · exact absurd hnone huchains
            · exact ih ht hu
      · next branches hsome =>
          simp only [hsome] at hu
          split at ht
          · next hseen =>
              rw [if_pos hseen] at hu
              exact ih ht hu
          · next hseen =>
              rw [if_neg hseen] at hu
              rcases List.mem_cons.mp ht with rfl | ht
              · rcases List.mem_cons.mp hu with rfl | hu
                · rfl
                · exact absurd (hends ▸ List.mem_cons_self)
                    (ends_notMem_of_joinParallel hu huchains)
              · rcases List.mem_cons.mp hu with rfl | hu
                · exact absurd (hends ▸ List.mem_cons_self)
                    (ends_notMem_of_joinParallel ht htchains)
                · exact ih ht hu

end joinParallel

theorem distinctBranches_takesChains {t : Transition} :
    t.distinctBranches.TakesChains ↔ t.TakesChains := by
  obtain ⟨source, target, label⟩ := t
  cases label <;> simp [distinctBranches, TakesChains, Label.branches?]

end Transition

namespace Automaton
variable {a b : Automaton}

/-- Every state is reached from the initial state. -/
def IsReached (a : Automaton) : Prop :=
  ∀ s ∈ a.states, ReflTransGen (Transition.Joins a.transitions) start s.name

/-- A transition that is no closure is a choice between distinct chains, and the only one between
its ends. -/
structure IsJoined (a : Automaton) : Prop where
  choices : ∀ t ∈ a.transitions, t.TakesChains →
      ∃ branches, t.label = .alternative branches ∧ branches.Nodup
  single : ∀ t ∈ a.transitions,
      ∀ u ∈ a.transitions, t.TakesChains → u.TakesChains → t.ends = u.ends → t = u

/-- Besides, every state is reached and no transition is listed twice. -/
structure IsNormal (a : Automaton) : Prop extends a.IsJoined where
  reached : a.IsReached
  distinct : a.transitions.Nodup

/-- A property that does not depend on what the closures nest. -/
def Shallow (P : Automaton → Prop) : Prop :=
  ∀ (states : List State) (us ts : List Transition),
    List.Forall₂ (Transition.Lifts fun _ _ => True) us ts → P ⟨states, ts⟩ → P ⟨states, us⟩

theorem shallow_isReached : Shallow IsReached :=
  fun _ _ _ h hreached s hs =>
    ReflTransGen.mono (fun _ _ => Transition.joins_of_lifts h) _ _ (hreached s hs)

theorem shallow_isJoined : Shallow IsJoined := by
  intro states us ts h hjoined
  have hsame {u : Transition} (hu : u ∈ us) (hchains : u.TakesChains) : u ∈ ts := by
    obtain ⟨t, ht, hlifts⟩ := exists_related_of_mem h hu
    exact hlifts.eq_of_takesChains hchains ▸ ht
  refine ⟨fun u hu hchains => hjoined.choices u (hsame hu hchains) hchains, ?_⟩
  intro u hu v hv huchains hvchains
  exact hjoined.single u (hsame hu huchains) v (hsame hv hvchains) huchains hvchains

section reached

/-- What is found from the queue on is reached from the known states. -/
theorem reached_keptFrom (h : a.validate = .ok ()) (room : Nat) {known queue : List StateName}
    (hsweep : a.Sweeping room known queue) {s : StateName}
    (hs : s ∈ (a.keptFrom room known queue).1) :
    ∃ k ∈ known, ReflTransGen (Transition.Joins (a.keptFrom room known queue).2) k s := by
  induction room generalizing known queue with
  | zero => exact ⟨s, hs, ReflTransGen.refl⟩
  | succ room ih =>
      cases queue with
      | nil => exact ⟨s, hs, ReflTransGen.refl⟩
      | cons p queue =>
          obtain ⟨fresh, _, hfresh, _, hsweep', heq⟩ := hsweep.step h
          rw [heq] at hs ⊢
          obtain ⟨k, hk, hrun⟩ := ih hsweep' hs
          have hrun' := ReflTransGen.mono
            (fun _ _ => Transition.joins_mono (List.subset_append_right (a.compressedFrom p) _))
            _ _ hrun
          rcases List.mem_append.mp hk with hk | hk
          · exact ⟨k, hk, hrun'⟩
          · obtain ⟨u, hu, rfl⟩ := List.mem_map.mp (hfresh hk)
            have hsource : u.source = p := by
              obtain ⟨t, _, hsource, rfl⟩ := mem_compressedFrom.mp hu
              exact (compressed_source t).trans hsource
            refine ⟨p, hsweep.queued List.mem_cons_self, ReflTransGen.head ?_ hrun'⟩
            exact ⟨u, List.mem_append_left _ hu, hsource, rfl⟩

theorem isReached_keptAutomaton (h : a.validate = .ok ()) : a.keptAutomaton.IsReached := by
  intro s hs
  obtain ⟨k, hk, hrun⟩ :=
    reached_keptFrom h (a.states.length + 1) (sweeping_start h) (mem_keptAutomaton.mp hs).2
  rw [List.mem_singleton.mp hk] at hrun
  exact hrun

/-- What a transition joins, the transition between the blocks joins. -/
theorem joins_quotient (p q : StateName) (h : Transition.Joins a.transitions p q) :
    Transition.Joins a.quotient.transitions (a.blocks.first p) (a.blocks.first q) := by
  obtain ⟨t, ht, rfl, rfl⟩ := h
  exact ⟨_, mem_quotient_transitions.mpr ⟨t, ht, rfl⟩, rfl, rfl⟩

theorem joins_joinedPaths (p q : StateName) (h : Transition.Joins a.transitions p q) :
    Transition.Joins a.joinedPaths.transitions p q := by
  obtain ⟨t, ht, rfl, rfl⟩ := h
  exact Transition.joins_joinParallel ht

theorem joins_withoutRepeats (p q : StateName) (h : Transition.Joins a.transitions p q) :
    Transition.Joins a.withoutRepeats.transitions p q := by
  obtain ⟨t, ht, rfl, rfl⟩ := h
  exact ⟨_, mem_withoutRepeats.mpr ⟨t, ht, rfl⟩, t.distinctBranches_ends⟩

theorem isReached_quotient (h : a.validate = .ok ()) (hreached : a.IsReached) :
    a.quotient.IsReached := by
  intro s hs
  obtain ⟨hmem, hfirst⟩ := mem_quotient_states.mp hs
  have hrun : ReflTransGen (Transition.Joins a.quotient.transitions) (a.blocks.first start)
      (a.blocks.first s.name) :=
        ReflTransGen.lift a.blocks.first joins_quotient _ _ (hreached s hmem)
  rwa [first_start h, hfirst] at hrun

theorem isReached_joinedPaths (hreached : a.IsReached) : a.joinedPaths.IsReached :=
  fun s hs => ReflTransGen.mono joins_joinedPaths _ _ (hreached s hs)

theorem isReached_withoutRepeats (hreached : a.IsReached) : a.withoutRepeats.IsReached :=
  fun s hs => ReflTransGen.mono joins_withoutRepeats _ _ (hreached s hs)

end reached

theorem isJoined_joinedPaths (a : Automaton) : a.joinedPaths.IsJoined where
  choices _ hu hchains := by
    rcases Transition.mem_or_isChoiceOf hu with ⟨_, hclosure⟩ | ⟨chains, hchoice⟩
    · exact absurd hclosure hchains
    · exact ⟨chains, hchoice.label, hchoice.distinct⟩
  single _ ht _ hu := Transition.eq_of_joinParallel ht hu

theorem isJoined_withoutRepeats (hjoined : a.IsJoined) : a.withoutRepeats.IsJoined := by
  constructor
  · intro u hu hchains
    obtain ⟨t, ht, rfl⟩ := mem_withoutRepeats.mp hu
    obtain ⟨source, target, label⟩ := t
    obtain ⟨branches, rfl, _⟩ :=
      hjoined.choices _ ht (Transition.distinctBranches_takesChains.mp hchains)
    exact ⟨_, rfl, nodup_eraseDups branches⟩
  · intro u hu v hv huchains hvchains hends
    obtain ⟨t, ht, rfl⟩ := mem_withoutRepeats.mp hu
    obtain ⟨t', ht', rfl⟩ := mem_withoutRepeats.mp hv
    rw [Transition.distinctBranches_takesChains] at huchains hvchains
    rw [Transition.ends, Transition.ends, t.distinctBranches_ends.1, t.distinctBranches_ends.2,
      t'.distinctBranches_ends.1, t'.distinctBranches_ends.2] at hends
    rw [hjoined.single t ht t' ht' huchains hvchains hends]

end Automaton

/-- What a pass makes of an automaton it makes of all levels, if it needs to know nothing of nested
automata. -/
theorem Pass.reduce_throughout (p : Pass) {P Q : Automaton → Prop} (hshallow : Automaton.Shallow P)
    (hresult : ∀ {a}, a.validate = .ok () → P a → Q (p.result a)) {a : Automaton}
    (h : a.validate = .ok ())
    (ha : ∀ c, a.Includes c → P c) :
    ∃ b, p.reduce a = .ok b ∧ b.validate = .ok () ∧ ∀ c, b.Includes c → Q c := by
  -- what was given is a premise of the relation, since each nested automaton is reduced with its
  -- own levels
  have hsteps : p.Steps fun b a => (∀ c, a.Includes c → P c) → ∀ c, b.Includes c → Q c := by
    intro states us ts _ hvalid hlifts hbefore c hc
    have htop : P ⟨states, us⟩ :=
      hshallow states us ts (hlifts.imp fun _ _ h => h.mono fun _ _ _ => trivial)
      (hbefore _ (.here _))
    cases hc with
    | here => exact hresult hvalid htop
    | within hv hlabel hc =>
        obtain ⟨t, ht, a, htlabel, hnested⟩ := p.nested_of_lifts hvalid hlifts hv hlabel
        exact hnested (fun d hd => hbefore d (.within ht htlabel hd)) c hc
  obtain ⟨b, hb, hvalid, hQ⟩ := hsteps.reduce h
  exact ⟨b, hb, hvalid, hQ ha⟩

namespace Automaton

/-- The optimizer leaves an automaton that is in normal form on every level, whatever it is
given. -/
theorem optimize_isNormal {states : List State} {ts : List Transition} {a : Automaton}
    (h : make states ts = .ok a) :
    ∃ b, a.optimize Pass.all = .ok b ∧ ∀ c, b.Includes c → c.IsNormal := by
  have hblind : Shallow fun _ => True := fun _ _ _ _ _ => trivial
  have hboth : Shallow fun a => a.IsReached ∧ a.IsJoined := fun states us ts h =>
    And.imp (shallow_isReached states us ts h) (shallow_isJoined states us ts h)
  obtain ⟨b₁, hb₁, hvalid₁, hreached₁⟩ :=
    Pass.pathsCompression.reduce_throughout (Q := IsReached) hblind
    (fun hvalid _ => isReached_keptAutomaton hvalid) (validate_of_make h) fun _ _ => trivial
  obtain ⟨b₂, hb₂, hvalid₂, hreached₂⟩ := Pass.statesMerging.reduce_throughout (Q := IsReached)
    shallow_isReached (fun hvalid => isReached_quotient hvalid) hvalid₁ hreached₁
  obtain ⟨b₃, hb₃, hvalid₃, hboth₃⟩ := Pass.pathsMerging.reduce_throughout
    (Q := fun a => a.IsReached ∧ a.IsJoined) shallow_isReached
    (fun _ hreached => ⟨isReached_joinedPaths hreached, isJoined_joinedPaths _⟩) hvalid₂ hreached₂
  obtain ⟨b₄, hb₄, hvalid₄, hnormal₄⟩ := Pass.distinctPaths.reduce_throughout (Q := IsNormal) hboth
    (fun _ hgiven =>
      ⟨isJoined_withoutRepeats hgiven.2, isReached_withoutRepeats hgiven.1, nodup_eraseDups _⟩)
    hvalid₃ hboth₃
  refine ⟨b₄, ?_, hnormal₄⟩
  rw [Pass.all, optimize_cons hb₁ hvalid₁, optimize_cons hb₂ hvalid₂, optimize_cons hb₃ hvalid₃,
    optimize_cons hb₄ hvalid₄]
  rfl

/-- Merging the two states in the middle makes parallel transitions. Joining the chains of the
second nested automaton makes it equal to the first one, and a closure over it a repeat. -/
theorem optimize_isNormal_of_repeats :
    let p : Instruction := .forward ⟨"p"⟩
    let q : Instruction := .backward ⟨"q"⟩
    let ends : List State := [⟨0, true, false⟩, ⟨1, false, true⟩]
    let joined : Automaton := ⟨ends, [⟨0, 1, .alternative [[p], [q]]⟩]⟩
    let parallel : Automaton := ⟨ends, [⟨0, 1, .property p⟩, ⟨0, 1, .property q⟩]⟩
    let states : List State :=
      [⟨0, true, false⟩, ⟨1, false, false⟩, ⟨2, false, false⟩, ⟨3, false, true⟩, ⟨5, false, false⟩]
    let ts : List Transition := [⟨0, 1, .property p⟩, ⟨0, 2, .property q⟩,
      ⟨1, 3, .closure .oneOrMore joined⟩, ⟨1, 3, .closure .oneOrMore parallel⟩,
      ⟨2, 3, .closure .oneOrMore joined⟩, ⟨2, 3, .closure .oneOrMore parallel⟩, ⟨5, 5, .property p⟩]
    let a : Automaton := ⟨states, ts⟩
    make states ts = .ok a ∧
      a.optimize Pass.all = .ok ⟨[⟨0, true, false⟩, ⟨1, false, false⟩, ⟨3, false, true⟩],
        [⟨0, 1, .alternative [[p], [q]]⟩, ⟨1, 3, .closure .oneOrMore joined⟩]⟩ ∧
      ∃ b, a.optimize Pass.all = .ok b ∧ ∀ c, b.Includes c → c.IsNormal := by
  intro p q ends joined parallel states ts a
  have h : make states ts = .ok a := rfl
  exact ⟨h, by decide +kernel, optimize_isNormal h⟩

end Automaton

end PropertyPath
