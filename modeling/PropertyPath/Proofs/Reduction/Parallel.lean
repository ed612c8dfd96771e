import PropertyPath.Proofs.Automaton.Condensed
import PropertyPath.Proofs.Reduction.Reduct
import PropertyPath.Proofs.Repeats
import PropertyPath.Reduction.Parallel

/-!
# Joining parallel transitions keeps the relation

Closures are left where they are, and with some pairs of states joined already, the chains between
other states are found in a choice between these. So every step can be taken that could be taken
before, and no other.
-/
namespace PropertyPath

namespace Transition
variable {G : Set Triple}

theorem mem_chainsBetween {e : StateName × StateName} {ts : List Transition}
    {is : List Instruction} :
    is ∈ chainsBetween e ts ↔
      ∃ t ∈ ts, t.ends = e ∧ ∃ branches, t.label.branches? = some branches ∧ is ∈ branches := by
  rw [chainsBetween, List.mem_flatMap]
  apply exists_congr
  intro t
  apply and_congr_right
  intro _
  by_cases hends : t.ends = e
  · rw [if_pos hends]
    cases hlabel : t.label.branches? with
    | none => simp
    | some branches => simp [hends]
  · simp [hends]

section joinParallel
variable {seen : List (StateName × StateName)} {ts : List Transition}

theorem mem_joinParallel_of_closure {t : Transition} (ht : t ∈ ts)
    (hclosure : t.label.branches? = none) :
    t ∈ joinParallel seen ts := by
  induction ts generalizing seen with
  | nil => cases ht
  | cons u ts ih =>
      rw [joinParallel]
      rcases List.mem_cons.mp ht with rfl | ht
      · simp [hclosure]
      · split
        · exact List.mem_cons_of_mem u (ih ht)
        · split
          · exact ih ht
          · exact List.mem_cons_of_mem _ (ih ht)

/-- The chains of a transition are found in a choice between the same states, unless these have been
seen. -/
theorem exists_choice_of_branches (seen : List (StateName × StateName)) {t : Transition}
    (ht : t ∈ ts) {branches : List (List Instruction)}
    (hlabel : t.label.branches? = some branches) :
    t.ends ∈ seen ∨ ∃ u ∈ joinParallel seen ts, u.ends = t.ends ∧
      ∃ chains, u.label = .alternative chains ∧ branches ⊆ chains := by
  induction ts generalizing seen with
  | nil => cases ht
  | cons v ts ih =>
      have hjoined (hends : t.ends = v.ends) :
          branches ⊆ (chainsBetween v.ends (v :: ts)).eraseDups :=
        fun is his =>
          List.mem_eraseDups.mpr (mem_chainsBetween.mpr ⟨t, ht, hends, branches, hlabel, his⟩)
      rw [joinParallel]
      rcases List.mem_cons.mp ht with rfl | ht
      · simp only [hlabel]
        split
        · next hseen => exact Or.inl (List.contains_iff_mem.mp hseen)
        · exact Or.inr ⟨_, List.mem_cons_self, rfl, _, rfl, hjoined rfl⟩
      · split
        · exact (ih seen ht).imp_right fun ⟨u, hu, hchoice⟩ =>
            ⟨u, List.mem_cons_of_mem v hu, hchoice⟩
        · split
          · exact ih seen ht
          · rcases ih (v.ends :: seen) ht with hseen | ⟨u, hu, hchoice⟩
            · rcases List.mem_cons.mp hseen with hends | hseen
              · exact Or.inr ⟨_, List.mem_cons_self, hends.symm, _, rfl, hjoined hends⟩
              · exact Or.inl hseen
            · exact Or.inr ⟨u, List.mem_cons_of_mem _ hu, hchoice⟩

/-- A choice between distinct chains that the transitions take between the same states, with all
chains of one of them. -/
structure IsChoiceOf (ts : List Transition) (u : Transition) (chains : List (List Instruction)) :
    Prop where
  label : u.label = .alternative chains
  distinct : chains.Nodup
  all :
      ∃ t ∈ ts, t.ends = u.ends ∧ ∃ branches, t.label.branches? = some branches ∧ branches ⊆ chains
  only : ∀ is ∈ chains, ∃ t ∈ ts, t.ends = u.ends ∧
    ∃ branches, t.label.branches? = some branches ∧ is ∈ branches

theorem IsChoiceOf.mono {us : List Transition} (hsub : ts ⊆ us) {u : Transition}
    {chains : List (List Instruction)} (h : IsChoiceOf ts u chains) : IsChoiceOf us u chains where
  label := h.label
  distinct := h.distinct
  all := h.all.imp fun _ => And.imp_left fun ht => hsub ht
  only is his := (h.only is his).imp fun _ => And.imp_left fun ht => hsub ht

/-- What is left is a closure that was there before, or such a choice. -/
theorem mem_or_isChoiceOf {u : Transition} (hu : u ∈ joinParallel seen ts) :
    (u ∈ ts ∧ u.label.branches? = none) ∨ ∃ chains, IsChoiceOf ts u chains := by
  induction ts generalizing seen with
  | nil => cases hu
  | cons v ts ih =>
      have hrest {seen : List (StateName × StateName)} (hu : u ∈ joinParallel seen ts) :
          (u ∈ v :: ts ∧ u.label.branches? = none) ∨ ∃ chains, IsChoiceOf (v :: ts) u chains :=
        (ih hu).imp (And.imp_left (List.mem_cons_of_mem v))
          (Exists.imp fun _ => IsChoiceOf.mono (List.subset_cons_self v ts))
      rw [joinParallel] at hu
      split at hu
      · next hclosure =>
          rcases List.mem_cons.mp hu with rfl | hu
          · exact Or.inl ⟨List.mem_cons_self, hclosure⟩
          · exact hrest hu
      · next branches hbranches =>
          split at hu
          · exact hrest hu
          · rcases List.mem_cons.mp hu with rfl | hu
            · refine Or.inr ⟨_, rfl, nodup_eraseDups _,
                ⟨v, List.mem_cons_self, rfl, branches, hbranches, ?_⟩, ?_⟩
              · intro is his
                apply List.mem_eraseDups.mpr
                exact mem_chainsBetween.mpr ⟨v, List.mem_cons_self, rfl, branches, hbranches, his⟩
              · exact fun is his => mem_chainsBetween.mp (List.mem_eraseDups.mp his)
            · exact hrest hu

/-- What is joined has the ends of a transition that was there before. -/
theorem mem_joinParallel {u : Transition} (hu : u ∈ joinParallel seen ts) :
    (∃ t ∈ ts, t.source = u.source ∧ t.target = u.target) ∧ u.label.ComesFrom ts := by
  rcases mem_or_isChoiceOf hu with
    ⟨hu, _⟩ | ⟨chains, hlabel, _, ⟨t, ht, hends, branches, hbranches, hsub⟩, honly⟩
  · exact ⟨⟨u, hu, rfl, rfl⟩, .kept u hu rfl⟩
  · refine ⟨⟨t, ht, Prod.mk.inj hends⟩, .chains chains (by rw [hlabel]; rfl) fun hts => ⟨?_, ?_⟩⟩
    · have hne := ((Label.epsilonFree_of_branches hbranches).mp (hts t ht)).1
      obtain ⟨is, his⟩ := List.exists_mem_of_ne_nil branches hne
      exact List.ne_nil_of_mem (hsub his)
    · intro hempty
      obtain ⟨v, hv, _, branches', hbranches', hmem⟩ := honly [] hempty
      exact ((Label.epsilonFree_of_branches hbranches').mp (hts v hv)).2 hmem

/-- Joining changes no step. -/
theorem takes_joinParallel {s : Shape} {c d : StateName × Term} :
    takes (joined G) (joinParallel [] ts) s c d ↔ takes (joined G) ts s c d := by
  rw [takes_iff, takes_iff]
  constructor
  · intro h
    rcases h with ⟨u, hu, hsource, htarget, htakes⟩
    rcases mem_or_isChoiceOf hu with ⟨hu, _⟩ | ⟨chains, hchoice⟩
    · exact ⟨u, hu, hsource, htarget, htakes⟩
    · rw [hchoice.label, Label.takes_of_branches rfl] at htakes
      obtain ⟨rfl, is, his, hchain⟩ := htakes
      obtain ⟨t, ht, hends, branches, hbranches, hmem⟩ := hchoice.only is his
      obtain ⟨hsource', htarget'⟩ := Prod.mk.inj hends
      refine ⟨t, ht, hsource'.trans hsource, htarget'.trans htarget, ?_⟩
      exact (Label.takes_of_branches hbranches).mpr ⟨rfl, is, hmem, hchain⟩
  · intro h
    rcases h with ⟨t, ht, hsource, htarget, htakes⟩
    cases hlabel : t.label.branches? with
    | none => exact ⟨t, mem_joinParallel_of_closure ht hlabel, hsource, htarget, htakes⟩
    | some branches =>
        obtain ⟨rfl, is, his, hchain⟩ := (Label.takes_of_branches hlabel).mp htakes
        obtain ⟨u, hu, hends, chains, hchains, hsub⟩ :=
          (exists_choice_of_branches [] ht hlabel).resolve_left List.not_mem_nil
        obtain ⟨hsource', htarget'⟩ := Prod.mk.inj hends
        refine ⟨u, hu, hsource'.trans hsource, htarget'.trans htarget, ?_⟩
        rw [hchains, Label.takes_of_branches rfl]
        exact ⟨rfl, is, hsub his, hchain⟩

end joinParallel

theorem distinctBranches_takes (t : Transition) {s : Shape} {x y : Term} :
    t.distinctBranches.label.takes (joined G) s x y ↔ t.label.takes (joined G) s x y := by
  obtain ⟨source, target, label⟩ := t
  cases label with
  | alternative branches => simp [distinctBranches, Label.takes, joined, List.mem_eraseDups]
  | _ => exact Iff.rfl

theorem distinctBranches_ends (t : Transition) :
    t.distinctBranches.source = t.source ∧ t.distinctBranches.target = t.target := by
  obtain ⟨source, target, label⟩ := t
  cases label <;> exact ⟨rfl, rfl⟩

theorem distinctBranches_comesFrom {t : Transition} {ts : List Transition} (h : t ∈ ts) :
    t.distinctBranches.label.ComesFrom ts := by
  obtain ⟨source, target, label⟩ := t
  cases label with
  | alternative branches =>
      refine .chains _ rfl fun hts => ?_
      obtain ⟨hbranches, hchains⟩ := (Label.epsilonFree_of_branches rfl).mp (hts _ h)
      obtain ⟨is, his⟩ := List.exists_mem_of_ne_nil branches hbranches
      refine ⟨List.ne_nil_of_mem (List.mem_eraseDups.mpr his), ?_⟩
      exact fun hempty => hchains (List.mem_eraseDups.mp hempty)
  | _ => exact .kept _ h rfl

end Transition

namespace Automaton

/-- Replacing the transitions by others with the same steps makes a reduct. -/
theorem reduct_of_takes {a : Automaton} (h : a.validate = .ok ()) {ts : List Transition}
    (htakes : ∀ {G s c d}, Transition.takes (joined G) ts s c d ↔
      Transition.takes (joined G) a.transitions s c d)
    (hfrom : ∀ u ∈ ts, (∃ t ∈ a.transitions, t.source = u.source ∧ t.target = u.target) ∧
      u.label.ComesFrom a.transitions) :
    make a.states ts = .ok ⟨a.states, ts⟩ ∧ validate ⟨a.states, ts⟩ = .ok () ∧
      IsReductOf ⟨a.states, ts⟩ a := by
  obtain ⟨hstates, htransitions⟩ := validate_eq_ok_iff.mp h
  have hproper : ∀ u ∈ ts, u.Proper a.states := by
    intro u hu
    obtain ⟨⟨t, ht, hsource, htarget⟩, hlabel⟩ := hfrom u hu
    exact ⟨hsource ▸ (htransitions t ht).source, htarget ▸ (htransitions t ht).target,
      hlabel.validate fun t ht => (htransitions t ht).label⟩
  obtain ⟨hmake, hvalid⟩ := make_of_proper hstates hproper
  have hshorter : Condenses ⟨a.states, ts⟩ a :=
    condenses_of_takes id rfl (fun _ => id) fun _ _ _ _ => htakes.mpr
  have hlonger : Condenses a ⟨a.states, ts⟩ :=
    condenses_of_takes id rfl (fun _ => id) fun _ _ _ _ => htakes.mp
  refine ⟨hmake, hvalid, .of_labels (fun G => ?_) rfl fun u hu => (hfrom u hu).2⟩
  funext x y
  exact propext ⟨hlonger.relation, hshorter.relation⟩

/-- What is left when parallel transitions have been joined. -/
def joinedPaths (a : Automaton) : Automaton := ⟨a.states, Transition.joinParallel [] a.transitions⟩

/-- What is left when neither a transition nor a branch is listed twice. -/
def withoutRepeats (a : Automaton) : Automaton :=
  ⟨a.states, (a.transitions.map Transition.distinctBranches).eraseDups⟩

theorem mem_withoutRepeats {a : Automaton} {u : Transition} :
    u ∈ a.withoutRepeats.transitions ↔ ∃ t ∈ a.transitions, t.distinctBranches = u := by
  rw [withoutRepeats, List.mem_eraseDups, List.mem_map]

theorem takes_withoutRepeats {a : Automaton} {G : Set Triple} {s : Shape} {c d : StateName × Term} :
    Transition.takes (joined G) a.withoutRepeats.transitions s c d ↔
      Transition.takes (joined G) a.transitions s c d := by
  rw [Transition.takes_iff, Transition.takes_iff]
  simp [mem_withoutRepeats, Transition.distinctBranches_ends, Transition.distinctBranches_takes]

theorem joinedPaths_condenses (a : Automaton) : a.joinedPaths.Condenses a :=
  condenses_of_takes id rfl (fun _ => id) fun _ _ _ _ => Transition.takes_joinParallel.mpr

theorem withoutRepeats_condenses (a : Automaton) : a.withoutRepeats.Condenses a :=
  condenses_of_takes id rfl (fun _ => id) fun _ _ _ _ => takes_withoutRepeats.mpr

theorem mergePaths_reduct {a : Automaton} (h : a.validate = .ok ()) :
    a.mergePaths = .ok a.joinedPaths ∧ a.joinedPaths.validate = .ok () ∧
    a.joinedPaths.IsReductOf a :=
  reduct_of_takes h Transition.takes_joinParallel fun _ hu => Transition.mem_joinParallel hu

theorem distinctPaths_reduct {a : Automaton} (h : a.validate = .ok ()) :
    a.distinctPaths = .ok a.withoutRepeats ∧ a.withoutRepeats.validate = .ok () ∧
      a.withoutRepeats.IsReductOf a := by
  refine reduct_of_takes h takes_withoutRepeats fun u hu => ?_
  obtain ⟨t, ht, rfl⟩ := mem_withoutRepeats.mp hu
  obtain ⟨hsource, htarget⟩ := t.distinctBranches_ends
  exact ⟨⟨t, ht, hsource.symm, htarget.symm⟩, Transition.distinctBranches_comesFrom ht⟩

end Automaton

end PropertyPath
