import PropertyPath.Proofs.Automaton.Compiling
import PropertyPath.Proofs.Path.Attributes
import PropertyPath.Proofs.Reduction.Idempotence
import PropertyPath.Proofs.Reduction.Trim

/-!
# Compiled automata are trim

Every letter of a path is in one of its words. A run of the position automaton that reads the word
comes to the state of the letter and goes on to a final state, so no state is there for nothing.
Nested automata are position automata as well, and passes keep automata trim, so this holds of
compiled paths at every level. Since all states are reached, no pass finds anything left to do a
second time.
-/
namespace PropertyPath
open Relation (ReflTransGen)
open PathTree (WellNegated)

namespace Automaton

/-- The automaton is the position automaton of a tree, whole or to be nested: its states are the
initial one and the positions of the tree, all transitions into a state have one label, and no two
transitions have the same ends. -/
structure IsPositional (a : Automaton) (t : PathTree) : Prop where
  automaton : ∃ embedded, t.automaton embedded = .ok a
  states : ∃ m, t.markRoot = .ok m ∧ a.states.map (·.name) = start :: m.positions
  labels : ∀ u ∈ a.transitions, ∀ v ∈ a.transitions, u.target = v.target → u.label = v.label
  single : (a.transitions.map Transition.ends).Nodup

end Automaton

namespace MarkedPath
open Automaton
variable {m : MarkedPath} {embedded : Bool} {letters : List (StateName × Label)}
  {L : Language StateName}

section layout

theorem names_layout (h : m.Fits letters) :
    (m.layout embedded letters).states.map (·.name) = start :: m.positions := by
  rw [← h.keys]
  simp [layout]

theorem labels_layout (h : m.Fits letters) {u v : Transition}
    (hu : u ∈ (m.layout embedded letters).transitions)
    (hv : v ∈ (m.layout embedded letters).transitions) (htarget : u.target = v.target) :
    u.label = v.label := by
  have hkeys : (letters.map (·.1)).Nodup := h.keys ▸ h.ascending.imp Nat.ne_of_lt
  have hu' := (mem_layout_transitions.mp hu).1
  have hv' := (mem_layout_transitions.mp hv).1
  exact congrArg Prod.snd (List.inj_on_of_nodup_map hkeys hu' hv' htarget)

/-- The ends of the transitions from a state into those letters that are in a set. -/
def endsInto (letters : List (StateName × Label)) (s : StateName) (set : List StateName) :
    List (StateName × StateName) :=
  ((letters.filter fun q => decide (q.1 ∈ set)).map (·.1)).map (Prod.mk s)

theorem fst_of_mem_endsInto {s : StateName} {set : List StateName} {e : StateName × StateName}
    (he : e ∈ endsInto letters s set) : e.1 = s := by
  obtain ⟨q, _, rfl⟩ := List.mem_map.mp he
  rfl

theorem nodup_endsInto (hkeys : (letters.map (·.1)).Nodup) (s : StateName) (set : List StateName) :
    (endsInto letters s set).Nodup :=
  (hkeys.sublist (List.filter_sublist.map _)).map (Prod.mk_right_injective s)

/-- Each transition is listed once, under the state that it leaves. -/
theorem nodup_ends_layout (h : m.Fits letters) :
    ((m.layout embedded letters).transitions.map Transition.ends).Nodup := by
  have hkeys : (letters.map (·.1)).Nodup := h.keys ▸ h.ascending.imp Nat.ne_of_lt
  have hends : (m.layout embedded letters).transitions.map Transition.ends =
      endsInto letters start m.first ++
      letters.flatMap fun p => endsInto letters p.1 (Marked.successors m.follow p.1) := by
    simp [layout, endsInto, List.map_flatMap, Function.comp_def, Transition.ends]
  rw [hends, List.nodup_append', List.nodup_flatMap]
  refine ⟨nodup_endsInto hkeys _ _, ⟨fun p _ => nodup_endsInto hkeys _ _, ?_⟩, ?_⟩
  · refine (List.pairwise_map.mp hkeys).imp fun hne e he he' => ?_
    exact hne ((fst_of_mem_endsInto he).symm.trans (fst_of_mem_endsInto he'))
  · intro e he he'
    obtain ⟨p, hp, he'⟩ := List.mem_flatMap.mp he'
    have hpositive := h.positive p.1 (h.mem_positions.mpr ⟨p.2, hp⟩)
    exact Nat.ne_of_gt hpositive ((fst_of_mem_endsInto he').symm.trans (fst_of_mem_endsInto he))

end layout

section trim
variable (h : m.Fits letters) (hexact : m.sets.Exact L)
include h hexact

theorem joins_layout_first {p : StateName} {v : List StateName} (hword : p :: v ∈ L) :
    Transition.Joins (m.layout embedded letters).transitions start p := by
  have hp : p ∈ m.positions := (hexact.positions p).mpr ⟨_, hword, List.mem_cons_self⟩
  obtain ⟨l, hl⟩ := h.mem_positions.mp hp
  exact ⟨⟨start, p, l⟩,
    mem_layout_transitions.mpr ⟨hl, Or.inl ⟨rfl, (hexact.first p).mpr ⟨v, hword⟩⟩⟩, rfl, rfl⟩

theorem joins_layout_follow {p q : StateName} {u v : List StateName}
    (hword : u ++ p :: q :: v ∈ L) :
    Transition.Joins (m.layout embedded letters).transitions p q := by
  have hp : p ∈ m.positions := (hexact.positions p).mpr ⟨_, hword, by simp⟩
  have hq : q ∈ m.positions := (hexact.positions q).mpr ⟨_, hword, by simp⟩
  obtain ⟨l, hl⟩ := h.mem_positions.mp hq
  refine ⟨⟨p, q, l⟩, mem_layout_transitions.mpr ⟨hl, Or.inr ⟨h.keys ▸ hp, ?_⟩⟩, rfl, rfl⟩
  exact (hexact.follow p q).mpr ⟨u, v, hword⟩

/-- The run that reads a word comes to each of its letters. -/
theorem reached_layout {u v : List StateName} {p : StateName} (hword : u ++ p :: v ∈ L) :
    ReflTransGen (Transition.Joins (m.layout embedded letters).transitions) start p := by
  induction u using List.reverseRecOn generalizing p v with
  | nil => exact ReflTransGen.single (joins_layout_first h hexact hword)
  | append_singleton u q ih =>
      rw [List.append_assoc] at hword
      exact (ih hword).tail (joins_layout_follow h hexact hword)

/-- From each letter of a word, the run goes on to a final state. -/
theorem leads_layout {u v : List StateName} {p : StateName} (hword : u ++ p :: v ∈ L) :
    (m.layout embedded letters).LeadsToFinal p := by
  induction v generalizing u p with
  | nil =>
      have hp : p ∈ m.positions := (hexact.positions p).mpr ⟨_, hword, by simp⟩
      exact ⟨p, (h.isFinal_iff hp).mpr ((hexact.last p).mpr ⟨u, hword⟩), ReflTransGen.refl⟩
  | cons q v ih =>
      have hword' : (u ++ [p]) ++ q :: v ∈ L := by simpa using hword
      obtain ⟨r, hr, hrun⟩ := ih hword'
      exact ⟨r, hr, ReflTransGen.head (joins_layout_follow h hexact hword) hrun⟩

theorem isTrim_layout (hword : ∃ w ∈ L, w ≠ []) : (m.layout embedded letters).IsTrim := by
  have hstates {s : State} (hs : s ∈ (m.layout embedded letters).states) :
      s.name = start ∨ ∃ u v, u ++ s.name :: v ∈ L := by
    have hname : s.name ∈ start :: m.positions := names_layout h ▸ List.mem_map_of_mem hs
    refine (List.mem_cons.mp hname).imp_right fun hp => ?_
    obtain ⟨w, hw, hmem⟩ := (hexact.positions _).mp hp
    obtain ⟨u, v, rfl⟩ := List.append_of_mem hmem
    exact ⟨u, v, hw⟩
  refine ⟨fun s hs => ?_, fun s hs => ?_, fun u hu => ?_⟩
  · rcases hstates hs with hstart | ⟨u, v, hw⟩
    · exact hstart ▸ ReflTransGen.refl
    · exact reached_layout h hexact hw
  · rcases hstates hs with hstart | ⟨u, v, hw⟩
    · obtain ⟨w, hw, hne⟩ := hword
      obtain ⟨p, v, rfl⟩ := List.exists_cons_of_ne_nil hne
      obtain ⟨q, hq, hrun⟩ := leads_layout h hexact (u := []) hw
      exact ⟨q, hq, hstart ▸ ReflTransGen.head (joins_layout_first h hexact hw) hrun⟩
    · exact leads_layout h hexact hw
  · have hp : u.target ∈ m.positions := h.mem_positions.mpr ⟨_, (mem_layout_transitions.mp hu).1⟩
    exact Nat.ne_of_gt (h.positive _ hp)

end trim

end MarkedPath

namespace PathTree
variable {t : PathTree} {embedded : Bool} {a : Automaton}

section plain

theorem exists_letterLabels (h : t.automaton embedded = .ok a) :
    ∃ letters, t.body.letterLabels 0 = .ok letters := by
  simp only [automaton, bind_eq_ok_iff] at h
  obtain ⟨_, _, letters, hletters, _⟩ := h
  exact ⟨letters, hletters⟩

mutual

/-- Nothing but leaves, closures, sequences and alternatives is labelled. -/
theorem plain_of_letterLabels {t : PathTree} (hformed : t.Formed) {k : Nat}
    {letters : List (StateName × Label)}
    (h : t.letterLabels k = .ok letters) : t.Plain := by
  cases t with
  | property set =>
      have hfilled : Filled (.property set) := throughout_property.mp hformed
      exact hfilled
  | inverse item => cases h
  | negation items => cases h
  | closure kind item =>
      have hlt := sizeOf_body_nests kind item
      have hitem : item.Formed := (throughout_closure.mp hformed).1
      rw [letterLabels_closure, bind_eq_ok_iff] at h
      obtain ⟨nested, hnested, _⟩ := h
      obtain ⟨letters, hletters⟩ := exists_letterLabels hnested
      have hplain : (kind.nests item).Plain :=
        plain_body.mp (plain_of_letterLabels (formed_body (formed_nests hitem)) hletters)
      cases kind <;> exact hplain
  | sequence items => exact allPlain_of_letterLabels (throughout_sequence.mp hformed).1 h
  | alternative items => exact allPlain_of_letterLabels (throughout_alternative.mp hformed).1 h
termination_by sizeOf t

theorem allPlain_of_letterLabels {ts : List PathTree} (hformed : ∀ t ∈ ts, t.Formed) {k : Nat}
    {letters : List (StateName × Label)} (h : letterLabelsAll k ts = .ok letters) :
    AllPlain ts := by
  cases ts with
  | nil => trivial
  | cons t ts =>
      obtain ⟨hfirst, hrest⟩ := List.forall_mem_cons.mp hformed
      simp only [letterLabelsAll, bind_eq_ok_iff, pure_eq_ok_iff] at h
      obtain ⟨_, hletters, _, hletters', _⟩ := h
      exact ⟨plain_of_letterLabels hfirst hletters, allPlain_of_letterLabels hrest hletters'⟩
termination_by sizeOf ts

end

theorem plain_of_automaton (hformed : t.Formed) (h : t.automaton embedded = .ok a) : t.Plain := by
  obtain ⟨letters, hletters⟩ := exists_letterLabels h
  exact plain_body.mp (plain_of_letterLabels (formed_body hformed) hletters)

end plain

section levels

theorem isTrim_automaton (hformed : t.Formed) (h : t.automaton embedded = .ok a) :
    a.IsTrim ∧ a.IsPositional t := by
  have hplain := plain_body.mpr (plain_of_automaton hformed h)
  obtain ⟨m, hm⟩ := exists_mark hplain 0
  obtain ⟨letters, hletters, hlabelled⟩ := exists_labelled hplain hm
  have hfits := fits_of_labelled hm hlabelled
  have hroot : t.markRoot = .ok ⟨t.loop?, m⟩ := markRoot_eq_ok_iff.mpr ⟨rfl, hm⟩
  obtain ⟨hexact, hword⟩ := exact_markRoot hformed hroot
  cases h.symm.trans (automaton_of_labelled hm hletters hlabelled embedded)
  refine ⟨MarkedPath.isTrim_layout hfits hexact hword, ⟨embedded, h⟩,
    ⟨_, hroot, MarkedPath.names_layout hfits⟩,
    fun u hu v hv => MarkedPath.labels_layout hfits hu hv, MarkedPath.nodup_ends_layout hfits⟩

/-- What a position automaton includes at some level is the position automaton of a tree. -/
theorem exists_automaton_of_includes {c : Automaton} (hc : a.Includes c) (hformed : t.Formed)
    (h : t.automaton embedded = .ok a) : ∃ (u : PathTree) (embedded : Bool),
      u.Formed ∧ u.automaton embedded = .ok c := by
  induction hc generalizing t embedded with
  | here a => exact ⟨t, embedded, hformed, h⟩
  | @within a b c u kind hu hlabel _ ih =>
      obtain ⟨a', ha', hrealizes⟩ := automaton_realizes (plain_of_automaton hformed h) embedded
      cases h.symm.trans ha'
      obtain ⟨item, hitem, hb⟩ := hrealizes.nested u hu kind b hlabel
      exact ih (formed_nests (throughout_closure.mp (throughout_of_mem hformed hitem)).1) hb

theorem isTrim_of_includes (hformed : t.Formed) (h : t.automaton embedded = .ok a) {c : Automaton}
    (hc : a.Includes c) : c.IsTrim ∧ ∃ u, c.IsPositional u := by
  obtain ⟨u, _, hu, hautomaton⟩ := exists_automaton_of_includes hc hformed h
  obtain ⟨htrim, hpositional⟩ := isTrim_automaton hu hautomaton
  exact ⟨htrim, u, hpositional⟩

end levels

/-- Whatever tree a position automaton is made of, whole or to be nested, each pass of the optimizer
leaves what it has returned as it is when it is run once more. -/
theorem passes_settle (hformed : t.Formed) (h : t.automaton embedded = .ok a) : ∃ x₁ x₂ x₃ x₄,
    (Pass.pathsCompression.reduce a = .ok x₁ ∧ Pass.pathsCompression.reduce x₁ = .ok x₁) ∧
    (Pass.statesMerging.reduce x₁ = .ok x₂ ∧ Pass.statesMerging.reduce x₂ = .ok x₂) ∧
    (Pass.pathsMerging.reduce x₂ = .ok x₃ ∧ Pass.pathsMerging.reduce x₃ = .ok x₃) ∧
    (Pass.distinctPaths.reduce x₃ = .ok x₄ ∧ Pass.distinctPaths.reduce x₄ = .ok x₄) := by
  have hvalid : a.validate = .ok () := by
    obtain ⟨a', ha', hrealizes⟩ := automaton_realizes (plain_of_automaton hformed h) embedded
    cases h.symm.trans ha'
    exact hrealizes.validate
  obtain ⟨x₁, h₁, hvalid₁, hagain₁⟩ := Pass.pathsCompression.reduce_reduce hvalid fun c hc =>
    (isTrim_of_includes hformed h hc).1.reached.enteredFromReached (hc.validate hvalid)
  obtain ⟨x₂, h₂, hvalid₂, hagain₂⟩ := Pass.statesMerging.reduce_reduce hvalid₁ fun _ _ => trivial
  obtain ⟨x₃, h₃, hvalid₃, hagain₃⟩ := Pass.pathsMerging.reduce_reduce hvalid₂ fun _ _ => trivial
  obtain ⟨x₄, h₄, _, hagain₄⟩ := Pass.distinctPaths.reduce_reduce hvalid₃ fun _ _ => trivial
  exact ⟨x₁, x₂, x₃, x₄, ⟨h₁, hagain₁⟩, ⟨h₂, hagain₂⟩, ⟨h₃, hagain₃⟩, h₄, hagain₄⟩

/-- `p/^q/(^q/p)+`: the chain is compressed, and the chain within the closure is not, as its first
state is entered a second time. -/
theorem passes_settle_chains :
    let p : Instruction := .forward ⟨"p"⟩
    let q : Instruction := .backward ⟨"q"⟩
    let t : PathTree := .sequence [.property p.toPropertySet, .property q.toPropertySet,
      .closure .oneOrMore (.sequence [.property q.toPropertySet, .property p.toPropertySet])]
    let b : TreeBuilder := ⟨t.listing 0⟩
    let nested : Automaton := ⟨[⟨0, true, false⟩, ⟨1, false, false⟩, ⟨2, false, true⟩],
      [⟨0, 1, .property q⟩, ⟨1, 2, .property p⟩, ⟨2, 1, .property q⟩]⟩
    let a : Automaton :=
      ⟨[⟨0, true, false⟩, ⟨1, false, false⟩, ⟨2, false, false⟩, ⟨6, false, true⟩],
       [⟨0, 1, .property p⟩, ⟨1, 2, .property q⟩, ⟨2, 6, .closure .oneOrMore nested⟩]⟩
    let nested' : Automaton :=
      ⟨nested.states, [⟨0, 1, .sequence [q]⟩, ⟨1, 2, .sequence [p]⟩, ⟨2, 1, .sequence [q]⟩]⟩
    let a' : Automaton := ⟨[⟨0, true, false⟩, ⟨2, false, false⟩, ⟨6, false, true⟩],
      [⟨0, 2, .sequence [p, q]⟩, ⟨2, 6, .closure .oneOrMore nested'⟩]⟩
    b.finish ⟨6⟩ = .ok t ∧ t.automaton false = .ok a ∧ Pass.pathsCompression.reduce a = .ok a' ∧
      Pass.pathsCompression.reduce a' = .ok a' ∧ ∃ x₂ x₃ x₄,
        (Pass.statesMerging.reduce a' = .ok x₂ ∧ Pass.statesMerging.reduce x₂ = .ok x₂) ∧
        (Pass.pathsMerging.reduce x₂ = .ok x₃ ∧ Pass.pathsMerging.reduce x₃ = .ok x₃) ∧
        (Pass.distinctPaths.reduce x₃ = .ok x₄ ∧ Pass.distinctPaths.reduce x₄ = .ok x₄) := by
  intro p q t b nested a nested' a'
  have hfinish : b.finish ⟨6⟩ = .ok t := TreeBuilder.finish_eq_ok_iff.mpr ⟨by cbv, by decide⟩
  have ha : t.automaton false = .ok a := by decide +kernel
  have ha' : Pass.pathsCompression.reduce a = .ok a' := by decide +kernel
  obtain ⟨x₁, x₂, x₃, x₄, ⟨h₁, hagain₁⟩, hmerged, hjoined, hdistinct⟩ :=
    passes_settle (formed_of_finish hfinish) ha
  cases ha'.symm.trans h₁
  exact ⟨hfinish, ha, ha', hagain₁, x₂, x₃, x₄, hmerged, hjoined, hdistinct⟩

end PathTree

/-- No automaton behind a closure accepts the empty walk, at any level. -/
theorem Automaton.EpsilonFree.nested {a c : Automaton} (h : a.EpsilonFree)
    (hvalid : a.validate = .ok ())
    (hc : a.Includes c) {u : Transition} (hu : u ∈ c.transitions) {kind : Closure} {b : Automaton}
    (hlabel : u.label = .closure kind b) : b.isNullable = false := by
  have hlabels := epsilonFree_iff.mp (hc.epsilonFree h) u hu
  have hproper := ((validate_eq_ok_iff.mp (hc.validate hvalid)).2 u hu).label
  rw [hlabel] at hlabels hproper
  rw [isNullable_iff hproper]
  exact hlabels.1

/-- The automaton of one direction of a path is trim at every level, and without the optimizer it is
the position automaton of the normal form. -/
theorem PathTree.isTrim_compile {t : PathTree} {optimize forward : Bool}
    {a : Automaton} (hformed : t.Formed)
    (h : t.compile optimize forward = .ok a) : (∀ c, a.Includes c → c.IsTrim) ∧ (optimize = false →
      (∃ normal, t.normalize forward = .ok normal ∧ a.IsPositional normal) ∧
        ∀ c, a.Includes c → ∃ u, c.IsPositional u) := by
  simp only [compile, bind_eq_ok_iff] at h
  obtain ⟨normal, hnormal, b, hb, h⟩ := h
  have hnormalFormed := formed_normalizeFrom hnormal hformed
  have htrim (c : Automaton) (hc : b.Includes c) : c.IsTrim :=
    (isTrim_of_includes hnormalFormed hb hc).1
  cases optimize with
  | false =>
      cases h
      exact ⟨htrim, fun _ => ⟨⟨normal, hnormal, (isTrim_automaton hnormalFormed hb).2⟩,
        fun c hc => (isTrim_of_includes hnormalFormed hb hc).2⟩⟩
  | true =>
      obtain ⟨b', hb', hrealizes⟩ := automaton_realizes (plain_normalizeFrom hnormal) false
      cases hb.symm.trans hb'
      obtain ⟨c, hc, htrim'⟩ := Automaton.optimize_isTrim Pass.all hrealizes.validate htrim
      cases h.symm.trans hc
      exact ⟨htrim', fun hplain => Bool.noConfusion hplain⟩

namespace CompiledPath

/-- Both automata are trim at every level of nesting, and no nested automaton accepts the empty
walk. -/
structure IsTrim (path : CompiledPath) : Prop where
  trim : ∀ a, path.forward.Includes a ∨ path.backward.Includes a → a.IsTrim
  nested : ∀ a, path.forward.Includes a ∨ path.backward.Includes a →
    ∀ u ∈ a.transitions, ∀ kind b, u.label = .closure kind b → b.isNullable = false

/-- Both automata are the position automata of the normal forms of the tree, and position automata
they are at every level of nesting. -/
structure IsPositional (path : CompiledPath) (t : PathTree) : Prop where
  forward : ∃ normal, t.normalize true = .ok normal ∧ path.forward.IsPositional normal
  backward : ∃ normal, t.normalize false = .ok normal ∧ path.backward.IsPositional normal
  nested : ∀ a, path.forward.Includes a ∨ path.backward.Includes a → ∃ u, a.IsPositional u

theorem isTrim_ofTree {t : PathTree} {optimize : Bool} {path : CompiledPath} (hformed : t.Formed)
    (h : ofTree t optimize = .ok path) :
    path.IsTrim ∧ (optimize = false → path.IsPositional t) := by
  obtain ⟨himplements, himplements'⟩ := ofTree_implements h
  simp only [ofTree, bind_eq_ok_iff, pure_eq_ok_iff] at h
  obtain ⟨forward, hforward, backward, hbackward, rfl⟩ := h
  obtain ⟨htrim, hpositional⟩ := PathTree.isTrim_compile hformed hforward
  obtain ⟨htrim', hpositional'⟩ := PathTree.isTrim_compile hformed hbackward
  refine ⟨⟨fun a ha => ha.elim (htrim a) (htrim' a), ?_⟩, fun hplain => ?_⟩
  · rintro a (ha | ha) u hu kind b hlabel
    · exact himplements.epsilonFree.nested himplements.validate ha hu hlabel
    · exact himplements'.epsilonFree.nested himplements'.validate ha hu hlabel
  · obtain ⟨hnormal, hlevels⟩ := hpositional hplain
    obtain ⟨hnormal', hlevels'⟩ := hpositional' hplain
    exact ⟨hnormal, hnormal', fun a ha => ha.elim (hlevels a) (hlevels' a)⟩

/-- Whatever path is compiled, with or without the optimizer, both of its automata are trim at every
level, and without the optimizer they are position automata. -/
theorem compiled_isTrim (optimize : Bool) :
    (∀ (t : PathTree) (path : CompiledPath), t.Formed → ofTree t optimize = .ok path →
      path.IsTrim ∧ (optimize = false → path.IsPositional t)) ∧
    ∀ (e : PathExpr) (path : CompiledPath), ofExpr e optimize = .ok path →
      ∃ t, e.toTree = .ok t ∧ path.IsTrim ∧ (optimize = false → path.IsPositional t) := by
  refine ⟨fun t path hformed h => isTrim_ofTree hformed h, fun e path h => ?_⟩
  obtain ⟨⟨hfull, hsize⟩, hpath⟩ := ofExpr_eq_ok_iff.mp h
  exact ⟨_, PathExpr.toTree_eq_ok_iff.mpr ⟨rfl, hfull, hsize⟩,
    isTrim_ofTree (PathExpr.formed_tree_iff.mpr hfull) hpath⟩

/-- `(^p | (p/q?)*)/!(q)` and `^p/q?` are compiled, with and without the optimizer. -/
theorem compiled_isTrim_optional_items :
    let p : PathTree := .property (.forward ⟨"p"⟩)
    let q : PathTree := .property (.forward ⟨"q"⟩)
    let t : PathTree := .sequence
      [.alternative [.inverse p, .closure .zeroOrMore (.sequence [p, .closure .zeroOrOne q])],
        .negation [q]]
    let b : TreeBuilder := ⟨t.listing 0⟩
    let e : PathExpr := .sequence (.reverse (.iri ⟨"p"⟩)) (.zeroOrOne (.iri ⟨"q"⟩))
    b.finish ⟨10⟩ = .ok t ∧ (∃ path, ofTree t true = .ok path ∧ path.IsTrim) ∧
      (∃ path, ofTree t false = .ok path ∧ path.IsTrim ∧ path.IsPositional t) ∧
      (∃ path, ofExpr e true = .ok path ∧ path.IsTrim) ∧
      ∃ path u, ofExpr e false = .ok path ∧ e.toTree = .ok u ∧ path.IsTrim ∧
      path.IsPositional u := by
  intro p q t b e
  have hfinish : b.finish ⟨10⟩ = .ok t := TreeBuilder.finish_eq_ok_iff.mpr ⟨by cbv, by decide⟩
  have hformed := PathTree.formed_of_finish hfinish
  have hnegated : t.WellNegated := by
    simp [t, p, q, WellNegated, PathTree.NegatesProperly, PathTree.subtreesAll, PathTree.subtrees,
      PathTree.Negatable, PropertySet.forward]
  obtain ⟨optimized, hoptimized⟩ := (succeedsIff_ofTree_of_formed hformed true).ok hnegated
  obtain ⟨path, hpath⟩ := (succeedsIff_ofTree_of_formed hformed false).ok hnegated
  obtain ⟨optimized', hoptimized'⟩ := (succeedsIff_ofExpr e true).ok (by decide)
  obtain ⟨path', hpath'⟩ := (succeedsIff_ofExpr e false).ok (by decide)
  obtain ⟨htree, hexpr⟩ := compiled_isTrim true
  obtain ⟨htree', hexpr'⟩ := compiled_isTrim false
  obtain ⟨_, _, htrim, _⟩ := hexpr e optimized' hoptimized'
  obtain ⟨u, hu, htrim', hpositional⟩ := hexpr' e path' hpath'
  refine ⟨hfinish, ⟨optimized, hoptimized, (htree t optimized hformed hoptimized).1⟩,
    ⟨path, hpath, ?_⟩,
    ⟨optimized', hoptimized', htrim⟩, path', u, hpath', hu, htrim', hpositional rfl⟩
  exact (htree' t path hformed hpath).imp_right fun h => h rfl

end CompiledPath

end PropertyPath
