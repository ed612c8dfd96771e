import PropertyPath.Automaton.Position
import PropertyPath.Proofs.Automaton.Nesting
import PropertyPath.Proofs.Automaton.Shapes
import PropertyPath.Proofs.Automaton.Validity
import PropertyPath.Proofs.Path.Depth
import PropertyPath.Proofs.Path.Marking
import PropertyPath.Proofs.Path.Renumbering

/-!
# Position automata relate the ends of matching walks

The runs of a position automaton from one of its states are the words that continue the letter of
that state, and the terms on the way are the ends of what the letters match. Nested automata leave
out the empty walk; the words make up for it, since a nullable letter may be left out.
-/
namespace PropertyPath
open Relation (Comp ReflTransGen)

/-- The path whose automaton is nested in the label of a closure: repeated at least once, or
once. -/
def Closure.nests (kind : Closure) (item : PathTree) : PathTree :=
  match kind with
  | .zeroOrMore => .closure .oneOrMore item
  | .oneOrMore => .closure .oneOrMore item
  | .zeroOrOne => item

/-- The label takes what the node of a letter matches, except the empty walk. -/
structure Label.Matches (l : Label) (t : PathTree) : Prop where
  relation : ∀ G, l.relation G = Ends G (properWalks t.walks)
  validate : l.validate = .ok ()
  epsilonFree : l.EpsilonFree
  nesting : l.nesting ≤ t.closureDepth
  nested : ∀ kind a, l = .closure kind a →
    ∃ item, t = .closure kind item ∧ (kind.nests item).automaton true = .ok a

/-- The letters have labels, in the same order. -/
def Labelled (letters : List (StateName × Label)) (nodes : List (StateName × PathTree)) : Prop :=
  List.Forall₂ (fun c d => c.1 = d.1 ∧ c.2.Matches d.2) letters nodes

namespace MarkedPath

def sets (m : MarkedPath) : LetterSets := ⟨m.positions, m.nullable, m.first, m.last, m.follow⟩

/-- The words of the body, repeated by the loop if there is one. -/
def language (m : MarkedPath) : Language StateName :=
  match m.loop with
  | none => m.body.language
  | some kind => kind.language m.body.language

theorem sets_none (body : Marked) : sets ⟨none, body⟩ = body.sets := by
  simp [sets, Marked.sets, positions, nullable, first, last, follow]

theorem describes {m : MarkedPath} (h : m.positions.Nodup) : m.sets.Describes m.language := by
  obtain ⟨loop, body⟩ := m
  have hbody : body.sets.Describes body.language := Marked.describes h
  cases loop with
  | none => exact sets_none body ▸ hbody
  | some kind => exact hbody.loop kind

/-- The automaton of a marked path before it is checked. -/
def layout (m : MarkedPath) (embedded : Bool) (letters : List (StateName × Label)) : Automaton :=
  ⟨⟨Automaton.start, true, m.nullable && !embedded⟩ ::
      letters.map fun p => ⟨p.1, false, decide (p.1 ∈ m.last)⟩,
    ((letters.filter fun q => decide (q.1 ∈ m.first)).map fun q => ⟨Automaton.start, q.1, q.2⟩) ++
      letters.flatMap fun p =>
        (letters.filter fun q => decide (q.1 ∈ Marked.successors m.follow p.1)).map fun q =>
          ⟨p.1, q.1, q.2⟩⟩

theorem automaton_eq (m : MarkedPath) (embedded : Bool) (letters : List (StateName × Label)) :
    m.automaton embedded letters =
      Automaton.make (m.layout embedded letters).states (m.layout embedded letters).transitions :=
        rfl

section layout
variable {m : MarkedPath} {embedded : Bool} {letters : List (StateName × Label)} {G : Set Triple}

theorem mem_layout_transitions {u : Transition} :
    u ∈ (m.layout embedded letters).transitions ↔ (u.target, u.label) ∈ letters ∧
      ((u.source = Automaton.start ∧ u.target ∈ m.first) ∨
        (u.source ∈ letters.map (·.1) ∧ (u.source, u.target) ∈ m.follow)) := by
  obtain ⟨source, target, label⟩ := u
  simp only [layout, List.mem_append, List.mem_map, List.mem_filter, List.mem_flatMap,
    decide_eq_true_eq, Marked.mem_successors, Transition.mk.injEq]
  constructor
  · intro h
    rcases h with ⟨⟨q, l⟩, ⟨hq, hfirst⟩, rfl, rfl, rfl⟩ |
      ⟨⟨p, l'⟩, hp, ⟨q, l⟩, ⟨hq, hfollow⟩, rfl, rfl, rfl⟩
    · exact ⟨hq, Or.inl ⟨rfl, hfirst⟩⟩
    · exact ⟨hq, Or.inr ⟨⟨(p, l'), hp, rfl⟩, hfollow⟩⟩
  · intro h
    rcases h with ⟨hq, ⟨rfl, hfirst⟩ | ⟨⟨⟨p, l'⟩, hp, rfl⟩, hfollow⟩⟩
    · exact Or.inl ⟨(target, label), ⟨hq, hfirst⟩, rfl, rfl, rfl⟩
    · exact Or.inr ⟨(p, l'), hp, (target, label), ⟨hq, hfollow⟩, rfl, rfl, rfl⟩

/-- The letters are those of the path, behind the initial state, and their labels are valid. -/
structure Fits (m : MarkedPath) (letters : List (StateName × Label)) : Prop where
  keys : letters.map (·.1) = m.positions
  ascending : m.positions.Pairwise (· < ·)
  positive : ∀ p ∈ m.positions, Automaton.start < p
  labels : ∀ c ∈ letters, c.2.validate = .ok ()

namespace Fits

theorem mem_positions (h : m.Fits letters) {p : StateName} :
    p ∈ m.positions ↔ ∃ l, (p, l) ∈ letters := by
  rw [← h.keys]
  simp

theorem describes (h : m.Fits letters) : m.sets.Describes m.language :=
  MarkedPath.describes (h.ascending.imp Nat.ne_of_lt)

theorem proper (h : m.Fits letters) : State.Proper (m.layout embedded letters).states where
  ascending := by
    have hnames : (letters.map (·.1)).Pairwise (· < ·) := h.keys ▸ h.ascending
    rw [layout, List.pairwise_cons]
    constructor
    · intro s hs
      obtain ⟨c, hc, rfl⟩ := List.mem_map.mp hs
      exact h.positive c.1 (h.mem_positions.mpr ⟨c.2, hc⟩)
    · rw [List.pairwise_map] at hnames ⊢
      exact hnames
  headed := by
    refine ⟨_, _, rfl, ?_⟩
    intro s hs
    obtain ⟨c, _, rfl⟩ := List.mem_map.mp hs
    rfl

theorem named (h : m.Fits letters) {p : StateName} (hp : p ∈ m.positions) :
    ∃ s ∈ (m.layout embedded letters).states, s.name = p := by
  obtain ⟨l, hl⟩ := h.mem_positions.mp hp
  exact ⟨_, List.mem_cons_of_mem _ (List.mem_map.mpr ⟨(p, l), hl, rfl⟩), rfl⟩

theorem make (h : m.Fits letters) (embedded : Bool) :
    m.automaton embedded letters = .ok (m.layout embedded letters) ∧
      (m.layout embedded letters).validate = .ok () := by
  rw [automaton_eq]
  apply Automaton.make_of_proper h.proper
  intro u hu
  obtain ⟨htarget, hsource⟩ := mem_layout_transitions.mp hu
  refine ⟨?_, h.named (h.mem_positions.mpr ⟨_, htarget⟩), h.labels _ htarget⟩
  rcases hsource with ⟨hstart, _⟩ | ⟨hmem, _⟩
  · exact ⟨_, List.mem_cons_self, hstart.symm⟩
  · exact h.named (h.keys ▸ hmem)

theorem isFinal_start (h : m.Fits letters) :
    (m.layout embedded letters).isFinal Automaton.start = (m.nullable && !embedded) := by
  rw [Bool.eq_iff_iff, Automaton.isFinal_iff h.proper]
  constructor
  · intro hstops
    rcases hstops with ⟨s, hs, hname, hfinal⟩
    obtain rfl := h.proper.name_inj hs List.mem_cons_self hname
    exact hfinal
  · exact fun hfinal => ⟨_, List.mem_cons_self, rfl, hfinal⟩

theorem isFinal_iff (h : m.Fits letters) {p : StateName} (hp : p ∈ m.positions) :
    (m.layout embedded letters).isFinal p = true ↔ p ∈ m.last := by
  obtain ⟨l, hl⟩ := h.mem_positions.mp hp
  have hmem : (⟨p, false, decide (p ∈ m.last)⟩ : State) ∈ (m.layout embedded letters).states :=
    List.mem_cons_of_mem _ (List.mem_map.mpr ⟨(p, l), hl, rfl⟩)
  rw [Automaton.isFinal_iff h.proper]
  constructor
  · intro hstops
    rcases hstops with ⟨s, hs, hname, hfinal⟩
    obtain rfl := h.proper.name_inj hs hmem hname
    exact of_decide_eq_true hfinal
  · exact fun hlast => ⟨_, hmem, rfl, decide_eq_true hlast⟩

end Fits

section runs
variable {hop : List (List Instruction) → Term → Term → Prop}

/-- A step passes the label of a letter. -/
def passes (hop : List (List Instruction) → Term → Term → Prop) (letters : List (StateName × Label))
    (leg : StateName × Shape) (x y : Term) : Prop :=
  ∃ l, (leg.1, l) ∈ letters ∧ l.takes hop leg.2 x y

theorem takes_layout (embedded : Bool) (h : m.Fits letters) {s : Shape} {c d : StateName × Term} :
    Transition.takes hop (m.layout embedded letters).transitions s c d ↔
      passes hop letters (d.1, s) c.2 d.2 ∧ ((c.1 = Automaton.start ∧ d.1 ∈ m.first) ∨
        (c.1 ∈ m.positions ∧ (c.1, d.1) ∈ m.follow)) := by
  obtain ⟨p, x⟩ := c
  obtain ⟨q, y⟩ := d
  rw [Transition.takes_iff, ← h.keys]
  constructor
  · intro htaken
    rcases htaken with ⟨u, hu, rfl, rfl, hlabel⟩
    obtain ⟨htarget, hsource⟩ := mem_layout_transitions.mp hu
    exact ⟨⟨u.label, htarget, hlabel⟩, hsource⟩
  · intro hgiven
    rcases hgiven with ⟨⟨l, htarget, hlabel⟩, hsource⟩
    exact ⟨⟨p, q, l⟩, mem_layout_transitions.mpr ⟨htarget, hsource⟩, rfl, rfl, hlabel⟩

/-- The runs from the state of a letter are the words that continue it. -/
theorem runs_layout (embedded : Bool) (h : m.Fits letters)
    {steps : List Shape} {c : StateName × Term}
    (hc : c.1 ∈ m.positions) {y : Term} :
    (∃ q, (m.layout embedded letters).isFinal q = true ∧
        Runs (Transition.takes hop (m.layout embedded letters).transitions) steps c (q, y)) ↔
      ∃ legs : List (StateName × Shape), m.sets.Continues c.1 (legs.map (·.1)) ∧
        legs.map (·.2) = steps ∧ Runs (passes hop letters) legs c.2 y := by
  induction steps generalizing c with
  | nil =>
      constructor
      · intro hrun
        rcases hrun with ⟨q, hq, rfl⟩
        exact ⟨[], (h.isFinal_iff hc).mp hq, rfl, rfl⟩
      · intro hword
        rcases hword with ⟨legs, hlast, hsteps, hrun⟩
        obtain rfl := List.map_eq_nil_iff.mp hsteps
        exact ⟨c.1, (h.isFinal_iff hc).mpr hlast, Prod.ext rfl hrun⟩
  | cons s steps ih =>
      constructor
      · intro hrun
        rcases hrun with ⟨q, hq, d, hstep, hrest⟩
        obtain ⟨hpass, ⟨hstart, _⟩ | ⟨_, hfollow⟩⟩ := (takes_layout embedded h).mp hstep
        · have hpositive := h.positive c.1 hc
          exact absurd hstart (Nat.ne_of_gt hpositive)
        · have hd := (h.describes.follow c.1 d.1 hfollow).2
          obtain ⟨legs, hcontinues, hsteps, hruns⟩ := (ih hd).mp ⟨q, hq, hrest⟩
          exact ⟨(d.1, s) :: legs, ⟨hfollow, hcontinues⟩, congrArg _ hsteps, d.2, hpass, hruns⟩
      · intro hword
        rcases hword with ⟨legs, hcontinues, hword, hruns⟩
        cases legs with
        | nil => cases hword
        | cons leg legs =>
            obtain ⟨rfl, hsteps⟩ := List.cons.inj hword
            obtain ⟨hfollow, hcontinues⟩ := hcontinues
            obtain ⟨z, hpass, hruns⟩ := hruns
            have hp := (h.describes.follow c.1 leg.1 hfollow).2
            have hstep :
                Transition.takes hop (m.layout embedded letters).transitions leg.2 c (leg.1, z) :=
              (takes_layout embedded h).mpr ⟨hpass, Or.inr ⟨hc, hfollow⟩⟩
            have hrest := (ih (c := (leg.1, z)) hp).mpr ⟨legs, hcontinues, hsteps, hruns⟩
            obtain ⟨q, hq, hrest⟩ := hrest
            exact ⟨q, hq, _, hstep, hrest⟩

/-- From the initial state a run reads a word of the path, or nothing if that state is final. -/
theorem accepts_layout (h : m.Fits letters) {steps : List Shape} {x y : Term} :
    (m.layout embedded letters).accepts hop steps x y ↔
      (steps = [] ∧ (m.nullable && !embedded) = true ∧ x = y) ∨
        ∃ legs : List (StateName × Shape), legs ≠ [] ∧ legs.map (·.1) ∈ m.language ∧
          legs.map (·.2) = steps ∧ Runs (passes hop letters) legs x y := by
  rw [Automaton.accepts_iff, ← h.isFinal_start]
  constructor
  · intro haccepts
    rcases haccepts with ⟨q, hq, hrun⟩
    cases steps with
    | nil =>
        obtain ⟨rfl, rfl⟩ := Prod.mk.inj hrun
        exact Or.inl ⟨rfl, hq, rfl⟩
    | cons s steps =>
        obtain ⟨⟨p, z⟩, hstep, hrest⟩ := hrun
        obtain ⟨hpass, ⟨_, hfirst⟩ | ⟨hstart, _⟩⟩ := (takes_layout embedded h).mp hstep
        · obtain ⟨legs, hcontinues, hsteps, hruns⟩ :=
            (runs_layout embedded h (h.describes.first p hfirst)).mp ⟨q, hq, hrest⟩
          refine Or.inr ⟨(p, s) :: legs, List.cons_ne_nil _ _, ?_,
            congrArg _ hsteps, z, hpass, hruns⟩
          exact (h.describes.cons p _).mpr ⟨hfirst, hcontinues⟩
        · exact absurd (h.positive _ hstart) (Nat.lt_irrefl _)
  · intro hword
    rcases hword with ⟨rfl, hfinal, rfl⟩ | ⟨legs, hne, hmem, rfl, hruns⟩
    · exact ⟨Automaton.start, hfinal, rfl⟩
    · cases legs with
      | nil => exact absurd rfl hne
      | cons leg legs =>
          obtain ⟨hfirst, hcontinues⟩ := (h.describes.cons leg.1 _).mp hmem
          obtain ⟨z, hpass, hruns⟩ := hruns
          have hp := h.describes.first leg.1 hfirst
          have hrest :=
            (runs_layout embedded h (c := (leg.1, z)) hp).mpr ⟨legs, hcontinues, rfl, hruns⟩
          obtain ⟨q, hq, hrest⟩ := hrest
          exact ⟨q, hq, (leg.1, z),
            (takes_layout embedded h).mpr ⟨hpass, Or.inl ⟨rfl, hfirst⟩⟩, hrest⟩

end runs

section spelled
variable {K : StateName → Language Step}

theorem ends_spell (h : m.Fits letters) (hK : ∀ c ∈ letters, c.2.relation G = Ends G (K c.1))
    {ps : List StateName} (hps : ∀ p ∈ ps, p ∈ m.positions) {x y : Term} : Ends G (spell K ps) x y ↔
      ∃ legs : List (StateName × Shape), legs.map (·.1) = ps ∧
        Runs (passes (joined G) letters) legs x y := by
  induction ps generalizing x with
  | nil =>
      rw [spell_nil, ends_one]
      constructor
      · intro heq
        exact ⟨[], rfl, heq⟩
      · intro hword
        rcases hword with ⟨legs, hlegs, hruns⟩
        obtain rfl := List.map_eq_nil_iff.mp hlegs
        exact hruns
  | cons p ps ih =>
      obtain ⟨hp, hrest⟩ := List.forall_mem_cons.mp hps
      rw [spell_cons, ends_mul]
      constructor
      · intro hends
        rcases hends with ⟨z, hfirst, hends⟩
        obtain ⟨l, hl⟩ := h.mem_positions.mp hp
        rw [← hK _ hl, Label.relation_iff_takes] at hfirst
        obtain ⟨s, hs⟩ := hfirst
        obtain ⟨legs, hlegs, hruns⟩ := (ih hrest).mp hends
        exact ⟨(p, s) :: legs, congrArg _ hlegs, z, ⟨l, hl, hs⟩, hruns⟩
      · intro hword
        rcases hword with ⟨legs, hword, hruns⟩
        cases legs with
        | nil => cases hword
        | cons leg legs =>
            obtain ⟨rfl, hlegs⟩ := List.cons.inj hword
            obtain ⟨z, ⟨l, hl, hs⟩, hruns⟩ := hruns
            have hfirst := (Label.relation_iff_takes l _ _).mpr ⟨leg.2, hs⟩
            rw [hK _ hl] at hfirst
            exact ⟨z, hfirst, (ih hrest).mpr ⟨legs, hlegs, hruns⟩⟩

theorem relation_layout (h : m.Fits letters)
    (hK : ∀ c ∈ letters, c.2.relation G = Ends G (K c.1)) {x y : Term} :
    (m.layout embedded letters).relation G x y ↔ ((m.nullable && !embedded) = true ∧ x = y) ∨
      ∃ ps ∈ m.language, ps ≠ [] ∧ Ends G (spell K ps) x y := by
  have hletters {ps : List StateName} (hps : ps ∈ m.language) : ∀ p ∈ ps, p ∈ m.positions :=
    h.describes.letters hps
  rw [Automaton.relation_iff_accepts]
  constructor
  · intro haccepts
    rcases haccepts with ⟨steps, haccepts⟩
    rcases (accepts_layout h).mp haccepts with ⟨_, hempty⟩ | ⟨legs, hne, hmem, _, hruns⟩
    · exact Or.inl hempty
    · refine Or.inr ⟨legs.map (·.1), hmem, fun hnil => hne (List.map_eq_nil_iff.mp hnil), ?_⟩
      exact (ends_spell h hK (hletters hmem)).mpr ⟨legs, rfl, hruns⟩
  · intro hword
    rcases hword with hempty | ⟨ps, hps, hne, hends⟩
    · exact ⟨[], (accepts_layout h).mpr (Or.inl ⟨rfl, hempty⟩)⟩
    · obtain ⟨legs, rfl, hruns⟩ := (ends_spell h hK (hletters hps)).mp hends
      have hlegs : legs ≠ [] := fun hnil => hne (List.map_eq_nil_iff.mpr hnil)
      exact ⟨_, (accepts_layout h).mpr (Or.inr ⟨legs, hlegs, hps, rfl, hruns⟩)⟩

end spelled

end layout

end MarkedPath

/-- Proper walks are the words that are spelled with proper walks and not empty. -/
theorem properWalks_substitute {K : StateName → Language Step} (hK : ∀ p, [] ∉ K p)
    (L : Language StateName) :
    properWalks (substitute K L) = {w | ∃ ps ∈ L, ps ≠ [] ∧ w ∈ spell K ps} := by
  have hspell : ∀ ps w, w ∈ spell K ps → (w = [] ↔ ps = []) := by
    intro ps w hw
    cases ps with
    | nil => exact iff_of_true hw rfl
    | cons p ps =>
        rw [spell_cons] at hw
        obtain ⟨u, hu, v, _, rfl⟩ := hw
        refine iff_of_false ?_ (List.cons_ne_nil p ps)
        intro hnil
        rw [List.append_eq_nil_iff] at hnil
        exact hK p (hnil.1 ▸ hu)
  ext w
  constructor
  · intro h
    rcases h with ⟨⟨ps, hps, hw⟩, hne⟩
    exact ⟨ps, hps, fun hnil => hne ((hspell ps w hw).mpr hnil), hw⟩
  · intro h
    rcases h with ⟨ps, hps, hne, hw⟩
    exact ⟨⟨ps, hps, hw⟩, fun hnil => hne ((hspell ps w hw).mp hnil)⟩

theorem ends_properWalks {G : Set Triple} {K : StateName → Language Step} (hK : ∀ p, [] ∉ K p)
    {L : Language StateName} {x y : Term} : Ends G (properWalks (substitute K L)) x y ↔
      ∃ ps ∈ L, ps ≠ [] ∧ Ends G (spell K ps) x y := by
  rw [properWalks_substitute hK]
  constructor
  · intro hwalk
    rcases hwalk with ⟨w, ⟨ps, hps, hne, hw⟩, h⟩
    exact ⟨ps, hps, hne, w, hw, h⟩
  · intro hjoined
    rcases hjoined with ⟨ps, hps, hne, w, hw, h⟩
    exact ⟨w, ⟨ps, hps, hne, hw⟩, h⟩

/-- Letters at different positions tell the node of each position. -/
theorem exists_node {nodes : List (StateName × PathTree)} (h : (nodes.map (·.1)).Nodup) :
    ∃ node : StateName → PathTree, ∀ c ∈ nodes, node c.1 = c.2 := by
  induction nodes with
  | nil => exact ⟨fun _ => .sequence [], nofun⟩
  | cons c nodes ih =>
      rw [List.map_cons, List.nodup_cons] at h
      obtain ⟨node, hnode⟩ := ih h.2
      refine ⟨Function.update node c.1 c.2, ?_⟩
      intro d hd
      rcases List.mem_cons.mp hd with rfl | hd
      · exact Function.update_self d.1 d.2 node
      · have hne : d.1 ≠ c.1 := fun heq => h.1 (heq ▸ List.mem_map.mpr ⟨d, hd, rfl⟩)
        rw [Function.update_of_ne hne, hnode d hd]

theorem exists_values {nodes : List (StateName × PathTree)} (h : (nodes.map (·.1)).Nodup) :
    ∃ K, Marked.Values K nodes ∧ ∀ p, [] ∉ K p := by
  obtain ⟨node, hnode⟩ := exists_node h
  refine ⟨fun p => properWalks (node p).walks, ?_, fun _ hnil => hnil.2 rfl⟩
  intro c hc
  change properWalks (node c.1).walks = properWalks c.2.walks
  rw [hnode c hc]

/-- What the automaton of a path has to be; an embedded one leaves out the empty walk. -/
structure Automaton.Realizes (a : Automaton) (embedded : Bool) (t : PathTree) : Prop where
  validate : a.validate = .ok ()
  relation : ∀ G, a.relation G = Ends G (if embedded then properWalks t.walks else t.walks)
  initial : a.isFinal start = (t.nullable && !embedded)
  epsilonFree : a.EpsilonFree
  nesting : a.nesting ≤ t.body.closureDepth
  nested : ∀ u ∈ a.transitions, ∀ kind b, u.label = .closure kind b →
    ∃ item, .closure kind item ∈ t.subtrees ∧ (kind.nests item).automaton true = .ok b

namespace Labelled
variable {letters : List (StateName × Label)} {nodes : List (StateName × PathTree)}

theorem keys (h : Labelled letters nodes) : letters.map (·.1) = nodes.map (·.1) := by
  induction h with
  | nil => rfl
  | cons hcd _ ih => rw [List.map_cons, List.map_cons, hcd.1, ih]

end Labelled

namespace PathTree

theorem closureDepth_markCases :
    MarkCases (fun _ t m => ∀ c ∈ m.letters, c.2.closureDepth ≤ t.closureDepth)
      fun _ ts ms => ∀ c ∈ Marked.lettersAll ms, c.2.closureDepth ≤ closureDepthAll ts where
  property _ _ := List.forall_mem_singleton.mpr (Nat.le_refl _)
  closure _ _ _ := List.forall_mem_singleton.mpr (Nat.le_refl _)
  sequence _ _ _ _ h := h
  alternative _ _ _ _ h := h
  nil _ _ hc := absurd hc List.not_mem_nil
  cons _ _ _ _ _ _ hfirst hrest c hc := by
    rw [closureDepthAll, le_max_iff]
    rcases List.mem_append.mp hc with hc | hc
    · exact Or.inl (hfirst c hc)
    · exact Or.inr (hrest c hc)

theorem closureDepth_letters {k : Nat} {t : PathTree} {m : Marked} (h : t.mark k = .ok m) :
    ∀ c ∈ m.letters, c.2.closureDepth ≤ t.closureDepth := closureDepth_markCases.mark h

theorem subtrees_markCases : MarkCases (fun _ t m => ∀ c ∈ m.letters, c.2 ∈ t.subtrees)
    fun _ ts ms => ∀ c ∈ Marked.lettersAll ms, c.2 ∈ subtreesAll ts where
  property _ _ := List.forall_mem_singleton.mpr List.mem_cons_self
  closure _ _ _ := List.forall_mem_singleton.mpr (List.mem_append_right _ List.mem_cons_self)
  sequence _ _ _ _ h c hc := List.mem_append_left _ (h c hc)
  alternative _ _ _ _ h c hc := List.mem_append_left _ (h c hc)
  nil _ _ hc := absurd hc List.not_mem_nil
  cons _ _ _ _ _ _ hfirst hrest c hc := by
    rcases List.mem_append.mp hc with hc | hc
    · exact List.mem_append_left _ (hfirst c hc)
    · exact List.mem_append_right _ (hrest c hc)

theorem letters_subset_subtrees {k : Nat} {t : PathTree} {m : Marked} (h : t.mark k = .ok m) :
    ∀ c ∈ m.letters, c.2 ∈ t.subtrees := subtrees_markCases.mark h

theorem subtrees_body_subset (t : PathTree) : t.body.subtrees ⊆ t.subtrees := by
  cases t with
  | closure kind item => exact List.subset_append_left _ _
  | _ => exact List.Subset.refl _

theorem walks_body (t : PathTree) : t.walks =
    match t.loop? with
    | none => t.body.walks
    | some kind => kind.language t.body.walks := by
  cases t <;> rfl

/-- The empty walk relates every term to itself, if it matches. -/
theorem ends_walks_iff {G : Set Triple} {t : PathTree} {x y : Term} :
    Ends G t.walks x y ↔ (t.nullable = true ∧ x = y) ∨ Ends G (properWalks t.walks) x y := by
  rw [← t.nil_mem_walks]
  constructor
  · intro hwalk
    rcases hwalk with ⟨w, hw, h⟩
    by_cases hne : w = []
    · subst hne
      exact Or.inl ⟨hw, h⟩
    · exact Or.inr ⟨w, ⟨hw, hne⟩, h⟩
  · intro hjoined
    rcases hjoined with ⟨hnil, rfl⟩ | ⟨w, hw, h⟩
    · exact ⟨[], hnil, rfl⟩
    · exact ⟨w, hw.1, h⟩

section marked
variable {t : PathTree} {m : Marked}

theorem nullable_markRoot (hm : t.body.mark 0 = .ok m) :
    MarkedPath.nullable ⟨t.loop?, m⟩ = t.nullable := by
  have hbody := nullable_mark hm
  cases t <;> simp [MarkedPath.nullable, loop?, hbody, body, nullable]

theorem substitute_markRoot (hm : t.body.mark 0 = .ok m) {K : StateName → Language Step}
    (hK : Marked.Values K m.letters) :
    substitute K (MarkedPath.language ⟨t.loop?, m⟩) = t.walks := by
  have hbody := substitute_mark hm hK
  rw [walks_body, MarkedPath.language]
  cases t.loop? with
  | none => exact hbody
  | some kind =>
      change substitute K (kind.language m.language) = kind.language t.body.walks
      rw [substitute_closure, hbody]

theorem fits_of_labelled (hm : t.body.mark 0 = .ok m) {letters : List (StateName × Label)}
    (h : Labelled letters m.letters) : MarkedPath.Fits ⟨t.loop?, m⟩ letters where
  keys := h.keys.trans m.positions_eq.symm
  ascending := (between_mark hm).ascending
  positive p hp := ((between_mark hm).bounds p hp).1
  labels := by
    intro c hc
    obtain ⟨d, _, _, hmatch⟩ := exists_related_of_mem h hc
    exact hmatch.validate

theorem nodup_letters {k : Nat} (hm : t.mark k = .ok m) : (m.letters.map (·.1)).Nodup := by
  rw [← m.positions_eq]
  exact (between_mark hm).ascending.imp Nat.ne_of_lt

theorem automaton_of_labelled (hm : t.body.mark 0 = .ok m) {letters : List (StateName × Label)}
    (hletters : t.body.letterLabels 0 = .ok letters)
    (h : Labelled letters m.letters) (embedded : Bool) :
    t.automaton embedded = .ok (MarkedPath.layout ⟨t.loop?, m⟩ embedded letters) := by
  rw [automaton, markRoot, hm, hletters]
  exact ((fits_of_labelled hm h).make embedded).1

/-- Letters that are labelled rightly make an automaton that realizes the path. -/
theorem realizes_of_labelled (hm : t.body.mark 0 = .ok m) {letters : List (StateName × Label)}
    (hletters : t.body.letterLabels 0 = .ok letters) (h : Labelled letters m.letters)
    (embedded : Bool) : ∃ a, t.automaton embedded = .ok a ∧ a.Realizes embedded t := by
  have hfits := fits_of_labelled hm h
  obtain ⟨K, hK, hproper⟩ := exists_values (nodup_letters hm)
  have htakes (G : Set Triple) : ∀ c ∈ letters, c.2.relation G = Ends G (K c.1) := by
    intro c hc
    obtain ⟨d, hd, hkey, hmatch⟩ := exists_related_of_mem h hc
    rw [hmatch.relation, hkey, hK d hd]
  have hlabels : ∀ u ∈ (MarkedPath.layout ⟨t.loop?, m⟩ embedded letters).transitions,
      ∃ d ∈ m.letters, u.label.Matches d.2 := by
    intro u hu
    obtain ⟨d, hd, _, hmatch⟩ := exists_related_of_mem h (MarkedPath.mem_layout_transitions.mp hu).1
    exact ⟨d, hd, hmatch⟩
  refine ⟨_, automaton_of_labelled hm hletters h embedded,
    (hfits.make embedded).2, ?_, ?_, ?_, ?_, ?_⟩
  · intro G
    funext x y
    apply propext
    rw [MarkedPath.relation_layout hfits (htakes G), nullable_markRoot hm,
      ← ends_properWalks hproper,
      substitute_markRoot hm hK]
    cases embedded with
    | true => simp
    | false =>
        rw [Bool.not_false, Bool.and_true, ← ends_walks_iff]
        rfl
  · rw [hfits.isFinal_start, nullable_markRoot hm]
  · apply Automaton.epsilonFree_iff.mpr
    intro u hu
    obtain ⟨d, _, hmatch⟩ := hlabels u hu
    exact hmatch.epsilonFree
  · apply Automaton.nesting_le_iff.mpr
    intro u hu
    obtain ⟨d, hd, hmatch⟩ := hlabels u hu
    have hnesting : u.label.nesting ≤ d.2.closureDepth := hmatch.nesting
    have hdepth : d.2.closureDepth ≤ t.body.closureDepth := closureDepth_letters hm d hd
    omega
  · intro u hu kind b hlabel
    obtain ⟨d, hd, hmatch⟩ := hlabels u hu
    obtain ⟨item, hitem, hnested⟩ := hmatch.nested kind b hlabel
    have hmem := subtrees_body_subset t (letters_subset_subtrees hm d hd)
    exact ⟨item, hitem ▸ hmem, hnested⟩

end marked

section nested

theorem letterLabels_closure (k : Nat) (kind : Closure) (item : PathTree) :
    (closure kind item).letterLabels k = do
      let nested ← (kind.nests item).automaton true
      return [(k + item.size + 1, .closure kind nested)] := by
  cases kind with
  | zeroOrMore => simp [letterLabels, automaton, markRoot, body, loop?, Closure.nests]
  | oneOrMore => simp [letterLabels, automaton, markRoot, body, loop?, Closure.nests]
  | zeroOrOne =>
      cases item with
      | closure inner item =>
          simp only [letterLabels, automaton, markRoot, body, loop?,
            Closure.nests, bind_assoc, pure_bind]
          rfl
      | _ => simp [letterLabels, automaton, markRoot, body, loop?, Closure.nests]

theorem properWalks_nests (kind : Closure) (item : PathTree) :
    properWalks (kind.nests item).walks = properWalks (closure kind item).walks := by
  ext w
  rw [mem_properWalks, mem_properWalks, and_congr_left_iff]
  intro hne
  cases kind with
  | zeroOrMore =>
      exact (Closure.mem_language_of_repeats rfl hne).trans
        (Closure.mem_language_of_repeats rfl hne).symm
  | oneOrMore => rfl
  | zeroOrOne => exact (Closure.mem_language_zeroOrOne hne).symm

theorem body_nests_plain {kind : Closure} {item : PathTree} (h : item.Plain) :
    (kind.nests item).body.Plain := by
  cases kind with
  | zeroOrOne => cases item <;> exact h
  | _ => exact h

theorem closureDepth_body_nests (kind : Closure) (item : PathTree) :
    (kind.nests item).body.closureDepth ≤ item.closureDepth := by
  cases kind with
  | zeroOrOne =>
      cases item with
      | closure inner item => exact Nat.le_succ _
      | _ => exact Nat.le_refl _
  | _ => exact Nat.le_refl _

theorem sizeOf_body_nests (kind : Closure) (item : PathTree) :
    sizeOf (kind.nests item).body < sizeOf (closure kind item) := by
  cases kind with
  | zeroOrOne =>
      cases item with
      | closure inner item =>
          simp only [Closure.nests, body, closure.sizeOf_spec]
          omega
      | _ => simp [Closure.nests, body]
  | _ => simp [Closure.nests, body]

/-- The label of a closure letter holds the automaton of the path that it nests. -/
theorem matches_closure {kind : Closure} {item : PathTree} {a : Automaton}
    (ha : (kind.nests item).automaton true = .ok a) (h : a.Realizes true (kind.nests item)) :
    (Label.closure kind a).Matches (closure kind item) where
  relation G := by
    rw [Label.relation, h.relation, ← properWalks_nests]
    rfl
  validate := h.validate
  epsilonFree := ⟨by simp [h.initial], h.epsilonFree⟩
  nesting := Nat.succ_le_succ (Nat.le_trans h.nesting (closureDepth_body_nests kind item))
  nested := by
    intro kind' a' hlabel
    cases hlabel
    exact ⟨item, rfl, ha⟩

/-- The label of a leaf takes its one step. -/
theorem matches_property {i : Instruction} :
    (Label.property i).Matches (property i.toPropertySet) where
  relation G := by
    have hproper : properWalks (property i.toPropertySet).walks = single i.toPropertySet.Takes := by
      ext w
      constructor
      · exact fun h => h.1
      · intro hgiven
        rcases hgiven with ⟨s, hs, rfl⟩
        exact ⟨⟨s, hs, rfl⟩, List.cons_ne_nil s []⟩
    rw [hproper, ends_single, Label.relation, chainRelation, chainRelation, Relation.comp_eq]
  validate := rfl
  epsilonFree := trivial
  nesting := Nat.zero_le _
  nested := nofun

mutual

/-- All letters of a plain path can be labelled, those of nested paths first. -/
theorem exists_labelled {t : PathTree} (h : t.Plain) {k : Nat} {m : Marked}
    (hm : t.mark k = .ok m) :
    ∃ letters, t.letterLabels k = .ok letters ∧ Labelled letters m.letters := by
  cases t with
  | property set =>
      cases hm
      have hset : Instruction.ofSet set = .ok ⟨set, h⟩ := Instruction.ofSet_eq_ok_iff.mpr rfl
      refine ⟨[(k + 1, .property ⟨set, h⟩)], by rw [letterLabels, hset]; rfl, ?_⟩
      exact List.Forall₂.cons ⟨rfl, matches_property⟩ List.Forall₂.nil
  | inverse item => exact h.elim
  | negation items => exact h.elim
  | closure kind item =>
      cases hm
      have hlt := sizeOf_body_nests kind item
      have hitem : item.Plain := h
      have hplain : (kind.nests item).body.Plain := body_nests_plain hitem
      obtain ⟨m, hm⟩ := exists_mark hplain 0
      obtain ⟨letters, hletters, hlabelled⟩ := exists_labelled hplain hm
      obtain ⟨a, ha, hrealizes⟩ := realizes_of_labelled hm hletters hlabelled true
      refine ⟨[(k + item.size + 1, .closure kind a)], by rw [letterLabels_closure, ha]; rfl, ?_⟩
      exact List.Forall₂.cons ⟨rfl, matches_closure ha hrealizes⟩ List.Forall₂.nil
  | sequence items =>
      simp only [mark, bind_eq_ok_iff, pure_eq_ok_iff] at hm
      obtain ⟨ms, hms, rfl⟩ := hm
      have hitems : AllPlain items := h
      exact exists_labelledAll hitems hms
  | alternative items =>
      simp only [mark, bind_eq_ok_iff, pure_eq_ok_iff] at hm
      obtain ⟨ms, hms, rfl⟩ := hm
      have hitems : AllPlain items := h
      exact exists_labelledAll hitems hms
termination_by sizeOf t

theorem exists_labelledAll {ts : List PathTree} (h : AllPlain ts) {k : Nat} {ms : List Marked}
    (hms : markAll k ts = .ok ms) :
    ∃ letters, letterLabelsAll k ts = .ok letters ∧ Labelled letters (Marked.lettersAll ms) := by
  cases ts with
  | nil =>
      cases hms
      exact ⟨[], rfl, List.Forall₂.nil⟩
  | cons t ts =>
      simp only [markAll, bind_eq_ok_iff, pure_eq_ok_iff] at hms
      obtain ⟨m, hm, ms, hms, rfl⟩ := hms
      obtain ⟨letters, hletters, hlabelled⟩ := exists_labelled h.1 hm
      obtain ⟨rest, hrest, hlabelled'⟩ := exists_labelledAll h.2 hms
      refine ⟨letters ++ rest, ?_, List.rel_append hlabelled hlabelled'⟩
      rw [letterLabelsAll, hletters, bind_eq_ok_iff]
      exact ⟨letters, rfl, by rw [hrest]; rfl⟩
termination_by sizeOf ts

end

theorem automaton_realizes {t : PathTree} (h : t.Plain) (embedded : Bool) :
    ∃ a, t.automaton embedded = .ok a ∧ a.Realizes embedded t := by
  have hplain := plain_body.mpr h
  obtain ⟨m, hm⟩ := exists_mark hplain 0
  obtain ⟨letters, hletters, hlabelled⟩ := exists_labelled hplain hm
  exact realizes_of_labelled hm hletters hlabelled embedded

end nested

/-- A finished tree without inverses and negations has an automaton that joins the ends of exactly
the walks that match it, and its initial state is final when the empty walk is one of them. The
automaton to be embedded joins the ends of the walks that have a step. Every closure below the root
holds an embedded automaton of what it repeats. -/
theorem relation_automaton {b : TreeBuilder} {root : NodeId} {t : PathTree}
    (h : b.finish root = .ok t) (hinverse : t.containsOperator .inverse = false)
    (hnegation : t.containsOperator .negation = false) :
    (∃ a, t.automaton false = .ok a ∧
      (∀ G x y, a.relation G x y ↔ ∃ w ∈ t.walks, Joins G w x y) ∧
      (a.isFinal Automaton.start = true ↔ [] ∈ t.walks) ∧ ([] ∈ t.walks ↔ t.nullable = true) ∧
      ∀ u ∈ a.transitions, ∀ kind c, u.label = .closure kind c →
        ∃ item, .closure kind item ∈ t.subtrees ∧ (kind.nests item).automaton true = .ok c) ∧
    ∃ a, t.automaton true = .ok a ∧
      (∀ G x y, a.relation G x y ↔ ∃ w ∈ t.walks, w ≠ [] ∧ Joins G w x y) ∧
      ∀ u ∈ a.transitions, ∀ kind c, u.label = .closure kind c →
        ∃ item, .closure kind item ∈ t.subtrees ∧ (kind.nests item).automaton true = .ok c := by
  have hplain := plain_of_finish h hinverse hnegation
  constructor
  · obtain ⟨a, ha, hrealizes⟩ := automaton_realizes hplain false
    refine ⟨a, ha, ?_, ?_, t.nil_mem_walks, hrealizes.nested⟩
    · intro G x y
      rw [hrealizes.relation]
      rfl
    · rw [hrealizes.initial, t.nil_mem_walks, Bool.not_false, Bool.and_true]
  · obtain ⟨a, ha, hrealizes⟩ := automaton_realizes hplain true
    refine ⟨a, ha, ?_, hrealizes.nested⟩
    intro G x y
    rw [hrealizes.relation]
    constructor
    · intro hwalk
      rcases hwalk with ⟨w, ⟨hw, hne⟩, hjoins⟩
      exact ⟨w, hw, hne, hjoins⟩
    · intro hjoined
      rcases hjoined with ⟨w, hw, hne, hjoins⟩
      exact ⟨w, ⟨hw, hne⟩, hjoins⟩

/-- `((p*/^q?)+)?`, with a nullable sequence under two closures. -/
theorem relation_automaton_nested_closures :
    let p : PathTree := .property (.forward ⟨"p"⟩)
    let q : PathTree := .property (.backward ⟨"q"⟩)
    let items : List PathTree := [.closure .zeroOrMore p, .closure .zeroOrOne q]
    let t : PathTree := .closure .zeroOrOne (.closure .oneOrMore (.sequence items))
    let b : TreeBuilder := ⟨t.listing 0⟩
    b.finish ⟨6⟩ = .ok t ∧
      ∃ a, t.automaton false = .ok a ∧
        ∀ G x y, a.relation G x y ↔ ∃ w ∈ t.walks, Joins G w x y := by
  intro p q items t b
  have h : b.finish ⟨6⟩ = .ok t := TreeBuilder.finish_eq_ok_iff.mpr ⟨by cbv, by decide⟩
  obtain ⟨⟨a, ha, hrelation, _⟩, _⟩ := relation_automaton h rfl rfl
  exact ⟨h, a, ha, hrelation⟩

end PathTree

end PropertyPath
