import PropertyPath.Proofs.Automaton.Position
import PropertyPath.Proofs.Path.Converse
import PropertyPath.Proofs.Path.Mirror

/-!
# Automata of mirror images

The position automaton of the mirror image of a path has, for every accepting run of the automaton
of the path, an accepting run that joins the same terms the other way round. The reversed run takes
the same steps in reverse order, and the runs within its steps are reversed as well, so that all of
them keep their lengths. The two automata have little else in common: the positions of their letters
differ, and so do the sets that make their transitions. What they share are the words of the path,
which tell the runs of both.
-/
namespace PropertyPath
open scoped Computability

namespace Shape

mutual

/-- The step the other way round: the run within it is reversed, and so are the runs within that. -/
def mirror : Shape → Shape
  | hop => hop
  | closure steps => closure (mirrorAll steps).reverse

def mirrorAll : List Shape → List Shape
  | [] => []
  | s :: steps => mirror s :: mirrorAll steps

end

/-- The steps of the reversed run. -/
def backwards (steps : List Shape) : List Shape := (mirrorAll steps).reverse

theorem mirrorAll_eq (steps : List Shape) : mirrorAll steps = steps.map mirror := by
  induction steps with
  | nil => rfl
  | cons s steps ih => rw [mirrorAll, ih, List.map_cons]

@[simp] theorem length_backwards (steps : List Shape) :
    (backwards steps).length = steps.length := by
  rw [backwards, List.length_reverse, mirrorAll_eq, List.length_map]

mutual

theorem mirror_mirror (s : Shape) : s.mirror.mirror = s := by
  cases s with
  | hop => rfl
  | closure steps =>
      rw [mirror, mirror, mirrorAll_eq, List.map_reverse, List.reverse_reverse, ← mirrorAll_eq,
        mirrorAll_mirrorAll steps]

theorem mirrorAll_mirrorAll (steps : List Shape) : mirrorAll (mirrorAll steps) = steps := by
  cases steps with
  | nil => rfl
  | cons s steps => rw [mirrorAll, mirrorAll, mirror_mirror s, mirrorAll_mirrorAll steps]

end

@[simp] theorem backwards_backwards (steps : List Shape) : backwards (backwards steps) = steps := by
  rw [backwards, backwards, mirrorAll_eq, List.map_reverse, List.reverse_reverse, ← mirrorAll_eq,
    mirrorAll_mirrorAll]

section limit
variable {limit : Option Nat}

theorem allFit_reverse (steps : List Shape) : AllFit limit steps.reverse ↔ AllFit limit steps := by
  induction steps with
  | nil => rfl
  | cons s steps ih =>
      rw [List.reverse_cons, allFit_append, ih, AllFit, AllFit, AllFit, and_true, and_comm]

mutual

theorem fits_mirror (s : Shape) : s.mirror.Fits limit ↔ s.Fits limit := by
  cases s with
  | hop => rfl
  | closure steps =>
      rw [mirror, Fits, Fits, allFit_reverse, allFit_mirrorAll steps]
      exact and_congr_left fun _ => by rw [← backwards, length_backwards]

theorem allFit_mirrorAll (steps : List Shape) :
    AllFit limit (mirrorAll steps) ↔ AllFit limit steps := by
  cases steps with
  | nil => rfl
  | cons s steps => rw [mirrorAll, AllFit, AllFit, fits_mirror s, allFit_mirrorAll steps]

end

/-- The reversed run is within the same limit. -/
theorem within_backwards {steps : List Shape} :
    Within limit (backwards steps) ↔ Within limit steps := by
  rw [Within, Within, length_backwards, backwards, allFit_reverse, allFit_mirrorAll]

end limit

end Shape

section runs
variable {α β γ : Type} {r : α → γ → γ → Prop} {r' : β → γ → γ → Prop} {f : α → β} {as : List α}

theorem runs_map (h : ∀ a ∈ as, r a = r' (f a)) : Runs r as = Runs r' (as.map f) := by
  induction as with
  | nil => rfl
  | cons a as ih =>
      obtain ⟨ha, has⟩ := List.forall_mem_cons.mp h
      rw [List.map_cons, Runs, Runs, ha, ih has]

theorem runs_reverse (h : ∀ a ∈ as, ∀ x y, r a x y → r' (f a) y x) {x y : γ}
    (hruns : Runs r as x y) :
    Runs r' (as.map f).reverse y x := by
  induction as generalizing x with
  | nil => exact Eq.symm hruns
  | cons a as ih =>
      obtain ⟨ha, has⟩ := List.forall_mem_cons.mp h
      obtain ⟨z, hstep, hrest⟩ := hruns
      rw [List.map_cons, List.reverse_cons, runs_append, runs_single]
      exact ⟨z, ih has hrest, ha x z hstep⟩

end runs

/-- The label stands for a letter: for a leaf, or for a closure by the automaton that it nests. -/
inductive Label.Denotes : Label → PathTree → Prop where
  | property (i : Instruction) : Denotes (.property i) (.property i.toPropertySet)
  | closure {kind : Closure} {item : PathTree} {a : Automaton}
      (h : (kind.nests item).automaton true = .ok a) :
      Denotes (.closure kind a) (.closure kind item)

theorem Label.Denotes.unique {l l' : Label} {t : PathTree} (h : l.Denotes t) (h' : l'.Denotes t) :
    l = l' := by
  cases h with
  | property i =>
      generalize hset : i.toPropertySet = set at h'
      have hi : Instruction.ofSet set = .ok i := Instruction.ofSet_eq_ok_iff.mpr hset
      cases h' with
      | property i' =>
          rw [Instruction.ofSet_eq_ok_iff.mpr rfl] at hi
          rw [Except.ok.inj hi]
  | closure ha =>
      cases h' with
      | closure ha' => rw [Except.ok.inj (ha.symm.trans ha')]

namespace PathTree

theorem crosses_mirror {G : Set Triple} (set : PropertySet) :
    Crosses G set.mirror.Takes = flip (Crosses G set.Takes) := by
  have htakes (s : Step) :
      set.mirror.Takes s ↔ if true then set.Takes s.reversed else set.Takes s := by
    rw [← takes_withInverse, PropertySet.mirror, Bool.xor_true]
  rw [crosses_turned true htakes, turned_true]

theorem denotes_markCases :
    MarkCases (fun k t m => ∀ letters, t.letterLabels k = .ok letters →
        List.Forall₂ (fun c d => c.1 = d.1 ∧ c.2.Denotes d.2) letters m.letters)
      fun k ts ms => ∀ letters, letterLabelsAll k ts = .ok letters →
        List.Forall₂ (fun c d => c.1 = d.1 ∧ c.2.Denotes d.2) letters (Marked.lettersAll ms) where
  property _ _ letters hletters := by
    obtain ⟨i, hi, hlist⟩ := bind_eq_ok_iff.mp hletters
    obtain rfl := pure_eq_ok_iff.mp hlist
    obtain rfl := Instruction.ofSet_eq_ok_iff.mp hi
    exact List.Forall₂.cons ⟨rfl, .property i⟩ List.Forall₂.nil
  closure _ _ _ letters hletters := by
    rw [letterLabels_closure] at hletters
    obtain ⟨a, ha, hlist⟩ := bind_eq_ok_iff.mp hletters
    obtain rfl := pure_eq_ok_iff.mp hlist
    exact List.Forall₂.cons ⟨rfl, .closure ha⟩ List.Forall₂.nil
  sequence _ _ _ _ h := h
  alternative _ _ _ _ h := h
  nil _ letters hletters := by
    cases hletters
    exact List.Forall₂.nil
  cons _ _ _ _ _ _ hfirst hrest letters hletters := by
    simp only [letterLabelsAll, bind_eq_ok_iff, pure_eq_ok_iff] at hletters
    obtain ⟨first, hletters, rest, hletters', rfl⟩ := hletters
    exact List.rel_append (hfirst first hletters) (hrest rest hletters')

theorem denotes_letterLabels {k : Nat} {t : PathTree} {m : Marked}
    {letters : List (StateName × Label)}
    (hm : t.mark k = .ok m) (hletters : t.letterLabels k = .ok letters) :
    List.Forall₂ (fun c d => c.1 = d.1 ∧ c.2.Denotes d.2) letters m.letters :=
  denotes_markCases.mark hm letters hletters

section words
variable {node : StateName → PathTree}

theorem map_letterWords {p : StateName} {t : PathTree} (h : node p = t) :
    Language.map node (LetterSets.letterWords p t.nullable) = t.alone := by
  subst h
  ext w
  constructor
  · rintro ⟨v, rfl | ⟨rfl, hnullable⟩, rfl⟩
    · exact Or.inl rfl
    · exact Or.inr ⟨rfl, hnullable⟩
  · rintro (rfl | ⟨rfl, hnullable⟩)
    · exact ⟨[p], Or.inl rfl, rfl⟩
    · exact ⟨[], Or.inr ⟨rfl, hnullable⟩, rfl⟩

theorem map_markCases (node : StateName → PathTree) :
    MarkCases (fun _ t m => (∀ c ∈ m.letters, node c.1 = c.2) →
      Language.map node m.language = t.letterWords)
      fun _ ts ms => (∀ c ∈ Marked.lettersAll ms, node c.1 = c.2) →
        Language.map node (Marked.languageOfSequence ms) = letterWordsOfSequence ts ∧
          Language.map node (Marked.languageOfAny ms) = letterWordsOfAny ts where
  property _ _ hnode := map_letterWords (hnode _ List.mem_cons_self)
  closure _ _ _ hnode := map_letterWords (hnode _ List.mem_cons_self)
  sequence _ _ _ _ h hnode := (h hnode).1
  alternative _ _ _ _ h hnode := (h hnode).2
  nil _ _ := ⟨map_one _, map_zero _⟩
  cons _ _ _ _ _ _ hfirst hrest hnode := by
    have hfirst := hfirst fun c hc => hnode c (List.mem_append_left _ hc)
    have hrest := hrest fun c hc => hnode c (List.mem_append_right _ hc)
    rw [Marked.languageOfSequence, Marked.languageOfAny, map_mul, map_add, hfirst, hrest.1, hrest.2]
    exact ⟨rfl, rfl⟩

/-- The words of a marked path are the words of the path, with positions in the place of its
letters. -/
theorem map_language {k : Nat} {t : PathTree} {m : Marked} (hm : t.mark k = .ok m)
    (hnode : ∀ c ∈ m.letters, node c.1 = c.2) : Language.map node m.language = t.letterWords :=
  (map_markCases node).mark hm hnode

theorem map_rootLanguage {t : PathTree} {m : Marked} (hm : t.body.mark 0 = .ok m)
    (hnode : ∀ c ∈ m.letters, node c.1 = c.2) :
    Language.map node (MarkedPath.language ⟨t.loop?, m⟩) = t.rootWords := by
  rw [MarkedPath.language, rootWords]
  cases t.loop? with
  | none => exact map_language hm hnode
  | some kind =>
      change Language.map node (kind.language m.language) = kind.language t.body.letterWords
      rw [kind.map_language, map_language hm hnode]

end words

section accepts
variable {G : Set Triple}

/-- A step passes a letter of a path, by the label that stands for the letter. -/
def passes (G : Set Triple) (leg : PathTree × Shape) (x y : Term) : Prop :=
  ∃ l : Label, l.Denotes leg.1 ∧ l.takes (joined G) leg.2 x y

/-- Every letter is passed with its label and by what the label stands for alike. -/
theorem passes_node {letters : List (StateName × Label)} {nodes : List (StateName × PathTree)}
    (h : List.Forall₂ (fun c d => c.1 = d.1 ∧ c.2.Denotes d.2) letters nodes)
    {node : StateName → PathTree}
    (hnode : ∀ c ∈ nodes, node c.1 = c.2) {leg : StateName × Shape}
    (hleg : leg.1 ∈ letters.map (·.1)) :
    MarkedPath.passes (joined G) letters leg = passes G (node leg.1, leg.2) := by
  have hdenotes : ∀ c ∈ letters, c.2.Denotes (node c.1) := by
    intro c hc
    obtain ⟨d, hd, hkey, hdenotes⟩ := exists_related_of_mem h hc
    rw [hkey, hnode d hd]
    exact hdenotes
  funext x y
  apply propext
  constructor
  · intro hpassed
    rcases hpassed with ⟨l, hl, htakes⟩
    exact ⟨l, hdenotes _ hl, htakes⟩
  · intro hpassed
    rcases hpassed with ⟨l, hl, htakes⟩
    obtain ⟨c, hc, hkey⟩ := List.mem_map.mp hleg
    obtain rfl : c.2 = l := (hdenotes c hc).unique (hkey ▸ hl)
    exact ⟨c.2, hkey ▸ hc, htakes⟩

theorem exists_legs {node : StateName → PathTree} {ps : List StateName}
    {legs : List (PathTree × Shape)}
    (h : ps.map node = legs.map (·.1)) : ∃ placed : List (StateName × Shape),
      placed.map (·.1) = ps ∧ placed.map (fun leg => (node leg.1, leg.2)) = legs := by
  induction legs generalizing ps with
  | nil => exact ⟨[], (List.map_eq_nil_iff.mp h).symm, rfl⟩
  | cons leg legs ih =>
      obtain ⟨p, ps, rfl, hp, hps⟩ := List.map_eq_cons_iff.mp h
      obtain ⟨placed, rfl, rfl⟩ := ih hps
      exact ⟨(p, leg.2) :: placed, rfl, by rw [List.map_cons, hp]⟩

/-- A run of the automaton of a path reads a word of the path and passes its letters one after the
other, or it has no step at all. -/
theorem accepts_automaton {t : PathTree} (h : t.Plain) {embedded : Bool} {a : Automaton}
    (ha : t.automaton embedded = .ok a) {steps : List Shape} {x y : Term} :
    a.accepts (joined G) steps x y ↔ (steps = [] ∧ (t.nullable && !embedded) = true ∧ x = y) ∨
      ∃ legs : List (PathTree × Shape), legs ≠ [] ∧ legs.map (·.1) ∈ t.rootWords ∧
        legs.map (·.2) = steps ∧ Runs (passes G) legs x y := by
  have hplain : t.body.Plain := by cases t <;> exact h
  obtain ⟨m, hm⟩ := exists_mark hplain 0
  obtain ⟨letters, hletters, hlabelled⟩ := exists_labelled hplain hm
  obtain rfl := Except.ok.inj ((automaton_of_labelled hm hletters hlabelled embedded).symm.trans ha)
  have hfits := fits_of_labelled hm hlabelled
  obtain ⟨node, hnode⟩ := exists_node (nodup_letters hm)
  let place (leg : StateName × Shape) : PathTree × Shape := (node leg.1, leg.2)
  have hruns {legs : List (StateName × Shape)}
      (hmem : legs.map (·.1) ∈ MarkedPath.language ⟨t.loop?, m⟩) :
      Runs (MarkedPath.passes (joined G) letters) legs = Runs (passes G) (legs.map place) := by
    apply runs_map
    intro leg hleg
    have hposition := hfits.describes.letters hmem leg.1 (List.mem_map.mpr ⟨leg, hleg, rfl⟩)
    exact passes_node (denotes_letterLabels hm hletters) hnode (hfits.keys ▸ hposition)
  rw [MarkedPath.accepts_layout hfits, nullable_markRoot hm]
  apply or_congr_right
  rw [← map_rootLanguage hm hnode]
  constructor
  · intro hword
    rcases hword with ⟨legs, hne, hmem, rfl, hrun⟩
    refine ⟨legs.map place, fun hnil => hne (List.map_eq_nil_iff.mp hnil), ⟨_, hmem, ?_⟩, ?_, ?_⟩
    · rw [List.map_map, List.map_map]
      rfl
    · rw [List.map_map]
      rfl
    · rw [← hruns hmem]
      exact hrun
  · intro hword
    rcases hword with ⟨legs, hne, ⟨ps, hps, hmap⟩, rfl, hrun⟩
    obtain ⟨legs, rfl, rfl⟩ := exists_legs hmap
    refine ⟨legs, fun hnil => hne (List.map_eq_nil_iff.mpr hnil), hps, ?_, ?_⟩
    · rw [List.map_map]
      rfl
    · rw [hruns hps]
      exact hrun

theorem nests_mirror (kind : Closure) (item : PathTree) :
    kind.nests item.mirror = (kind.nests item).mirror := by
  cases kind <;> rfl

theorem nests_plain (kind : Closure) {item : PathTree} (h : item.Plain) :
    (kind.nests item).Plain := by
  cases kind <;> exact h

/-- Every run of the automaton of the path can be run the other way round. -/
def Reversible (G : Set Triple) (embedded : Bool) (t : PathTree) : Prop :=
  ∀ a b, t.automaton embedded = .ok a → t.mirror.automaton embedded = .ok b →
    ∀ steps x y, a.accepts (joined G) steps x y → b.accepts (joined G) (Shape.backwards steps) y x

/-- A letter is passed the other way round as well, if it is no closure or what it nests is
reversible. -/
theorem passes_mirror {t : PathTree} (h : t.Plain)
    (hnests : ∀ kind item, t = .closure kind item → Reversible G true (kind.nests item))
    {s : Shape} {x y : Term} (hpasses : passes G (t, s) x y) :
    passes G (t.mirror, s.mirror) y x := by
  obtain ⟨l, hl, htakes⟩ := hpasses
  cases hl with
  | property i =>
      obtain ⟨rfl, hhop⟩ := htakes
      simp only [joined, List.mem_singleton, exists_eq_left, chainRelation,
        Relation.comp_eq] at hhop
      let back : Instruction := ⟨i.toPropertySet.mirror, i.nonempty⟩
      have hcrosses : Crosses G back.toPropertySet.Takes y x := by
        rw [crosses_mirror]
        exact hhop
      refine ⟨.property back, .property back, rfl, [back], List.mem_singleton_self _, ?_⟩
      rw [chainRelation, chainRelation, Relation.comp_eq]
      exact hcrosses
  | @closure kind item a ha =>
      obtain ⟨steps, rfl, haccepts⟩ := htakes
      have hitem : item.Plain := h
      obtain ⟨b, hb, _⟩ := automaton_realizes (plain_mirror (nests_plain kind hitem)) true
      refine ⟨.closure kind b, .closure (nests_mirror kind item ▸ hb),
        Shape.backwards steps, rfl, ?_⟩
      exact hnests kind item rfl a b ha hb steps x y haccepts

/-- The words of the mirror image are read backwards, so the letters of a run are passed in reverse
order. -/
theorem reversible_of_letters {t : PathTree} (h : t.Plain) (embedded : Bool)
    (hletters : ∀ w ∈ t.rootWords,
      ∀ u ∈ w, ∀ s x y, passes G (u, s) x y → passes G (u.mirror, s.mirror) y x) :
    Reversible G embedded t := by
  intro a b ha hb steps x y haccepts
  rw [accepts_automaton (plain_mirror h) hb, nullable_mirror, rootWords_mirror]
  rcases (accepts_automaton h ha).mp haccepts with ⟨rfl, hfinal, rfl⟩ |
    ⟨legs, hne, hmem, rfl, hruns⟩
  · exact Or.inl ⟨rfl, hfinal, rfl⟩
  · let turn (leg : PathTree × Shape) : PathTree × Shape := (leg.1.mirror, leg.2.mirror)
    have hback : Runs (passes G) (legs.map turn).reverse y x := by
      apply runs_reverse _ hruns
      intro leg hleg
      exact hletters _ hmem leg.1 (List.mem_map.mpr ⟨leg, hleg, rfl⟩) leg.2
    refine Or.inr ⟨(legs.map turn).reverse, ?_, ⟨legs.map (·.1), hmem, ?_⟩, ?_, hback⟩
    · simpa using hne
    · simp [turn]
    · simp [turn, Shape.backwards, Shape.mirrorAll_eq]

/-- By induction on how deep closures are nested. -/
theorem reversible {t : PathTree} (h : t.Plain) (embedded : Bool) : Reversible G embedded t := by
  induction hdepth : t.body.closureDepth using Nat.strong_induction_on generalizing t embedded with
  | _ n ih =>
      apply reversible_of_letters h
      intro w hw u hu s x y
      obtain ⟨hplain, hle⟩ := letters_rootWords h w hw u hu
      apply passes_mirror hplain
      rintro kind item rfl
      have hitem : item.Plain := hplain
      have hlt : (kind.nests item).body.closureDepth < n :=
        calc (kind.nests item).body.closureDepth ≤ item.closureDepth :=
          closureDepth_body_nests kind item
          _ < (closure kind item).closureDepth := Nat.lt_succ_self _
          _ ≤ n := hdepth ▸ hle
      exact ih _ hlt (nests_plain kind hitem) true rfl

/-- The automata of a path and of its mirror image have the same accepting runs, in opposite
directions. -/
theorem accepts_mirror {t : PathTree} (h : t.Plain) {embedded : Bool} {a b : Automaton}
    (ha : t.automaton embedded = .ok a)
    (hb : t.mirror.automaton embedded = .ok b) {steps : List Shape}
    {x y : Term} :
    a.accepts (joined G) steps x y ↔ b.accepts (joined G) (Shape.backwards steps) y x := by
  constructor
  · exact reversible h embedded a b ha hb steps x y
  · intro hback
    have ha' : t.mirror.mirror.automaton embedded = .ok a := by rw [mirror_mirror, ha]
    have hforth := reversible (plain_mirror h) embedded b a hb ha' _ y x hback
    rwa [Shape.backwards_backwards] at hforth

end accepts

end PathTree

end PropertyPath
