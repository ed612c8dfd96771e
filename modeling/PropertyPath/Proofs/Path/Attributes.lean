import PropertyPath.Proofs.Automaton.Position
import PropertyPath.Proofs.Path.Factors

/-!
# What the attributes of a node mean

A node that is not below a closure reads words over positions, and its attributes are the facts
about these words that its sets are named after. The words are defined on the tree, where a closure
reads its own position or, when the empty walk matches it, nothing.
-/
namespace PropertyPath
open scoped Computability

namespace PathTree

mutual

/-- The words over positions that a tree reads which stands behind `k` nodes. -/
def words (k : Nat) : PathTree → Language StateName
  | .property set => {[(rootId k (.property set)).position]}
  | .inverse _ => 0
  | .negation _ => 0
  | .closure kind item =>
      {w | w = [(rootId k (.closure kind item)).position] ∨
        (w = [] ∧ [] ∈ walks (.closure kind item))}
  | .sequence items => wordsOfSequence k items
  | .alternative items => wordsOfAny k items

def wordsOfSequence (k : Nat) : List PathTree → Language StateName
  | [] => 1
  | t :: ts => words k t * wordsOfSequence (k + t.size) ts

def wordsOfAny (k : Nat) : List PathTree → Language StateName
  | [] => 0
  | t :: ts => words k t + wordsOfAny (k + t.size) ts

end

/-- The words of a whole tree: a closure at the root repeats those of its operand. -/
def wholeWords (t : PathTree) : Language StateName :=
  match t.loop? with
  | none => t.body.words 0
  | some kind => kind.language (t.body.words 0)

mutual

/-- The nodes that are not below a closure, each with the number of nodes that its subtree stands
behind. -/
def visited (k : Nat) : PathTree → List (Nat × PathTree)
  | .property set => [(k, .property set)]
  | .inverse item => [(k, .inverse item)]
  | .negation items => [(k, .negation items)]
  | .closure kind item => [(k, .closure kind item)]
  | .sequence items => visitedAll k items ++ [(k, .sequence items)]
  | .alternative items => visitedAll k items ++ [(k, .alternative items)]

def visitedAll (k : Nat) : List PathTree → List (Nat × PathTree)
  | [] => []
  | t :: ts => visited k t ++ visitedAll (k + t.size) ts

end

/-- The node is read as one letter. -/
def isLetter : PathTree → Bool
  | .property _ => true
  | .closure _ _ => true
  | .inverse _ => false
  | .negation _ => false
  | .sequence _ => false
  | .alternative _ => false

/-- The positions of the letters among some nodes. -/
def letterPositions (nodes : List (Nat × PathTree)) : List StateName :=
  (nodes.filter fun c => c.2.isLetter).map fun c => (rootId c.1 c.2).position

end PathTree

/-- The attributes are those of the words of a language. -/
structure NodeAttributes.AreOf (n : NodeAttributes) (L : Language StateName) : Prop where
  nullable : n.nullable = true ↔ [] ∈ L
  first : ∀ p, p ∈ n.first ↔ Begins L p
  last : ∀ p, p ∈ n.last ↔ Finishes L p

namespace PathTree

theorem letterWords_closure (k : Nat) (kind : Closure) (item : PathTree) :
    LetterSets.letterWords (k + item.size + 1) (closure kind item).nullable =
      words k (.closure kind item) := by
  ext w
  rw [LetterSets.mem_letterWords, ← nil_mem_walks]
  rfl

theorem letterWords_property (k : Nat) (set : PropertySet) :
    LetterSets.letterWords (k + 1) (property set).nullable = words k (.property set) := by
  ext w
  exact or_iff_left fun hnull => Bool.noConfusion hnull.2

theorem language_markCases : MarkCases (fun k t m => m.language = t.words k)
    fun k ts ms => Marked.languageOfSequence ms = wordsOfSequence k ts ∧
      Marked.languageOfAny ms = wordsOfAny k ts where
  property := letterWords_property
  closure := letterWords_closure
  sequence _ _ _ _ h := h.1
  alternative _ _ _ _ h := h.2
  nil _ := ⟨rfl, rfl⟩
  cons _ _ _ _ _ _ hfirst hrest := by
    rw [Marked.languageOfSequence, Marked.languageOfAny, hfirst, hrest.1, hrest.2]
    exact ⟨rfl, rfl⟩

/-- The words of a marked path are those of the tree. -/
theorem language_mark {k : Nat} {t : PathTree} {m : Marked} (h : t.mark k = .ok m) :
    m.language = t.words k :=
  language_markCases.mark h

theorem positions_markCases : MarkCases (fun k t m => m.positions = letterPositions (t.visited k))
    fun k ts ms => Marked.positionsAll ms = letterPositions (visitedAll k ts) where
  property _ _ := rfl
  closure _ _ _ := rfl
  sequence _ _ _ _ h := by simpa [Marked.positions, visited, letterPositions, isLetter] using h
  alternative _ _ _ _ h := by simpa [Marked.positions, visited, letterPositions, isLetter] using h
  nil _ := rfl
  cons _ _ _ _ _ _ hfirst hrest := by
    rw [Marked.positionsAll, hfirst, hrest]
    simp [visitedAll, letterPositions]

theorem positions_mark {k : Nat} {t : PathTree} {m : Marked} (h : t.mark k = .ok m) :
    m.positions = letterPositions (t.visited k) := positions_markCases.mark h

theorem nodes_markCases :
    MarkCases (fun _ t m => ∃ inner, m.nodes = inner ++ [some m] ∧ inner.length = t.before)
      fun _ ts ms => (Marked.nodesAll ms).length = sizeAll ts where
  property _ _ := ⟨[], rfl, rfl⟩
  closure _ _ _ := ⟨_, rfl, List.length_replicate⟩
  sequence _ _ ms _ h := ⟨Marked.nodesAll ms, rfl, h⟩
  alternative _ _ ms _ h := ⟨Marked.nodesAll ms, rfl, h⟩
  nil _ := rfl
  cons _ _ _ _ _ _ hfirst hrest := by
    obtain ⟨inner, hnodes, hlength⟩ := hfirst
    rw [Marked.nodesAll, hnodes, List.length_append, List.length_append, hlength, hrest, sizeAll,
      List.length_singleton]

/-- A marked path is the last of its own nodes. -/
theorem nodes_mark {k : Nat} {t : PathTree} {m : Marked} (h : t.mark k = .ok m) :
    ∃ inner, m.nodes = inner ++ [some m] ∧ inner.length = t.before := nodes_markCases.mark h

theorem length_nodes {k : Nat} {t : PathTree} {m : Marked} (h : t.mark k = .ok m) :
    m.nodes.length = t.size := by
  obtain ⟨inner, hnodes, hlength⟩ := nodes_mark h
  rw [hnodes, List.length_append, hlength]
  rfl

/-- The node is marked within a marked path which stands behind `k` nodes, and it is the one with
its number there. -/
structure MarkedWithin (k : Nat) (nodes : List (Option Marked))
    (positions : List StateName) (c : Nat × PathTree)
    (m : Marked) : Prop where
  formed : c.2.Formed
  mark : c.2.mark c.1 = .ok m
  index : ∃ i, c.1 + c.2.before = k + i ∧ nodes[i]? = some (some m)
  positions : m.positions ⊆ positions

section markedWithin
variable {k : Nat} {nodes nodes' : List (Option Marked)} {ps ps' : List StateName}
  {c : Nat × PathTree} {m : Marked}

theorem MarkedWithin.left (h : MarkedWithin k nodes ps c m) (nodes' : List (Option Marked))
    (ps' : List StateName) :
    MarkedWithin k (nodes ++ nodes') (ps ++ ps') c m := by
  obtain ⟨hformed, hmark, ⟨i, hi, hnode⟩, hpositions⟩ := h
  refine ⟨hformed, hmark, ⟨i, hi, ?_⟩, List.subset_append_of_subset_left ps' hpositions⟩
  rw [List.getElem?_append_left (List.getElem?_eq_some_iff.mp hnode).choose]
  exact hnode

theorem MarkedWithin.right (h : MarkedWithin (k + nodes.length) nodes' ps' c m) :
    MarkedWithin k (nodes ++ nodes') (ps ++ ps') c m := by
  obtain ⟨hformed, hmark, ⟨i, hi, hnode⟩, hpositions⟩ := h
  refine ⟨hformed, hmark, ⟨nodes.length + i, by omega, ?_⟩,
    List.subset_append_of_subset_right ps hpositions⟩
  rw [List.getElem?_append_right (Nat.le_add_right _ i), Nat.add_sub_cancel_left]
  exact hnode

end markedWithin

theorem markedWithin_self {k : Nat} {t : PathTree} {m : Marked} (hformed : t.Formed)
    (h : t.mark k = .ok m) :
    MarkedWithin k m.nodes m.positions (k, t) m := by
  obtain ⟨inner, hnodes, hlength⟩ := nodes_mark h
  refine ⟨hformed, h, ⟨inner.length, by rw [hlength], ?_⟩, List.Subset.refl _⟩
  rw [hnodes, List.getElem?_concat_length]

theorem visited_markCases :
    MarkCases (fun k t m => t.Formed →
      ∀ c ∈ t.visited k, ∃ m', MarkedWithin k m.nodes m.positions c m')
      fun k ts ms => (∀ t ∈ ts, t.Formed) → ∀ c ∈ visitedAll k ts,
        ∃ m', MarkedWithin k (Marked.nodesAll ms) (Marked.positionsAll ms) c m' where
  property _ _ hformed _ hc := by
    obtain rfl := List.mem_singleton.mp hc
    exact ⟨_, markedWithin_self hformed rfl⟩
  closure _ _ _ hformed _ hc := by
    obtain rfl := List.mem_singleton.mp hc
    exact ⟨_, markedWithin_self hformed rfl⟩
  sequence k items ms hms h hformed c hc := by
    rcases List.mem_append.mp hc with hc | hc
    · obtain ⟨m', hm'⟩ := h (throughout_sequence.mp hformed).1 c hc
      exact ⟨m', by simpa [Marked.nodes, Marked.positions] using hm'.left _ []⟩
    · obtain rfl := List.mem_singleton.mp hc
      exact ⟨.sequence ms, markedWithin_self hformed (bind_eq_ok_iff.mpr ⟨ms, hms, rfl⟩)⟩
  alternative k items ms hms h hformed c hc := by
    rcases List.mem_append.mp hc with hc | hc
    · obtain ⟨m', hm'⟩ := h (throughout_alternative.mp hformed).1 c hc
      exact ⟨m', by simpa [Marked.nodes, Marked.positions] using hm'.left _ []⟩
    · obtain rfl := List.mem_singleton.mp hc
      exact ⟨.alternative ms, markedWithin_self hformed (bind_eq_ok_iff.mpr ⟨ms, hms, rfl⟩)⟩
  nil _ _ _ hc := absurd hc List.not_mem_nil
  cons _ _ _ _ _ hm hfirst hrest hformed c hc := by
    obtain ⟨hformed, hformed'⟩ := List.forall_mem_cons.mp hformed
    rcases List.mem_append.mp hc with hc | hc
    · obtain ⟨m', hm'⟩ := hfirst hformed c hc
      exact ⟨m', hm'.left _ _⟩
    · obtain ⟨m', hm'⟩ := hrest hformed' c hc
      rw [← length_nodes hm] at hm'
      exact ⟨m', hm'.right⟩

theorem mem_visited_self (k : Nat) (t : PathTree) : (k, t) ∈ t.visited k := by
  cases t <;> simp [visited]

theorem formed_body {t : PathTree} (h : t.Formed) : t.body.Formed := by
  cases t with
  | closure kind item => exact (throughout_closure.mp h).1
  | _ => exact h

theorem markRoot_eq_ok_iff {t : PathTree} {m : MarkedPath} :
    t.markRoot = .ok m ↔ m.loop = t.loop? ∧ t.body.mark 0 = .ok m.body := by
  rw [markRoot, bind_eq_ok_iff]
  constructor
  · rintro ⟨body, hbody, heq⟩
    cases heq
    exact ⟨rfl, hbody⟩
  · rintro ⟨hloop, hbody⟩
    exact ⟨m.body, hbody, by rw [← hloop]; rfl⟩

end PathTree

namespace MarkedPath

theorem exact_sets {m : MarkedPath} (h : m.body.sets.Exact m.body.language) :
    m.sets.Exact m.language := by
  obtain ⟨loop, body⟩ := m
  cases loop with
  | none => exact sets_none body ▸ h
  | some kind => exact h.loop kind

end MarkedPath

namespace PathTree
variable {t : PathTree} {m : MarkedPath}

/-- The sets of a whole path are exact, and the path reads some letter. -/
theorem exact_markRoot (hformed : t.Formed) (h : t.markRoot = .ok m) :
    m.sets.Exact t.wholeWords ∧ ∃ w ∈ t.wholeWords, w ≠ [] := by
  obtain ⟨hloop, hbody⟩ := markRoot_eq_ok_iff.mp h
  obtain ⟨hexact, w, hw, hne⟩ := exact_mark (formed_body hformed) hbody
  have hwords : t.wholeWords = m.language := by
    cases hkind : t.loop? <;> simp only [wholeWords, MarkedPath.language, hloop,
      hkind, language_mark hbody]
  rw [hwords]
  refine ⟨MarkedPath.exact_sets hexact, w, ?_, hne⟩
  rw [MarkedPath.language]
  cases m.loop with
  | none => exact hw
  | some kind =>
      cases kind with
      | zeroOrMore => exact (le_kstar : m.body.language ≤ (m.body.language)∗) hw
      | oneOrMore => exact ⟨w, hw, [], Language.nil_mem_kstar _, List.append_nil w⟩
      | zeroOrOne => exact Or.inr hw

end PathTree

namespace NodeAttributes
variable {positions : List StateName}

@[simp] theorem mem_among {set : List StateName} {p : StateName} :
    p ∈ among positions set ↔ p ∈ positions ∧ p ∈ set := by
  simp [among]

/-- Sets over some of the positions are listed in full. -/
theorem areOf_of_exact {A : LetterSets} {L : Language StateName} (h : A.Exact L)
    (hsub : A.positions ⊆ positions)
    (follow : List StateName) :
    AreOf ⟨A.nullable, among positions A.first, among positions A.last, follow⟩ L where
  nullable := h.nil
  first p := by
    rw [mem_among, ← h.first, and_iff_right_iff_imp, h.first]
    rintro ⟨v, hv⟩
    exact hsub ((h.positions p).mpr ⟨_, hv, List.mem_cons_self⟩)
  last p := by
    rw [mem_among, ← h.last, and_iff_right_iff_imp, h.last]
    rintro ⟨u, hu⟩
    exact hsub ((h.positions p).mpr ⟨_, hu, List.mem_append_right _ (List.mem_singleton_self p)⟩)

end NodeAttributes

namespace PathTree
variable {t : PathTree} {m : MarkedPath}

/-- The attributes of a node below the root are found under its number. -/
theorem exists_attributes (hformed : t.Formed) (h : t.markRoot = .ok m) {c : Nat × PathTree}
    (hc : c ∈ t.body.visited 0) : ∃ m', c.2.mark c.1 = .ok m' ∧
      m.attributes[(rootId c.1 c.2).index]? = some (.ofNode m.positions m.follow m') ∧
        (NodeAttributes.ofNode m.positions m.follow m').AreOf (c.2.words c.1) := by
  obtain ⟨_, hbody⟩ := markRoot_eq_ok_iff.mp h
  obtain ⟨m', hwithin⟩ := visited_markCases.mark hbody (formed_body hformed) c hc
  obtain ⟨i, hi, hnode⟩ := hwithin.index
  have hindex : (rootId c.1 c.2).index = i := by rw [rootId, hi, Nat.zero_add]
  refine ⟨m', hwithin.mark, ?_, ?_⟩
  · have hlt : i < m.body.nodes.length := (List.getElem?_eq_some_iff.mp hnode).choose
    rw [hindex, MarkedPath.attributes, List.getElem?_append_left (by simpa using hlt),
      List.getElem?_map, hnode]
    rfl
  · rw [← language_mark hwithin.mark]
    exact NodeAttributes.areOf_of_exact
      (exact_mark hwithin.formed hwithin.mark).1 hwithin.positions _

/-- The attributes of the root are those of the words of the whole tree. -/
theorem exists_attributes_root (hformed : t.Formed) (h : t.markRoot = .ok m) :
    ∃ n, m.attributes[(rootId 0 t).index]? = some n ∧ n.AreOf t.wholeWords := by
  obtain ⟨hloop, hbody⟩ := markRoot_eq_ok_iff.mp h
  cases t with
  | closure kind item =>
      refine ⟨.ofLoop m, ?_, ?_⟩
      · have hlength : (rootId 0 (.closure kind item)).index = m.body.nodes.length := by
          rw [length_nodes hbody, rootId, Nat.zero_add]
          rfl
        rw [hlength, MarkedPath.attributes, List.getElem?_append_right (by simp), hloop]
        simp [loop?]
      · exact NodeAttributes.areOf_of_exact (exact_markRoot hformed h).1 (List.Subset.refl _) _
  | _ =>
      obtain ⟨_, _, hattributes, hwords⟩ := exists_attributes hformed h (mem_visited_self 0 _)
      exact ⟨_, hattributes, hwords⟩

/-- The followers of a letter are those that come right after it in a word of the whole tree. -/
theorem exists_followers (hformed : t.Formed) (h : t.markRoot = .ok m) {id : NodeId}
    (hid : id.position ∈ m.positions) :
    ∃ n, m.attributes[id.index]? = some n ∧
    ∀ q, q ∈ n.follow ↔ Neighbours t.wholeWords id.position q := by
  obtain ⟨_, hbody⟩ := markRoot_eq_ok_iff.mp h
  obtain ⟨hexact, _⟩ := exact_markRoot hformed h
  rw [MarkedPath.positions, positions_mark hbody, letterPositions] at hid
  obtain ⟨c, hc, hposition⟩ := List.mem_map.mp hid
  obtain ⟨hc, hletter⟩ := List.mem_filter.mp hc
  obtain ⟨m', hmark, hattributes, _⟩ := exists_attributes hformed h hc
  have hsame : rootId c.1 c.2 = id := by
    cases id
    simpa [rootId, NodeId.position] using hposition
  rw [hsame] at hattributes
  refine ⟨_, hattributes, fun q => ?_⟩
  have hfollow : (NodeAttributes.ofNode m.positions m.follow m').follow =
      NodeAttributes.among m.positions (Marked.successors m.follow id.position) := by
    rw [← hsame]
    obtain ⟨k, u⟩ := c
    cases u with
    | property set =>
        cases hmark
        rfl
    | closure kind item =>
        cases hmark
        rfl
    | _ => cases hletter
  rw [hfollow, NodeAttributes.mem_among, Marked.mem_successors, ← hexact.follow]
  refine and_iff_right_of_imp fun hpq => (hexact.positions q).mpr ?_
  obtain ⟨u, v, hword⟩ := (hexact.follow id.position q).mp hpq
  exact ⟨_, hword, by simp⟩

/-- The attributes of a tree without inverses and negations can be computed. Those of each node that
is not below a closure, and those of the root, are those of the words that it reads; a letter has as
its followers what comes right after it in a word of the whole tree; and the positions are those of
the leaves and the closures below the root that are not below another closure, in ascending
order. -/
theorem attributes_of_words (hformed : t.Formed) (hinverse : t.containsOperator .inverse = false)
    (hnegation : t.containsOperator .negation = false) : ∃ m, t.markRoot = .ok m ∧
      (∀ c ∈ t.body.visited 0,
        ∃ n, m.attributes[(rootId c.1 c.2).index]? = some n ∧ n.AreOf (c.2.words c.1)) ∧
      (∃ n, m.attributes[(rootId 0 t).index]? = some n ∧ n.AreOf t.wholeWords) ∧
      (∀ id : NodeId, id.position ∈ m.positions →
        ∃ n, m.attributes[id.index]? = some n ∧
        ∀ q, q ∈ n.follow ↔ Neighbours t.wholeWords id.position q) ∧
      m.positions = letterPositions (t.body.visited 0) ∧ m.positions.Pairwise (· < ·) := by
  have hplain : t.Plain := plain_of_formed hformed (straight_of_contains hinverse hnegation)
  obtain ⟨body, hmark⟩ := exists_mark (plain_body.mpr hplain) 0
  have h : t.markRoot = .ok ⟨t.loop?, body⟩ := markRoot_eq_ok_iff.mpr ⟨rfl, hmark⟩
  refine ⟨_, h, fun c hc => ?_, exists_attributes_root hformed h, fun id =>
    exists_followers hformed h,
    positions_mark hmark, (between_mark hmark).ascending⟩
  obtain ⟨_, _, hattributes, hwords⟩ := exists_attributes hformed h hc
  exact ⟨_, hattributes, hwords⟩

/-- The tree `(p+ | q?/r)*`: the closure of `q` may be left out, so that `r` comes first and may
follow every last letter, but only `r` follows the closure. -/
theorem attributes_of_words_optional_item :
    let p : PathTree := .property (.forward ⟨"p"⟩)
    let q : PathTree := .property (.backward ⟨"q"⟩)
    let r : PathTree := .property (.forward ⟨"r"⟩)
    let t : PathTree := .closure .zeroOrMore
      (.alternative [.closure .oneOrMore p, .sequence [.closure .zeroOrOne q, r]])
    let b : TreeBuilder := ⟨t.listing 0⟩
    b.finish ⟨7⟩ = .ok t ∧ ∃ m, t.markRoot = .ok m ∧ m.positions = [2, 4, 5] ∧
      (∀ s, s ∈ [2, 4, 5] ↔ Begins t.wholeWords s) ∧ (∀ s, s ∈ [2, 5] ↔ Finishes t.wholeWords s) ∧
      (∀ s, s ∈ [5] ↔ Neighbours t.wholeWords 4 s) ∧
      ∀ s, s ∈ [2, 4, 5] ↔ Neighbours t.wholeWords 5 s := by
  intro p q r t b
  have hfinish : b.finish ⟨7⟩ = .ok t := TreeBuilder.finish_eq_ok_iff.mpr ⟨by cbv, by decide⟩
  obtain ⟨m, hm, _, ⟨n, hn, hroot⟩, hfollow, hpositions, _⟩ :=
    attributes_of_words (formed_of_finish hfinish) (by decide) (by decide)
  cases hm.symm.trans
    (rfl : t.markRoot = .ok ⟨some .zeroOrMore, .alternative [.letter 2 (.closure .oneOrMore p),
    .sequence [.letter 4 (.closure .zeroOrOne q), .letter 5 r]]⟩)
  obtain ⟨n₄, hn₄, hfollow₄⟩ := hfollow ⟨3⟩ (by decide)
  obtain ⟨n₅, hn₅, hfollow₅⟩ := hfollow ⟨4⟩ (by decide)
  cases hn.symm.trans (by decide +kernel : _ = some ⟨true, [2, 4, 5], [2, 5], []⟩)
  cases hn₄.symm.trans (by decide +kernel : _ = some ⟨true, [4], [4], [5]⟩)
  cases hn₅.symm.trans (by decide +kernel : _ = some ⟨false, [5], [5], [2, 4, 5]⟩)
  exact ⟨hfinish, _, hm, rfl, hroot.first, hroot.last, hfollow₄, hfollow₅⟩

end PathTree

end PropertyPath
