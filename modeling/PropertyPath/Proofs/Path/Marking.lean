import PropertyPath.Proofs.Path.Plain
import PropertyPath.Proofs.Path.Words

/-!
# What the words of a marked path stand for

A marked path reads words of letters, and a walk matches the path when it is put together from what
the letters of a word match. A letter is passed with at least one step; that it may also be left out
is said by the words.
-/
namespace PropertyPath
open scoped Computability

/-- The walks of a language that have at least one step. -/
def properWalks (L : Language Step) : Language Step := {w | w ∈ L ∧ w ≠ []}

theorem mem_properWalks {L : Language Step} {w : List Step} :
    w ∈ properWalks L ↔ w ∈ L ∧ w ≠ [] := Iff.rfl

/-- The walks that match the letters of a word, one after the other. -/
def spell (K : StateName → Language Step) (ps : List StateName) : Language Step := (ps.map K).prod

/-- The walks that spell a word of the language. -/
def substitute (K : StateName → Language Step) (L : Language StateName) : Language Step :=
  {w | ∃ ps ∈ L, w ∈ spell K ps}

section substitute
variable {K : StateName → Language Step} {L M : Language StateName}

theorem mem_substitute {w : List Step} : w ∈ substitute K L ↔ ∃ ps ∈ L, w ∈ spell K ps := Iff.rfl

@[simp] theorem spell_nil : spell K [] = 1 := rfl

@[simp] theorem spell_cons (p : StateName) (ps : List StateName) :
    spell K (p :: ps) = K p * spell K ps := List.prod_cons

theorem spell_append (ps qs : List StateName) : spell K (ps ++ qs) = spell K ps * spell K qs := by
  rw [spell, List.map_append, List.prod_append, spell, spell]

theorem substitute_zero : substitute K 0 = 0 := by
  ext w
  simp [mem_substitute]

theorem substitute_one : substitute K 1 = 1 := by
  ext w
  simp [mem_substitute]

theorem substitute_add : substitute K (L + M) = substitute K L + substitute K M := by
  ext w
  rw [Language.mem_add]
  constructor
  · intro h
    rcases h with ⟨ps, hps | hps, hw⟩
    · exact Or.inl ⟨ps, hps, hw⟩
    · exact Or.inr ⟨ps, hps, hw⟩
  · intro h
    rcases h with ⟨ps, hps, hw⟩ | ⟨ps, hps, hw⟩
    · exact ⟨ps, Or.inl hps, hw⟩
    · exact ⟨ps, Or.inr hps, hw⟩

theorem substitute_mul : substitute K (L * M) = substitute K L * substitute K M := by
  ext w
  constructor
  · intro h
    rcases h with ⟨_, ⟨ps, hps, qs, hqs, rfl⟩, hw⟩
    change w ∈ spell K (ps ++ qs) at hw
    rw [spell_append] at hw
    obtain ⟨u, hu, v, hv, rfl⟩ := hw
    exact ⟨u, ⟨ps, hps, hu⟩, v, ⟨qs, hqs, hv⟩, rfl⟩
  · intro h
    rcases h with ⟨u, ⟨ps, hps, hu⟩, v, ⟨qs, hqs, hv⟩, rfl⟩
    refine ⟨ps ++ qs, Language.append_mem_mul hps hqs, ?_⟩
    rw [spell_append]
    exact Language.append_mem_mul hu hv

theorem substitute_kstar : substitute K L∗ = (substitute K L)∗ := by
  have hpow (n : ℕ) : substitute K (L ^ n) = substitute K L ^ n := by
    induction n with
    | zero => exact substitute_one
    | succ n ih => rw [pow_succ, pow_succ, substitute_mul, ih]
  ext w
  rw [Language.kstar_eq_iSup_pow, Language.kstar_eq_iSup_pow, Language.mem_iSup]
  constructor
  · intro h
    rcases h with ⟨ps, hps, hw⟩
    obtain ⟨n, hn⟩ := Language.mem_iSup.mp hps
    exact ⟨n, hpow n ▸ ⟨ps, hn, hw⟩⟩
  · intro h
    rcases h with ⟨n, hw⟩
    rw [← hpow] at hw
    obtain ⟨ps, hps, hw⟩ := hw
    exact ⟨ps, Language.mem_iSup.mpr ⟨n, hps⟩, hw⟩

theorem substitute_closure (kind : Closure) :
    substitute K (kind.language L) = kind.language (substitute K L) := by
  cases kind with
  | zeroOrMore => exact substitute_kstar
  | oneOrMore => exact substitute_mul.trans (congrArg _ substitute_kstar)
  | zeroOrOne => exact substitute_add.trans (congrArg (· + _) substitute_one)

end substitute

mutual

/-- The empty walk matches exactly the nullable trees. -/
theorem PathTree.nil_mem_walks (t : PathTree) : [] ∈ t.walks ↔ t.nullable = true := by
  cases t with
  | property set => simp [PathTree.walks, PathTree.nullable, mem_single]
  | inverse item =>
      rw [PathTree.nullable, ← PathTree.nil_mem_walks item]
      rfl
  | negation items => simp [PathTree.walks, PathTree.nullable, mem_single]
  | closure kind item =>
      rw [PathTree.walks, PathTree.nullable, Closure.nil_mem_language, PathTree.nil_mem_walks item,
        Bool.or_eq_true]
  | sequence items => rw [PathTree.walks, PathTree.nullable, PathTree.nil_mem_walksOfSequence items]
  | alternative items => rw [PathTree.walks, PathTree.nullable, PathTree.nil_mem_walksOfAny items]

theorem PathTree.nil_mem_walksOfSequence (ts : List PathTree) :
    [] ∈ PathTree.walksOfSequence ts ↔ PathTree.allNullable ts = true := by
  cases ts with
  | nil => simp [PathTree.walksOfSequence, PathTree.allNullable]
  | cons t ts =>
      rw [PathTree.walksOfSequence, PathTree.allNullable, Bool.and_eq_true, Language.mem_mul,
        ← PathTree.nil_mem_walks t, ← PathTree.nil_mem_walksOfSequence ts]
      simp

theorem PathTree.nil_mem_walksOfAny (ts : List PathTree) :
    [] ∈ PathTree.walksOfAny ts ↔ PathTree.anyNullable ts = true := by
  cases ts with
  | nil => simp [PathTree.walksOfAny, PathTree.anyNullable]
  | cons t ts =>
      rw [PathTree.walksOfAny, PathTree.anyNullable, Bool.or_eq_true, Language.mem_add,
        ← PathTree.nil_mem_walks t, ← PathTree.nil_mem_walksOfAny ts]

end

namespace Marked

mutual

/-- The words of letters that a marked path reads. -/
def language : Marked → Language StateName
  | .letter position node => LetterSets.letterWords position node.nullable
  | .sequence items => languageOfSequence items
  | .alternative items => languageOfAny items

def languageOfSequence : List Marked → Language StateName
  | [] => 1
  | m :: ms => language m * languageOfSequence ms

def languageOfAny : List Marked → Language StateName
  | [] => 0
  | m :: ms => language m + languageOfAny ms

end

def sets (m : Marked) : LetterSets := ⟨m.positions, m.nullable, m.first, m.last, m.follow⟩

def setsOfSequence (ms : List Marked) : LetterSets :=
  ⟨positionsAll ms, allNullable ms, firstOfSequence ms, lastOfSequence ms, followOfSequence ms⟩

def setsOfAny (ms : List Marked) : LetterSets :=
  ⟨positionsAll ms, anyNullable ms, firstOfAny ms, lastOfAny ms, followOfAny ms⟩

mutual

/-- Different letters at different positions are told apart by the sets of a path. -/
theorem describes {m : Marked} (h : m.positions.Nodup) : m.sets.Describes m.language := by
  cases m with
  | letter position node => exact LetterSets.describes_letter position node.nullable
  | sequence items => exact describes_sequence h
  | alternative items => exact describes_any h

theorem describes_sequence {ms : List Marked} (h : (positionsAll ms).Nodup) :
    (setsOfSequence ms).Describes (languageOfSequence ms) := by
  cases ms with
  | nil => exact LetterSets.describes_empty
  | cons m ms =>
      rw [positionsAll, List.nodup_append'] at h
      exact (describes h.1).append (describes_sequence h.2.1) fun p hp hp' => h.2.2 hp hp'

theorem describes_any {ms : List Marked} (h : (positionsAll ms).Nodup) :
    (setsOfAny ms).Describes (languageOfAny ms) := by
  cases ms with
  | nil => exact LetterSets.describes_none
  | cons m ms =>
      rw [positionsAll, List.nodup_append'] at h
      exact (describes h.1).union (describes_any h.2.1) fun p hp hp' => h.2.2 hp hp'

end

mutual

/-- The letters of a marked path with the nodes that they stand for. -/
def letters : Marked → List (StateName × PathTree)
  | .letter position node => [(position, node)]
  | .sequence items => lettersAll items
  | .alternative items => lettersAll items

def lettersAll : List Marked → List (StateName × PathTree)
  | [] => []
  | m :: ms => letters m ++ lettersAll ms

end

mutual

theorem positions_eq (m : Marked) : m.positions = m.letters.map (·.1) := by
  cases m with
  | letter position node => rfl
  | sequence items => exact positionsAll_eq items
  | alternative items => exact positionsAll_eq items

theorem positionsAll_eq (ms : List Marked) : positionsAll ms = (lettersAll ms).map (·.1) := by
  cases ms with
  | nil => rfl
  | cons m ms =>
      rw [positionsAll, lettersAll, List.map_append, positions_eq m, positionsAll_eq ms]

end

/-- Every letter is given the walks of its node that have at least one step. -/
def Values (K : StateName → Language Step) (letters : List (StateName × PathTree)) : Prop :=
  ∀ c ∈ letters, K c.1 = properWalks c.2.walks

theorem substitute_letter {K : StateName → Language Step} {p : StateName} {t : PathTree}
    (h : K p = properWalks t.walks) :
    substitute K (LetterSets.letterWords p t.nullable) = t.walks := by
  ext w
  constructor
  · intro hgiven
    rcases hgiven with ⟨_, rfl | ⟨rfl, hnull⟩, hw⟩
    · rw [spell_cons, spell_nil, mul_one, h] at hw
      exact hw.1
    · rw [spell_nil, Language.mem_one] at hw
      exact hw ▸ t.nil_mem_walks.mpr hnull
  · intro hw
    by_cases hnil : w = []
    · subst hnil
      exact ⟨[], Or.inr ⟨rfl, t.nil_mem_walks.mp hw⟩, rfl⟩
    · refine ⟨[p], Or.inl rfl, ?_⟩
      rw [spell_cons, spell_nil, mul_one, h]
      exact ⟨hw, hnil⟩

end Marked

namespace PathTree

mutual

theorem exists_mark {t : PathTree} (h : t.Plain) (k : Nat) : ∃ m, t.mark k = .ok m := by
  cases t with
  | property set => exact ⟨_, rfl⟩
  | inverse item => exact h.elim
  | negation items => exact h.elim
  | closure kind item => exact ⟨_, rfl⟩
  | sequence items =>
      have hitems : AllPlain items := h
      obtain ⟨ms, hms⟩ := exists_markAll hitems k
      exact ⟨.sequence ms, by rw [mark, hms]; rfl⟩
  | alternative items =>
      have hitems : AllPlain items := h
      obtain ⟨ms, hms⟩ := exists_markAll hitems k
      exact ⟨.alternative ms, by rw [mark, hms]; rfl⟩

theorem exists_markAll {ts : List PathTree} (h : AllPlain ts) (k : Nat) :
    ∃ ms, markAll k ts = .ok ms := by
  cases ts with
  | nil => exact ⟨[], rfl⟩
  | cons t ts =>
      obtain ⟨m, hm⟩ := exists_mark h.1 k
      obtain ⟨ms, hms⟩ := exists_markAll h.2 (k + t.size)
      exact ⟨m :: ms, by rw [markAll, hm, bind_eq_ok_iff]; exact ⟨m, rfl, by rw [hms]; rfl⟩⟩

end

/-- What is to be shown of every marked path is shown for each operator, from the same for the
items. -/
structure MarkCases (P : Nat → PathTree → Marked → Prop)
    (Q : Nat → List PathTree → List Marked → Prop) :
    Prop where
  property : ∀ k set, P k (.property set) (.letter (k + 1) (.property set))
  closure :
      ∀ k kind item, P k (.closure kind item) (.letter (k + item.size + 1) (.closure kind item))
  sequence :
      ∀ k items ms, markAll k items = .ok ms → Q k items ms → P k (.sequence items) (.sequence ms)
  alternative : ∀ k items ms, markAll k items = .ok ms → Q k items ms →
    P k (.alternative items) (.alternative ms)
  nil : ∀ k, Q k [] []
  cons : ∀ k t ts m ms, t.mark k = .ok m → P k t m → Q (k + t.size) ts ms → Q k (t :: ts) (m :: ms)

section cases
variable {P : Nat → PathTree → Marked → Prop} {Q : Nat → List PathTree → List Marked → Prop}

mutual

theorem MarkCases.mark (hP : MarkCases P Q) {k : Nat} {t : PathTree} {m : Marked}
    (h : t.mark k = .ok m) :
    P k t m := by
  cases t with
  | property set =>
      cases h
      exact hP.property k set
  | inverse item => cases h
  | negation items => cases h
  | closure kind item =>
      cases h
      exact hP.closure k kind item
  | sequence items =>
      simp only [PathTree.mark, bind_eq_ok_iff, pure_eq_ok_iff] at h
      obtain ⟨ms, hms, rfl⟩ := h
      exact hP.sequence k items ms hms (hP.markAll hms)
  | alternative items =>
      simp only [PathTree.mark, bind_eq_ok_iff, pure_eq_ok_iff] at h
      obtain ⟨ms, hms, rfl⟩ := h
      exact hP.alternative k items ms hms (hP.markAll hms)

theorem MarkCases.markAll (hP : MarkCases P Q) {k : Nat} {ts : List PathTree} {ms : List Marked}
    (h : PathTree.markAll k ts = .ok ms) : Q k ts ms := by
  cases ts with
  | nil =>
      cases h
      exact hP.nil k
  | cons t ts =>
      simp only [PathTree.markAll, bind_eq_ok_iff, pure_eq_ok_iff] at h
      obtain ⟨m, hm, ms, hms, rfl⟩ := h
      exact hP.cons k t ts m ms hm (hP.mark hm) (hP.markAll hms)

end

end cases

/-- The positions ascend, behind the nodes before the tree and up to its root. -/
structure Between (k n : Nat) (ps : List Nat) : Prop where
  ascending : ps.Pairwise (· < ·)
  bounds : ∀ p ∈ ps, k < p ∧ p ≤ k + n

theorem between_append {k n m : Nat} {ps qs : List Nat} (hp : Between k n ps)
    (hq : Between (k + n) m qs) : Between k (n + m) (ps ++ qs) where
  ascending := by
    refine List.pairwise_append.mpr ⟨hp.ascending, hq.ascending, ?_⟩
    intro p hp' q hq'
    have hle := (hp.bounds p hp').2
    have hlt := (hq.bounds q hq').1
    omega
  bounds := by
    intro p hp'
    rcases List.mem_append.mp hp' with hp' | hp'
    · have hbounds := hp.bounds p hp'
      omega
    · have hbounds := hq.bounds p hp'
      omega

theorem between_single {k n : Nat} (hn : 0 < n) : Between k n [k + n] where
  ascending := List.pairwise_singleton _ _
  bounds := by
    intro p hp
    obtain rfl := List.mem_singleton.mp hp
    omega

theorem Between.mono {k n m : Nat} {ps : List Nat} (h : Between k n ps) (hle : n ≤ m) :
    Between k m ps where
  ascending := h.ascending
  bounds p hp := by
    have hbounds := h.bounds p hp
    omega

theorem between_markCases : MarkCases (fun k t m => Between k t.size m.positions)
    fun k ts ms => Between k (sizeAll ts) (Marked.positionsAll ms) where
  property _ _ := between_single Nat.one_pos
  closure _ _ _ := between_single (Nat.succ_pos _)
  sequence _ _ _ _ h := h.mono (Nat.le_succ _)
  alternative _ _ _ _ h := h.mono (Nat.le_succ _)
  nil _ := ⟨List.Pairwise.nil, fun _ hp => absurd hp List.not_mem_nil⟩
  cons _ _ _ _ _ _ hfirst hrest := between_append hfirst hrest

theorem between_mark {k : Nat} {t : PathTree} {m : Marked} (h : t.mark k = .ok m) :
    Between k t.size m.positions := between_markCases.mark h

theorem nullable_markCases : MarkCases (fun _ t m => m.nullable = t.nullable)
    fun _ ts ms => Marked.allNullable ms = allNullable ts ∧
      Marked.anyNullable ms = anyNullable ts where
  property _ _ := rfl
  closure _ _ _ := rfl
  sequence _ _ _ _ h := h.1
  alternative _ _ _ _ h := h.2
  nil _ := ⟨rfl, rfl⟩
  cons _ _ _ _ _ _ hfirst hrest := by
    rw [Marked.allNullable, Marked.anyNullable, allNullable, anyNullable, hfirst, hrest.1, hrest.2]
    exact ⟨rfl, rfl⟩

theorem nullable_mark {k : Nat} {t : PathTree} {m : Marked} (h : t.mark k = .ok m) :
    m.nullable = t.nullable := nullable_markCases.mark h

theorem substitute_markCases (K : StateName → Language Step) :
    MarkCases (fun _ t m => Marked.Values K m.letters → substitute K m.language = t.walks)
      fun _ ts ms => Marked.Values K (Marked.lettersAll ms) →
        substitute K (Marked.languageOfSequence ms) = walksOfSequence ts ∧
          substitute K (Marked.languageOfAny ms) = walksOfAny ts where
  property _ _ hK := Marked.substitute_letter (hK _ List.mem_cons_self)
  closure _ _ _ hK := Marked.substitute_letter (hK _ List.mem_cons_self)
  sequence _ _ _ _ h hK := (h hK).1
  alternative _ _ _ _ h hK := (h hK).2
  nil _ _ := ⟨substitute_one, substitute_zero⟩
  cons _ _ _ _ _ _ hfirst hrest hK := by
    have hfirst := hfirst fun c hc => hK c (List.mem_append_left _ hc)
    have hrest := hrest fun c hc => hK c (List.mem_append_right _ hc)
    rw [Marked.languageOfSequence, Marked.languageOfAny, substitute_mul, substitute_add,
      hfirst, hrest.1, hrest.2]
    exact ⟨rfl, rfl⟩

/-- The walks that spell the words of a marked path are the walks that match the path. -/
theorem substitute_mark {k : Nat} {t : PathTree} {m : Marked} (h : t.mark k = .ok m)
    {K : StateName → Language Step} (hK : Marked.Values K m.letters) :
    substitute K m.language = t.walks := (substitute_markCases K).mark h hK

end PathTree

end PropertyPath
