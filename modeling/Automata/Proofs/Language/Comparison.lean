import Automata.Language
import Automata.Proofs.Alphabet
import Automata.Proofs.Graph.Trim
import Automata.Proofs.Language.Residual

namespace Automata

/-- The words of a length are those of that length over the symbols. -/
theorem mem_wordsOfLength_iff {symbols word : List Char} {n : Nat} :
    word ∈ wordsOfLength symbols n ↔ word.length = n ∧ ∀ c ∈ word, c ∈ symbols := by
  induction n generalizing word with
  | zero =>
    rw [wordsOfLength, List.mem_singleton, List.length_eq_zero_iff]
    exact ⟨fun hnil => ⟨hnil, hnil ▸ nofun⟩, And.left⟩
  | succ n ih =>
    simp only [wordsOfLength, List.mem_flatMap, List.mem_map, ih]
    constructor
    · rintro ⟨c, hc, rest, ⟨hlength, hrest⟩, rfl⟩
      exact ⟨congrArg Nat.succ hlength, List.forall_mem_cons.2 ⟨hc, hrest⟩⟩
    · rintro ⟨hlength, hword⟩
      obtain ⟨c, rest, rfl⟩ := List.exists_cons_of_length_eq_add_one hlength
      obtain ⟨hc, hrest⟩ := List.forall_mem_cons.1 hword
      exact ⟨c, hc, rest, ⟨Nat.succ.inj hlength, hrest⟩, rfl⟩

/-- No word over the symbols is left out, up to the length. -/
theorem mem_wordsUpTo_iff {symbols word : List Char} {max : Nat} :
    word ∈ wordsUpTo symbols max ↔ word.length ≤ max ∧ ∀ c ∈ word, c ∈ symbols := by
  unfold wordsUpTo
  split
  · rename_i hnone
    rw [List.isEmpty_iff] at hnone
    subst hnone
    simp only [List.mem_singleton, List.not_mem_nil, imp_false, ← List.eq_nil_iff_forall_not_mem]
    exact ⟨fun hnil => ⟨hnil ▸ Nat.zero_le _, hnil⟩, And.right⟩
  · simp only [List.mem_flatMap, List.mem_range, mem_wordsOfLength_iff]
    constructor
    · rintro ⟨n, hn, rfl, hword⟩
      exact ⟨Nat.le_of_lt_succ hn, hword⟩
    · rintro ⟨hlength, hword⟩
      exact ⟨_, Nat.lt_succ_of_le hlength, rfl, hword⟩

namespace Automaton

variable {a b : Automaton} {p q : StateId}

/-- Two automata with start states are compared word by word. -/
theorem sameLanguage_of_soleStart (hp : a.graph.soleStart = .ok p)
    (hq : b.graph.soleStart = .ok q) (max : Nat) :
    a.sameLanguage b max =
      .ok ((a.comparedWords b max).all fun word =>
        a.acceptsFrom p word == b.acceptsFrom q word) := by
  rw [sameLanguage, hp, hq]
  rfl

/-- The words that are left out because of a symbol are accepted by neither
automaton, as long as neither has a stack. -/
theorem agree_on_comparedWords_iff (ha : a.kind ≠ .pda) (hb : b.kind ≠ .pda) (max : Nat) :
    (∀ word ∈ a.comparedWords b max, a.acceptsFrom p word = b.acceptsFrom q word) ↔
      ∀ word, word.length ≤ max → a.acceptsFrom p word = b.acceptsFrom q word := by
  have hcompared {word : List Char} (hlength : word.length ≤ max)
      (hsymbols : (∀ c ∈ word, c ∈ a.graph.alphabet) ∨ ∀ c ∈ word, c ∈ b.graph.alphabet) :
      word ∈ a.comparedWords b max := by
    refine mem_wordsUpTo_iff.2 ⟨hlength, fun c hc => ?_⟩
    rw [SortedSet.mem_toList, SortedSet.mem_union]
    exact hsymbols.imp (· c hc) (· c hc)
  constructor
  · intro hagree word hlength
    by_contra hdiffer
    cases hfirst : a.acceptsFrom p word with
    | true =>
      have hsymbols := mem_alphabet_of_acceptsFrom ha hfirst
      exact hdiffer (hagree word (hcompared hlength (.inl hsymbols)))
    | false =>
      have hsecond : b.acceptsFrom q word = true := by
        rw [hfirst] at hdiffer
        exact (Bool.eq_false_or_eq_true _).resolve_right (Ne.symm hdiffer)
      have hsymbols := mem_alphabet_of_acceptsFrom hb hsecond
      exact hdiffer (hagree word (hcompared hlength (.inr hsymbols)))
  · intro hagree word hword
    exact hagree word (mem_wordsUpTo_iff.1 hword).1

end Automaton

namespace Deterministic

variable {g h : Graph} {p q : StateId}

/-- The words that lead from a state to an accepting one. -/
def languageFrom (g : Graph) (id : StateId) : Language Char :=
  {word | outcome g id word = some true}

theorem mem_languageFrom_iff {word : List Char} :
    word ∈ languageFrom g p ↔ (machine g).acceptsFrom p word = true :=
  acceptsFrom_iff.symm

/-- What is left after a symbol is the language of the state that it leads to, or
nothing. -/
theorem leftQuotient_languageFrom (g : Graph) (id : StateId) (c : Char) :
    (languageFrom g id).leftQuotient [c] = (successor g id c).elim 0 (languageFrom g) := by
  ext word
  change outcome g id (c :: word) = some true ↔ _
  rw [outcome_cons_eq_some_iff]
  cases successor g id c with
  | none => simp [Language.notMem_zero]
  | some next =>
    simp only [Option.some.injEq, Option.elim_some, exists_eq_left']
    exact .rfl

open scoped Classical in
/-- The languages of the states of two graphs, and the empty language for words that
cannot be read. -/
noncomputable def languages (g h : Graph) : Finset (Language Char) :=
  (0 :: (g.states.map (languageFrom g ·.id) ++ h.states.map (languageFrom h ·.id))).toFinset

/-- The languages at hand are those of the states of both graphs, and the empty
one. -/
theorem mem_languages_iff {L : Language Char} :
    L ∈ languages g h ↔ L = 0 ∨ (∃ id, g.hasState id = true ∧ languageFrom g id = L) ∨
      ∃ id, h.hasState id = true ∧ languageFrom h id = L := by
  simp only [languages, List.mem_toFinset, List.mem_cons, List.mem_append, List.mem_map,
    Graph.hasState_iff, exists_exists_and_eq_and]

/-- There are no more languages than both graphs have states, and one. -/
theorem card_languages_le (g h : Graph) :
    (languages g h).card ≤ g.states.length + h.states.length + 1 := by
  classical
  refine (List.toFinset_card_le _).trans (Nat.le_of_eq ?_)
  rw [List.length_cons, List.length_append, List.length_map, List.length_map]

/-- A symbol leads from one of the languages to another, or to the empty one
where it cannot be read. -/
theorem closedUnderReading_languages (hg : g.WellFormed) (hh : h.WellFormed) :
    ClosedUnderReading (languages g h) := by
  intro L hL c
  rw [mem_languages_iff] at hL ⊢
  obtain rfl | ⟨id, hid, rfl⟩ | ⟨id, hid, rfl⟩ := hL
  · exact .inl rfl
  · rw [leftQuotient_languageFrom]
    cases hsuccessor : successor g id c with
    | none => exact .inl rfl
    | some next =>
      obtain ⟨t, ht, _, _, rfl⟩ := exists_move_of_successor hsuccessor
      exact .inr (.inl ⟨t.target, hg.hasState_target t ht, rfl⟩)
  · rw [leftQuotient_languageFrom]
    cases hsuccessor : successor h id c with
    | none => exact .inl rfl
    | some next =>
      obtain ⟨t, ht, _, _, rfl⟩ := exists_move_of_successor hsuccessor
      exact .inr (.inr ⟨t.target, hh.hasState_target t ht, rfl⟩)

/-- States of two well-formed graphs that accept the same words up to the number of
states of both accept the same words. -/
theorem acceptsFrom_eq_of_short (hg : g.WellFormed) (hh : h.WellFormed)
    (hp : g.hasState p = true) (hq : h.hasState q = true)
    (hshort : ∀ word, word.length ≤ g.states.length + h.states.length →
      (machine g).acceptsFrom p word = (machine h).acceptsFrom q word) (word : List Char) :
    (machine g).acceptsFrom p word = (machine h).acceptsFrom q word := by
  have hsame : languageFrom g p = languageFrom h q := by
    refine eq_of_agree_below_card (closedUnderReading_languages hg hh)
      (mem_languages_iff.2 (.inr (.inl ⟨p, hp, rfl⟩)))
      (mem_languages_iff.2 (.inr (.inr ⟨q, hq, rfl⟩))) fun word hlength => ?_
    rw [mem_languageFrom_iff, mem_languageFrom_iff, hshort word]
    exact Nat.le_of_lt_succ (Nat.lt_of_lt_of_le hlength (card_languages_le g h))
  rw [Bool.eq_iff_iff, ← mem_languageFrom_iff, ← mem_languageFrom_iff, hsame]

end Deterministic

namespace Automaton

/-- Two deterministic automata that were compared on all words up to the number of
states of both, or further, accept the same words of any length and over any
symbols exactly if no difference was found. -/
theorem sameLanguage_conclusive {g h : Graph} (hg : g.WellFormed) (hh : h.WellFormed)
    {p q : StateId} (hp : g.soleStart = .ok p) (hq : h.soleStart = .ok q) {max : Nat}
    (hmax : g.states.length + h.states.length ≤ max) :
    ∃ same, (dfa g).sameLanguage (dfa h) max = .ok same ∧
      (same = true ↔ ∀ word, (dfa g).accepts word = (dfa h).accepts word) := by
  refine ⟨_, sameLanguage_of_soleStart (a := dfa g) (b := dfa h) hp hq max, ?_⟩
  have haccepts (word : List Char) :
      (dfa g).accepts word = (dfa h).accepts word ↔
        (dfa g).acceptsFrom p word = (dfa h).acceptsFrom q word := by
    rw [accepts_of_soleStart (a := dfa g) hp, accepts_of_soleStart (a := dfa h) hq,
      Except.ok.injEq]
  simp only [List.all_eq_true, beq_iff_eq, haccepts]
  rw [agree_on_comparedWords_iff (by simp [kind]) (by simp [kind])]
  constructor
  · intro hshort
    exact Deterministic.acceptsFrom_eq_of_short hg hh (Graph.hasState_of_soleStart hp)
      (Graph.hasState_of_soleStart hq) fun word hlength => hshort word (hlength.trans hmax)
  · exact fun hall word _ => hall word

/-- Words of even length, counted by two states, and by four of which a fifth one
with a symbol of its own is dead. -/
theorem sameLanguage_conclusive_of_even :
    let g : Graph :=
      { states := [{ id := 0, isStart := true, isAccepting := true }, { id := 1 }]
        transitions := [
          { source := 0, target := 1, symbol := 'a' },
          { source := 1, target := 0, symbol := 'a' }] }
    let h : Graph :=
      { states := [{ id := 3, isStart := true, isAccepting := true }, { id := 4 },
          { id := 5, isAccepting := true }, { id := 6 }, { id := -1 }]
        transitions := [
          { source := 3, target := 4, symbol := 'a' },
          { source := 4, target := 5, symbol := 'a' },
          { source := 5, target := 6, symbol := 'a' },
          { source := 6, target := 3, symbol := 'a' },
          { source := 6, target := -1, symbol := 'b' }] }
    g.WellFormed ∧ h.WellFormed ∧ g.soleStart = .ok 0 ∧ h.soleStart = .ok 3 ∧
      g.states.length + h.states.length ≤ 7 ∧
      ∃ same, (dfa g).sameLanguage (dfa h) 7 = .ok same ∧
        (same = true ↔ ∀ word, (dfa g).accepts word = (dfa h).accepts word) := by
  intro g h
  have hg : g.WellFormed := ⟨by decide, by decide, by decide, by decide⟩
  have hh : h.WellFormed := ⟨by decide, by decide, by decide, by decide⟩
  exact ⟨hg, hh, rfl, rfl, by decide, sameLanguage_conclusive hg hh rfl rfl (by decide)⟩

end Automaton

end Automata
