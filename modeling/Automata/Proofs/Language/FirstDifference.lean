import Automata.Proofs.Language.Comparison
import Automata.Proofs.Text.Quoted
import Mathlib.Data.List.Shortlex

namespace Automata

/-- Words of one length stand in the order of their symbols. -/
theorem pairwise_lex_wordsOfLength {symbols : List Char} (hsymbols : symbols.Pairwise (· < ·))
    (n : Nat) : (wordsOfLength symbols n).Pairwise (List.Lex (· < ·)) := by
  induction n with
  | zero => exact List.pairwise_singleton _ _
  | succ n ih =>
    rw [wordsOfLength, List.pairwise_flatMap]
    constructor
    · intro a _
      rw [List.pairwise_map]
      exact ih.imp .cons
    · apply hsymbols.imp
      intro a b hab u hu v hv
      obtain ⟨_, _, rfl⟩ := List.mem_map.1 hu
      obtain ⟨_, _, rfl⟩ := List.mem_map.1 hv
      exact .rel hab

/-- Shorter words come first, and words of one length in the order of their symbols. -/
theorem pairwise_shortlex_wordsUpTo {symbols : List Char} (hsymbols : symbols.Pairwise (· < ·))
    (max : Nat) : (wordsUpTo symbols max).Pairwise (List.Shortlex (· < ·)) := by
  unfold wordsUpTo
  split
  · exact List.pairwise_singleton _ _
  · rw [List.pairwise_flatMap]
    constructor
    · intro n _
      apply (pairwise_lex_wordsOfLength hsymbols n).imp_of_mem
      intro u v hu hv hlex
      have hlength : u.length = v.length := by
        rw [(mem_wordsOfLength_iff.1 hu).1, (mem_wordsOfLength_iff.1 hv).1]
      exact .of_lex hlength hlex
    · apply List.pairwise_lt_range.imp
      intro m n hmn u hu v hv
      apply List.Shortlex.of_length_lt
      rw [(mem_wordsOfLength_iff.1 hu).1, (mem_wordsOfLength_iff.1 hv).1]
      exact hmn

/-- The list holds every word up to a length over some symbols, once, in the order of length and then
of symbols. -/
structure Enumerates (words : List (List Char)) (symbols : Char → Prop) (max : Nat) : Prop where
  mem_iff : ∀ word, word ∈ words ↔ word.length ≤ max ∧ ∀ c ∈ word, symbols c
  nodup : words.Nodup
  ordered : words.Pairwise (List.Shortlex (· < ·))

/-- The words up to a length are listed once each, the shorter ones first. -/
theorem enumerates_wordsUpTo (symbols : SortedSet Char) (max : Nat) :
    Enumerates (wordsUpTo symbols.toList max) (· ∈ symbols) max := by
  have hordered := pairwise_shortlex_wordsUpTo (symbols.ascending.imp before_eq_true_iff.1) max
  exact ⟨fun _ => mem_wordsUpTo_iff, hordered.nodup, hordered⟩

namespace Difference

theorem ofVerdicts_eq_none_iff {word : List Char} {inFirst inSecond : Bool} :
    ofVerdicts word inFirst inSecond = none ↔ inFirst = inSecond := by
  simp [ofVerdicts]

/-- A difference says which of the automata accepts the word. -/
theorem ofVerdicts_eq_some_iff {word : List Char} {inFirst inSecond : Bool} {d : Difference} :
    ofVerdicts word inFirst inSecond = some d ↔
      word = d.word ∧ inFirst = d.inFirst ∧ inSecond = !d.inFirst := by
  unfold ofVerdicts
  split
  · rename_i hsame
    simp only [reduceCtorEq, false_iff, not_and]
    intro _ hfirst hsecond
    rw [hsame, hsecond] at hfirst
    exact Bool.not_ne_self _ hfirst
  · rename_i hdiffer
    rw [Option.some.injEq]
    constructor
    · rintro rfl
      exact ⟨rfl, rfl, Bool.eq_not.2 (Ne.symm hdiffer)⟩
    · rintro ⟨rfl, rfl, _⟩
      rfl

/-- The sentence names the word, and first the automaton that accepts it. -/
theorem message_eq (d : Difference) :
    d.message = Text.quoted d.word ++
      if d.inFirst then
        " is accepted by automaton `a` but not by automaton `b`. Thus their languages are not equal."
      else
        " is accepted by automaton `b` but not by automaton `a`. Thus their languages are not equal."
    := by
  obtain ⟨word, inFirst⟩ := d
  cases inFirst with
  | true =>
    simp only [message, ↓reduceIte, String.append_assoc]
    rfl
  | false =>
    simp only [message, Bool.false_eq_true, ↓reduceIte, String.append_assoc]
    rfl

/-- What is reported tells the word and the automaton. -/
theorem message_injective : Function.Injective message := by
  intro d e hsame
  rw [message_eq, message_eq] at hsame
  obtain ⟨hword, hverdict⟩ := Text.quoted_append_inj hsame
  obtain ⟨word, inFirst⟩ := d
  obtain ⟨word', inFirst'⟩ := e
  obtain rfl : word = word' := hword
  cases inFirst <;> cases inFirst' <;> simp at hverdict ⊢

end Difference

namespace Automaton

variable {a b : Automaton} {p q : StateId} {max : Nat}

/-- The words that are compared are those over the symbols of both automata. -/
theorem enumerates_comparedWords (a b : Automaton) (max : Nat) :
    Enumerates (a.comparedWords b max)
      (fun c => c ∈ a.graph.alphabet ∨ c ∈ b.graph.alphabet) max := by
  have hwords : Enumerates (a.comparedWords b max) (· ∈ a.graph.alphabet ∪ b.graph.alphabet) max :=
    enumerates_wordsUpTo _ max
  simpa only [SortedSet.mem_union] using hwords

/-- Without symbols only the empty word is compared. -/
theorem comparedWords_of_no_symbols (hnone : a.graph.alphabet ∪ b.graph.alphabet = ∅) (max : Nat) :
    a.comparedWords b max = [[]] := by
  rw [comparedWords, hnone]
  rfl

/-- Two automata with start states are compared on one word after another until
their verdicts differ. -/
theorem firstDifference_of_soleStart (hp : a.graph.soleStart = .ok p)
    (hq : b.graph.soleStart = .ok q) (max : Nat) :
    a.firstDifference b max = .ok ((a.comparedWords b max).findSome? fun word =>
      Difference.ofVerdicts word (a.acceptsFrom p word) (b.acceptsFrom q word)) := by
  rw [firstDifference, hp, hq]
  rfl

/-- A word with its verdicts that tells two automata apart, while no word before it does. -/
structure DifferFirst (a b : Automaton) (max : Nat) (d : Difference) : Prop where
  word_mem : d.word ∈ a.comparedWords b max
  accepts_first : a.accepts d.word = .ok d.inFirst
  accepts_second : b.accepts d.word = .ok !d.inFirst
  agree_before : ∀ word ∈ a.comparedWords b max, List.Shortlex (· < ·) word d.word →
    a.accepts word = b.accepts word

/-- The word that is reported is the first in the list on which the automata differ. -/
theorem findSome?_ofVerdicts_eq_some_iff (hp : a.graph.soleStart = .ok p)
    (hq : b.graph.soleStart = .ok q) {d : Difference} :
    ((a.comparedWords b max).findSome? fun word =>
        Difference.ofVerdicts word (a.acceptsFrom p word) (b.acceptsFrom q word)) = some d ↔
      a.DifferFirst b max d := by
  have hordered := (enumerates_comparedWords a b max).ordered
  simp only [List.findSome?_eq_some_iff, Difference.ofVerdicts_eq_some_iff,
    Difference.ofVerdicts_eq_none_iff]
  constructor
  · rintro ⟨before, word, after, hsplit, ⟨rfl, hfirst, hsecond⟩, hbefore⟩
    refine ⟨?_, ?_, ?_, fun word hword hless => ?_⟩
    · rw [hsplit]
      exact List.mem_append_right _ List.mem_cons_self
    · rw [accepts_of_soleStart hp, hfirst]
    · rw [accepts_of_soleStart hq, hsecond]
    · rw [hsplit, List.pairwise_append, List.pairwise_cons] at hordered
      rw [hsplit, List.mem_append, List.mem_cons] at hword
      rw [accepts_of_soleStart hp, accepts_of_soleStart hq]
      -- no word from here on is less than the one that is reported
      obtain hword | rfl | hword := hword
      · rw [hbefore word hword]
      · exact absurd hless (asymm hless)
      · exact absurd hless (asymm (hordered.2.1.1 word hword))
  · intro hd
    obtain ⟨before, after, hsplit⟩ := List.append_of_mem hd.word_mem
    have hfirst := hd.accepts_first
    have hsecond := hd.accepts_second
    rw [accepts_of_soleStart hp, Except.ok.injEq] at hfirst
    rw [accepts_of_soleStart hq, Except.ok.injEq] at hsecond
    refine ⟨before, d.word, after, hsplit, ⟨rfl, hfirst, hsecond⟩, fun word hword => ?_⟩
    rw [hsplit, List.pairwise_append] at hordered
    have hless := hordered.2.2 word hword d.word List.mem_cons_self
    have hmem : word ∈ a.comparedWords b max := by
      rw [hsplit]
      exact List.mem_append_left _ hword
    have hagree := hd.agree_before word hmem hless
    rwa [accepts_of_soleStart hp, accepts_of_soleStart hq, Except.ok.injEq] at hagree

/-- Two automata with one start state each are compared on every word up to the length over the
symbols of both. The comparison says whether they agree on all these words. A difference is reported
exactly if it says that they do not, and the report names the first word on which they differ and the
automaton that accepts this word. -/
theorem comparison_reports_first_difference (hp : a.graph.soleStart = .ok p)
    (hq : b.graph.soleStart = .ok q) (max : Nat) :
    Enumerates (a.comparedWords b max)
      (fun c => c ∈ a.graph.alphabet ∨ c ∈ b.graph.alphabet) max ∧
    (a.graph.alphabet ∪ b.graph.alphabet = ∅ → a.comparedWords b max = [[]]) ∧
    (∃ same difference?, a.sameLanguage b max = .ok same ∧
      a.firstDifference b max = .ok difference? ∧
      (same = true ↔ ∀ word ∈ a.comparedWords b max, a.accepts word = b.accepts word) ∧
      (difference?.isSome = true ↔ same = false) ∧
      ∀ d, difference? = some d ↔ a.DifferFirst b max d) ∧
    (∀ d : Difference, d.message = Text.quoted d.word ++
      if d.inFirst then
        " is accepted by automaton `a` but not by automaton `b`. Thus their languages are not equal."
      else
        " is accepted by automaton `b` but not by automaton `a`. Thus their languages are not equal.")
    ∧ Function.Injective Difference.message := by
  refine ⟨enumerates_comparedWords a b max, fun hnone => comparedWords_of_no_symbols hnone max,
    ⟨_, _, sameLanguage_of_soleStart hp hq max, firstDifference_of_soleStart hp hq max, ?_, ?_,
      fun d => findSome?_ofVerdicts_eq_some_iff hp hq⟩,
    Difference.message_eq, Difference.message_injective⟩
  · simp only [accepts_of_soleStart hp, accepts_of_soleStart hq, Except.ok.injEq, List.all_eq_true,
      beq_iff_eq]
  · have hnone : ((a.comparedWords b max).findSome? fun word =>
        Difference.ofVerdicts word (a.acceptsFrom p word) (b.acceptsFrom q word)) = none ↔
        ((a.comparedWords b max).all fun word =>
          a.acceptsFrom p word == b.acceptsFrom q word) = true := by
      simp only [List.findSome?_eq_none_iff, Difference.ofVerdicts_eq_none_iff, List.all_eq_true,
        beq_iff_eq]
    rw [Option.isSome_iff_ne_none, ne_eq, hnone, Bool.not_eq_true]

/-- Words of even length over one symbol, and words of length one at most over another. -/
theorem comparison_reports_first_difference_of_two_alphabets :
    let a : Automaton := .dfa
      { states := [{ id := 0, isStart := true, isAccepting := true }, { id := 1 }]
        transitions := [
          { source := 0, target := 1, symbol := 'b' },
          { source := 1, target := 0, symbol := 'b' }] }
    let b : Automaton := .epsilonNfa
      { states := [{ id := 4, isStart := true }, { id := 3, isAccepting := true }]
        transitions := [
          { source := 4, target := 3, symbol := epsilon },
          { source := 4, target := 3, symbol := 'a' }] }
    a.graph.soleStart = .ok 0 ∧ b.graph.soleStart = .ok 4 ∧
    Enumerates (a.comparedWords b 3)
      (fun c => c ∈ a.graph.alphabet ∨ c ∈ b.graph.alphabet) 3 ∧
    (a.graph.alphabet ∪ b.graph.alphabet = ∅ → a.comparedWords b 3 = [[]]) ∧
    (∃ same difference?, a.sameLanguage b 3 = .ok same ∧
      a.firstDifference b 3 = .ok difference? ∧
      (same = true ↔ ∀ word ∈ a.comparedWords b 3, a.accepts word = b.accepts word) ∧
      (difference?.isSome = true ↔ same = false) ∧
      ∀ d, difference? = some d ↔ a.DifferFirst b 3 d) ∧
    (∀ d : Difference, d.message = Text.quoted d.word ++
      if d.inFirst then
        " is accepted by automaton `a` but not by automaton `b`. Thus their languages are not equal."
      else
        " is accepted by automaton `b` but not by automaton `a`. Thus their languages are not equal.")
    ∧ Function.Injective Difference.message :=
  ⟨rfl, rfl, comparison_reports_first_difference rfl rfl 3⟩

end Automaton

end Automata
