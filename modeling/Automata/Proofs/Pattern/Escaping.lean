import Automata.Proofs.Pattern.FinalAnchor
import Automata.Proofs.Pattern.Meaning

namespace Automata

namespace Pattern

variable {text : List Char}

/-- The text with a backslash in front of every character. -/
def escaped (text : List Char) : List Char :=
  text.flatMap fun c => ['\\', c]

theorem escaped_append (text more : List Char) :
    escaped (text ++ more) = escaped text ++ escaped more :=
  List.flatMap_append

/-- An escaped text spells its characters as literals. -/
theorem spells_escaped (position : Nat) (text : List Char) :
    Spells position (escaped text) (text.map .literal) := by
  induction text generalizing position with
  | nil => exact .nil position
  | cons c text ih => exact .escaped (ih (position + 2))

/-- An escaped text begins with a backslash, if with anything. -/
theorem head?_escaped_ne {c : Char} (hescape : c ≠ '\\') : (escaped text).head? ≠ some c := by
  cases text with
  | nil => exact nofun
  | cons d text => exact fun hhead => hescape (Option.some.inj hhead).symm

/-- An anchor at the end is escaped like every other character, so that nothing is
dropped. -/
theorem trimsEnd_escaped (text : List Char) : TrimsEnd (escaped text) (escaped text) := by
  obtain rfl | ⟨front, c, rfl⟩ := text.eq_nil_or_concat'
  · exact .of_getLast?_ne nofun
  · rw [escaped_append]
    exact .of_escape (spells_escaped 0 front).not_endsEscaping c

/-- An escaped text has its characters as its tokens. -/
theorem lexes_escaped (text : List Char) : Lexes (escaped text) (text.map .literal) :=
  .plain (head?_escaped_ne (by decide)) (trimsEnd_escaped text) (spells_escaped 0 text)

/-- A word on its own, without the reserved symbol, as the language of a sequence
of literals. -/
theorem exists_derives_literals (hsome : text ≠ []) :
    ∃ e, Derives [] .sequence (text.map .literal) e ∧
      ∀ word, word ∈ e.language ↔ word = text.filter (· ≠ epsilon) := by
  induction text using List.reverseRecOn with
  | nil => exact absurd rfl hsome
  | append_singleton front c ih =>
    have hlast (word : List Char) :
        word ∈ (Expression.literal c).language ↔ word = [c].filter (· ≠ epsilon) := by
      by_cases hsilent : c = epsilon <;>
        simp [Expression.language, mem_symbolLanguage_iff, hsilent]
    obtain rfl | hfront := eq_or_ne front []
    · exact ⟨.literal c, .ofRepetition (.ofAtom (.literal c)), hlast⟩
    · obtain ⟨e, hderives, hwords⟩ := ih hfront
      refine ⟨e.concat (.literal c), ?_, fun word => ?_⟩
      · rw [List.map_append, ← List.append_nil (front.map Token.literal)]
        exact .concat hderives (.ofAtom (.literal c))
      · rw [Expression.language, Language.mem_mul, List.filter_append]
        simp only [hwords, hlast, exists_eq_left]
        exact eq_comm

/-- A recognized language with a single word gives every input its verdict. -/
theorem accepts_of_recognizes {a : Automaton} {L : Language Char} {word : List Char}
    (ha : a.Recognizes L) (hword : ∀ input, input ∈ L ↔ input = word) (input : List Char) :
    a.accepts input = .ok (decide (input = word)) := by
  obtain ⟨verdict, haccepts, hverdict⟩ := ha input
  rw [haccepts, Except.ok.injEq, Bool.eq_iff_iff, hverdict, hword, decide_eq_true_iff]

/-- Escaping makes a literal of any text: the pattern compiles, and the automaton
accepts the text and nothing else. The reserved symbol of silent moves is in no
alphabet; as a literal it stands for the empty word, so it is left out of the
word. -/
theorem compile_escaped (hsome : text ≠ []) :
    ∃ g, compile (escaped text) = .ok g ∧ ∀ word,
      (Automaton.epsilonNfa g).accepts word = .ok (decide (word = text.filter (· ≠ epsilon))) := by
  obtain ⟨e, hderives, hwords⟩ := exists_derives_literals hsome
  obtain ⟨g, hbuild, hrecognizes⟩ := Assembly.exists_build_evaluation e
  refine ⟨g, ?_, accepts_of_recognizes hrecognizes hwords⟩
  rw [compile_eq_build (lexes_escaped text) (.ofSequence hderives), hbuild]

/-- A text of operators, brackets, anchors, backslashes and the reserved symbol. -/
theorem compile_escaped_of_operators :
    "^[(\\\\|*-\x00]$".toList ≠ [] ∧
      ∃ g, compile (escaped "^[(\\\\|*-\x00]$".toList) = .ok g ∧ ∀ word,
        (Automaton.epsilonNfa g).accepts word = .ok (decide (word = "^[(\\\\|*-]$".toList)) :=
  ⟨by decide, compile_escaped (by decide)⟩

/-- The reserved symbol is no literal, escaped or not: the automaton accepts the
empty word in place of it. -/
theorem escaped_epsilon_accepts_empty :
    ∃ g, compile (escaped [epsilon]) = .ok g ∧
      (Automaton.epsilonNfa g).accepts [epsilon] = .ok false ∧
      (Automaton.epsilonNfa g).accepts [] = .ok true := by
  obtain ⟨g, hbuild, hrecognizes⟩ := Assembly.exists_build_evaluation (.literal epsilon)
  have hempty (input : List Char) : input ∈ (Expression.literal epsilon).language ↔ input = [] :=
    mem_symbolLanguage_iff
  have haccepts := accepts_of_recognizes hrecognizes hempty
  have hderives : Derives [] .choice [.literal epsilon] (.literal epsilon) :=
    .ofSequence (.ofRepetition (.ofAtom (.literal epsilon)))
  refine ⟨g, ?_, haccepts [epsilon], haccepts []⟩
  rw [compile_eq_build (lexes_escaped [epsilon]) hderives, hbuild]

end Pattern

end Automata
