import Automata.Pattern
import Automata.Proofs.Pattern.Anchors
import Automata.Proofs.Pattern.Construction
import Automata.Proofs.Pattern.Evaluation

namespace Automata

namespace Pattern

variable {pattern : List Char} {ts : List Token} {e : Expression}

/-- The tokens of a pattern are those that spell it, with concatenation made
explicit. -/
theorem tokens_eq_of_lexes (hlexes : Lexes pattern ts) :
    tokens pattern = .ok (Token.insertConcat ts) := by
  rw [tokens, lexemes_eq_ok_iff.2 hlexes]
  rfl

/-- What a pattern compiles to when it derives an expression. -/
theorem compile_eq_build (hlexes : Lexes pattern ts) (hderives : Derives [] .choice ts e) :
    compile pattern = Assembly.build e.evaluation := by
  rw [compile, tokens_eq_of_lexes hlexes]
  change Token.toPostfix (Token.insertConcat ts) >>= Assembly.build = _
  rw [hderives.insertConcat.toPostfix]
  rfl

/-- Every pattern of the grammar compiles to an automaton for the language of
    any of its derivations. The symbol that is reserved for silent moves stands
    for the empty word, wherever the pattern names it. -/
theorem compile_recognizes (hlexes : Lexes pattern ts) (hderives : Derives [] .choice ts e) :
    ∃ g, compile pattern = .ok g ∧ (Automaton.epsilonNfa g).Recognizes e.language := by
  rw [compile_eq_build hlexes hderives]
  exact Assembly.exists_build_evaluation e

/-- An anchored pattern with a group, an escape, a range and a repetition. -/
theorem compile_recognizes_of_group :
    ∃ g, compile "^(\\*|[a-c])+$".toList = .ok g ∧ (Automaton.epsilonNfa g).Recognizes
      ((Expression.literal '*').alternation (.oneOf ['a', 'b', 'c'])).plus.language := by
  have hitems : SpellsItems ['a', '-', 'c', ']'] [('a', 'c')] :=
    .range (.plain (by decide) (by decide)) (.plain (by decide) (by decide)) (by decide) .close
  have hclass : SpellsClass ['a', '-', 'c', ']'] ['a', 'b', 'c'] :=
    hitems.spellsClass (by decide) (by decide)
  have hanchor : ¬ EndsEscaping "(\\*|[a-c])+".toList := by
    rw [endsEscaping_iff]
    decide
  have hspells : Spells 1 "(\\*|[a-c])+".toList [.openGroup 1, .literal '*', .alternation,
      .oneOf ['a', 'b', 'c'], .closeGroup 10, .plus] :=
    .plain .openGroup (.escaped (.plain .alternation (.oneOf hclass
      (.plain .closeGroup (.plain .plus (.nil 12))))))
  have hchoice : Derives [] .choice [.literal '*', .alternation, .oneOf ['a', 'b', 'c']]
      ((Expression.literal '*').alternation (.oneOf ['a', 'b', 'c'])) :=
    .alternation (.ofSequence (.ofRepetition (.ofAtom (.literal '*'))))
      (.ofRepetition (.ofAtom (.oneOf ['a', 'b', 'c'])))
  exact compile_recognizes (.anchored (.anchored hanchor) hspells)
    (.ofSequence (.ofRepetition (.plus (.ofAtom (.group 1 10 hchoice)))))

end Pattern

end Automata
