import Automata.Pattern.Token
import Automata.Symbol
import Mathlib.Computability.Language

open scoped Computability

namespace Automata

/-- What a pattern says, without its spelling: groups are resolved and the
    operands of every operator are settled. -/
inductive Expression where
  | literal (symbol : Char)
  | oneOf (members : List Char)
  | concat (left right : Expression)
  | alternation (left right : Expression)
  | star (inner : Expression)
  | plus (inner : Expression)
  | question (inner : Expression)
deriving DecidableEq

/-- The words that a single symbol stands for. The reserved symbol of silent
    moves stands for the empty word. -/
def symbolLanguage (symbol : Char) : Language Char :=
  if symbol = epsilon then 1 else {[symbol]}

/-- A symbol stands for itself, and the reserved one for the empty word. -/
theorem mem_symbolLanguage_iff {symbol : Char} {word : List Char} :
    word ∈ symbolLanguage symbol ↔ word = if symbol = epsilon then [] else [symbol] := by
  unfold symbolLanguage
  split <;> rfl

/-- The words that one of several symbols stands for. -/
def membersLanguage (members : List Char) : Language Char :=
  {word | ∃ c ∈ members, word ∈ symbolLanguage c}

theorem mem_membersLanguage_iff {members : List Char} {word : List Char} :
    word ∈ membersLanguage members ↔ ∃ c ∈ members, word ∈ symbolLanguage c :=
  Iff.rfl

/-- Neither order nor repetition of members matters. -/
theorem membersLanguage_congr {members others : List Char}
    (hsame : ∀ c, c ∈ members ↔ c ∈ others) : membersLanguage members = membersLanguage others := by
  ext word
  simp only [mem_membersLanguage_iff, hsame]

theorem membersLanguage_reverse (members : List Char) :
    membersLanguage members.reverse = membersLanguage members :=
  membersLanguage_congr fun _ => List.mem_reverse

/-- A class with one member stands for that symbol. -/
theorem membersLanguage_singleton (c : Char) : membersLanguage [c] = symbolLanguage c := by
  ext word
  simp only [mem_membersLanguage_iff, List.mem_singleton, exists_eq_left]

namespace Expression

/-- The usual denotation. -/
def language : Expression → Language Char
  | literal c => symbolLanguage c
  | oneOf members => membersLanguage members
  | concat left right => left.language * right.language
  | alternation left right => left.language + right.language
  | star inner => inner.language∗
  | plus inner => inner.language * inner.language∗
  | question inner => 1 + inner.language

/-- The tokens of an expression in the order of evaluation. -/
def evaluation : Expression → List Token
  | literal c => [.literal c]
  | oneOf members => [.oneOf members]
  | concat left right => left.evaluation ++ right.evaluation ++ [.concat]
  | alternation left right => left.evaluation ++ right.evaluation ++ [.alternation]
  | star inner => inner.evaluation ++ [.star]
  | plus inner => inner.evaluation ++ [.plus]
  | question inner => inner.evaluation ++ [.question]

end Expression

end Automata
