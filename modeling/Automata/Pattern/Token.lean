namespace Automata

/-- Why a pattern is refused. Positions count the characters of the whole pattern from 0. -/
inductive PatternError where
  | emptyPattern
  | mismatchedParenthesis (position : Nat)
  | invalidRange (first last : Char)
  | emptyClass (position : Nat)
  | negatedClass (position : Nat)
  | unterminatedClass (position : Nat)
  | trailingEscape
  | missingOperand (operator : Char)
deriving DecidableEq

/-- The sentence that reports the cause. -/
def PatternError.message : PatternError → String
  | emptyPattern => "the pattern is empty"
  | mismatchedParenthesis position => s!"mismatched parenthesis at position {position}"
  | invalidRange first last =>
    s!"invalid range {first}-{last}, the start is greater than the end"
  | emptyClass position => s!"empty character class at position {position}"
  | negatedClass position =>
    s!"negated character class at position {position} is not supported"
  | unterminatedClass position => s!"character class at position {position} is never closed"
  | trailingEscape => "the pattern ends with an unfinished escape"
  | missingOperand operator => s!"operator '{operator}' is missing an operand"

/-- A token of a pattern. Concatenation is a token of its own, which no pattern spells out. -/
inductive Token where
  | literal (symbol : Char)
  /-- One of several symbols. -/
  | oneOf (members : List Char)
  | star
  | plus
  | question
  | alternation
  | concat
  | openGroup (position : Nat)
  | closeGroup (position : Nat)
deriving DecidableEq

namespace Token

/-- The character of an operator. -/
def operator? : Token → Option Char
  | star => some '*'
  | plus => some '+'
  | question => some '?'
  | alternation => some '|'
  | concat => some '.'
  | _ => none

/-- The position of a parenthesis in the pattern. -/
def position? : Token → Option Nat
  | openGroup position | closeGroup position => some position
  | _ => none

/-- The token as it would stand in a pattern. -/
def toText : Token → String
  | literal symbol => symbol.toString
  | oneOf members => "[" ++ String.ofList members ++ "]"
  | star => "*"
  | plus => "+"
  | question => "?"
  | alternation => "|"
  | concat => "."
  | openGroup _ => "("
  | closeGroup _ => ")"

/-- Whether an operand may end with the token. -/
def endsOperand : Token → Bool
  | literal _ | oneOf _ | closeGroup _ | star | plus | question => true
  | _ => false

/-- Whether an operand may begin with the token. -/
def startsOperand : Token → Bool
  | literal _ | oneOf _ | openGroup _ => true
  | _ => false

/-- Makes concatenation explicit: wherever the end of an operand meets the start of one. -/
def insertConcat : List Token → List Token
  | a :: b :: rest =>
    if a.endsOperand && b.startsOperand then a :: concat :: insertConcat (b :: rest)
    else a :: insertConcat (b :: rest)
  | tokens => tokens

end Token

end Automata
