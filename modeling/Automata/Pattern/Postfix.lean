import Automata.Pattern.Token

namespace Automata

namespace Token

/-- How tightly an operator binds. Other tokens bind nothing. -/
def precedence : Token → Nat
  | star | plus | question => 5
  | concat => 4
  | alternation => 3
  | _ => 0

/-- Whether a waiting operator is applied before a binary operator that comes after it. Equal
operators group to the left. -/
def appliesBefore (waiting next : Token) : Bool :=
  0 < waiting.precedence && next.precedence ≤ waiting.precedence

/-- Whether the token opens a group. -/
def isOpen : Token → Bool
  | openGroup _ => true
  | _ => false

/-- What is left to apply at the end of the pattern. A group that is still open is an error; of
several, the innermost is reported. -/
def applyWaiting (waiting : List Token) : Except PatternError (List Token) :=
  match waiting.findSome? (fun t => if t.isOpen then t.position? else none) with
  | some position => .error (.mismatchedParenthesis position)
  | none => .ok waiting

/-- The rest of the evaluation order, given the operators and open groups that wait, the latest
first. -/
def toPostfixFrom (waiting : List Token) : List Token → Except PatternError (List Token)
  | [] => applyWaiting waiting
  | .openGroup position :: rest => toPostfixFrom (.openGroup position :: waiting) rest
  | .closeGroup position :: rest =>
    match waiting.dropWhile (!·.isOpen) with
    | [] => .error (.mismatchedParenthesis position)
    | _ :: outer =>
      (toPostfixFrom outer rest).map (waiting.takeWhile (!·.isOpen) ++ ·)
  | .concat :: rest =>
    (toPostfixFrom (.concat :: waiting.dropWhile (·.appliesBefore .concat)) rest).map
      (waiting.takeWhile (·.appliesBefore .concat) ++ ·)
  | .alternation :: rest =>
    (toPostfixFrom (.alternation :: waiting.dropWhile (·.appliesBefore .alternation)) rest).map
      (waiting.takeWhile (·.appliesBefore .alternation) ++ ·)
  | t :: rest => (toPostfixFrom waiting rest).map (t :: ·)

/-- Brings tokens into the order of evaluation: every operator comes after its
operands, and parentheses are gone. Only parentheses are checked on the way.
Whether operands are missing is found out when the result is evaluated. -/
def toPostfix (tokens : List Token) : Except PatternError (List Token) :=
  toPostfixFrom [] tokens

end Token

end Automata
