import Automata.Execution
import Automata.Text.Quoted

namespace Automata

/-- All words of a length over some symbols, in the order of the symbols. -/
def wordsOfLength (symbols : List Char) : Nat → List (List Char)
  | 0 => [[]]
  | n + 1 => symbols.flatMap fun a => (wordsOfLength symbols n).map (a :: ·)

/-- All words up to a length over some symbols. Without symbols there is only the empty word. -/
def wordsUpTo (symbols : List Char) (max : Nat) : List (List Char) :=
  if symbols.isEmpty then [[]]
  else (List.range (max + 1)).flatMap (wordsOfLength symbols)

/-- A word that tells two automata apart, and whether it is the first that accepts it. -/
structure Difference where
  word : List Char
  inFirst : Bool
deriving DecidableEq

namespace Difference

/-- The sentence that reports the difference. -/
def message (d : Difference) : String :=
  let (accepting, rejecting) := if d.inFirst then ("a", "b") else ("b", "a")
  Text.quoted d.word ++ s!" is accepted by automaton `{accepting}` but not by automaton " ++
    s!"`{rejecting}`. Thus their languages are not equal."

/-- The difference that a word shows, if it shows one. -/
def ofVerdicts (word : List Char) (inFirst inSecond : Bool) : Option Difference :=
  if inFirst = inSecond then none else some ⟨word, inFirst⟩

end Difference

namespace Automaton

/-- The words on which two automata are compared: those over the symbols of
both, shorter words first and words of one length in the order of their
symbols. -/
def comparedWords (a b : Automaton) (max : Nat) : List (List Char) :=
  wordsUpTo (a.graph.alphabet ∪ b.graph.alphabet).toList max

/-- Whether two automata accept the same words up to a length. Both need exactly one start state. -/
def sameLanguage (a b : Automaton) (max : Nat) : Except GraphError Bool := do
  let p ← a.graph.soleStart
  let q ← b.graph.soleStart
  return (comparedWords a b max).all fun word => a.acceptsFrom p word == b.acceptsFrom q word

/-- The first word that only one of two automata accepts. Both need exactly one start state. -/
def firstDifference (a b : Automaton) (max : Nat) : Except GraphError (Option Difference) := do
  let p ← a.graph.soleStart
  let q ← b.graph.soleStart
  return (comparedWords a b max).findSome? fun word =>
    Difference.ofVerdicts word (a.acceptsFrom p word) (b.acceptsFrom q word)

end Automaton

end Automata
