namespace Automata

/-- States are told apart by a number that the author of an automaton chooses. -/
abbrev StateId := Int

/-- Whether a number fits the 32 bits that a state number has in a file. -/
def fitsStateId (n : Int) : Bool := -2147483648 ≤ n && n ≤ 2147483647

/-- The reserved symbol of moves that read nothing. No alphabet contains it. -/
def epsilon : Char := '\x00'

/-- The text of a symbol: epsilon, which has no glyph of its own, is shown as a letter. -/
def showSymbol (symbol : Char) : String :=
  if symbol = epsilon then "ε" else symbol.toString

/-- The text of a sequence of symbols. -/
def showSymbols (symbols : List Char) : String :=
  String.join (symbols.map showSymbol)

end Automata
