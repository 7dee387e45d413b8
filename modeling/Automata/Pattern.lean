import Automata.Pattern.Assembly
import Automata.Pattern.Lexer
import Automata.Pattern.Postfix

namespace Automata

/-- The graph that accepts exactly the inputs a pattern describes. -/
def Pattern.compile (pattern : List Char) : Except PatternError Graph := do
  Assembly.build (← Token.toPostfix (← tokens pattern))

end Automata
