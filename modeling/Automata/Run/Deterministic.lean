import Automata.Graph.Basic
import Automata.Run.Machine

namespace Automata

/-- Whether a move reads a symbol. Epsilon is never read. -/
def Transition.reads (t : Transition) (symbol : Char) : Bool :=
  !t.isEpsilon && t.symbol = symbol

namespace Deterministic

/-- The state after a symbol. Of several moves the first is taken. -/
def successor (g : Graph) (id : StateId) (symbol : Char) : Option StateId :=
  ((g.movesFrom id).find? (·.reads symbol)).map (·.target)

/-- Stops a run that has read its whole input. -/
def settle (g : Graph) (r : Run StateId) : Run StateId :=
  if r.atEnd then r.finish .endOfInput (g.isAccepting r.current) else r

/-- A run on an input, from a given state. -/
def start (g : Graph) (origin : StateId) (input : List Char) : Run StateId :=
  settle g { input := input, current := origin }

/-- Reads one symbol. A finished run stays as it is. -/
def step (g : Graph) (r : Run StateId) : Run StateId :=
  if r.isFinished then r
  else
    match r.symbol? with
    | none => settle g r
    | some symbol =>
      match successor g r.current symbol with
      | none => r.finish .noTransition false
      | some next => settle g (r.advance next)

/-- The machine that is in one state of the graph at a time. -/
def machine (g : Graph) : Machine StateId := ⟨start g, step g⟩

end Deterministic

end Automata
