import Automata.Closure
import Automata.Run.Deterministic

namespace Automata

/-- Whether a machine also takes moves that read nothing. -/
inductive Silence where
  | ignored
  | followed
deriving DecidableEq

/-- The states a machine is in once it has taken all the silent moves it takes. -/
def Silence.close (silence : Silence) (g : Graph) (f : Frontier) : Frontier :=
  match silence with
  | .ignored => f
  | .followed => g.epsilonClosure f

namespace Frontier

/-- The states after a symbol, before any silent move. -/
def successors (g : Graph) (f : Frontier) (symbol : Char) : Frontier :=
  .ofList ((g.transitions.filter fun t => t.reads symbol && decide (t.source ∈ f)).map (·.target))

/-- Whether a member accepts. -/
def isAccepting (g : Graph) (f : Frontier) : Bool := f.toList.any g.isAccepting

/-- Stops a run that has read its whole input. -/
def settle (g : Graph) (r : Run Frontier) : Run Frontier :=
  if r.atEnd then r.finish .endOfInput (isAccepting g r.current) else r

/-- The states a machine is in before it reads anything. -/
def initial (silence : Silence) (g : Graph) (origin : StateId) : Frontier :=
  silence.close g (.singleton origin)

/-- The states after a symbol. -/
def move (silence : Silence) (g : Graph) (f : Frontier) (symbol : Char) : Frontier :=
  silence.close g (successors g f symbol)

/-- A run on an input, from a given state. -/
def start (silence : Silence) (g : Graph) (origin : StateId) (input : List Char) : Run Frontier :=
  settle g { input := input, current := initial silence g origin }

/-- Reads one symbol. A finished run stays as it is. -/
def step (silence : Silence) (g : Graph) (r : Run Frontier) : Run Frontier :=
  if r.isFinished then r
  else
    match r.symbol? with
    | none => settle g r
    | some symbol =>
      let next := move silence g r.current symbol
      if next.isEmpty then (r.advance next).finish .emptyFrontier false
      else settle g (r.advance next)

/-- The machine that is in a set of states of the graph at a time. -/
def machine (silence : Silence) (g : Graph) : Machine Frontier := ⟨start silence g, step silence g⟩

end Frontier

end Automata
