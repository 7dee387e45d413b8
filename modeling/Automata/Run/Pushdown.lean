import Automata.Graph.Basic
import Automata.Run.Machine

namespace Automata

/-- Bounds on a pass of epsilon moves. -/
structure Limits where
  /-- How many moves one pass may take. -/
  epsilonIterations : Nat := 1000
  /-- How many symbols a pass may leave above the bottom of the stack. -/
  stackGrowth : Nat := 1000
deriving DecidableEq

/-- A state with a stack, whose top comes first. -/
structure Configuration where
  state : StateId
  stack : List Char
deriving DecidableEq

/-- The marker at the bottom of every stack. -/
def bottomMarker : Char := '#'

namespace Configuration

/-- A state with nothing but the marker on the stack. -/
def initial (state : StateId) : Configuration := ⟨state, [bottomMarker]⟩

/-- The symbol on top of the stack. -/
def top? (c : Configuration) : Option Char := c.stack.head?

/-- Whether nothing but the marker is left on the stack. -/
def hasEmptyStack (c : Configuration) : Bool := c.stack = [bottomMarker]

/-- Whether the symbol that a move demands, if it demands one, is on top. -/
def canFire (c : Configuration) (t : Transition) : Bool :=
  t.pop.all fun symbol => c.top? = some symbol

/-- The configuration after a move. A demanded symbol is taken off without another look at it. -/
def fire (c : Configuration) (t : Transition) : Configuration where
  state := t.target
  stack := t.push ++ if t.pop.isSome then c.stack.tail else c.stack

/-- The height of the stack after a move. -/
def heightAfter (c : Configuration) (t : Transition) : Nat :=
  c.stack.length - (if t.pop.isSome then 1 else 0) + t.push.length

/-- Whether the state accepts and the stack is empty. -/
def isAccepting (g : Graph) (c : Configuration) : Bool :=
  g.isAccepting c.state && c.hasEmptyStack

/-- The move taken on a symbol, or on epsilon. Moves that demand a symbol on the stack win over
those that do not; among equals the first wins. -/
def select (g : Graph) (c : Configuration) (symbol : Char) : Option Transition :=
  let possible := (g.movesFrom c.state).filter fun t => t.symbol = symbol && c.canFire t
  (possible.find? (·.pop.isSome)).or possible.head?

end Configuration

namespace Pushdown

/-- The epsilon move that a pass would take next. There is none while a move
reads the next symbol. After the input epsilon moves are taken until none
applies, even from an accepting configuration. -/
def silentMove (g : Graph) (next : Option Char) (c : Configuration) : Option Transition :=
  if next.any fun symbol => (c.select g symbol).isSome then none else c.select g epsilon

/-- A pass of epsilon moves: the configuration it ends in, and the bound that stopped it, if one
did. The last bound is the number of moves it may still take. -/
def pass (g : Graph) (next : Option Char) (maxHeight : Nat) :
    Nat → Configuration → Configuration × Option Limit
  | budget, c =>
    match silentMove g next c, budget with
    | none, _ => (c, none)
    | some _, 0 => (c, some .epsilonIterations)
    | some t, budget + 1 =>
      if maxHeight < c.heightAfter t then (c, some .stackGrowth)
      else pass g next maxHeight budget (c.fire t)

/-- Takes the epsilon moves of a run, and stops it at a bound or at the end of
the input. A pass that reaches a bound rejects. -/
def settle (g : Graph) (limits : Limits) (r : Run Configuration) : Run Configuration :=
  let (c, limit) := pass g r.symbol? (limits.stackGrowth + 1) limits.epsilonIterations r.current
  let r := { r with current := c }
  match limit with
  | some limit => r.finish (.limitExceeded limit) false
  | none => if r.atEnd then r.finish .endOfInput (c.isAccepting g) else r

/-- A run on an input, from a given state. -/
def start (g : Graph) (limits : Limits) (origin : StateId) (input : List Char) :
    Run Configuration :=
  settle g limits { input := input, current := .initial origin }

/-- Reads one symbol. A finished run stays as it is. -/
def step (g : Graph) (limits : Limits) (r : Run Configuration) : Run Configuration :=
  if r.isFinished then r
  else
    match r.symbol? with
    | none => settle g limits r
    | some symbol =>
      match r.current.select g symbol with
      | none => r.finish .noTransition false
      | some t => settle g limits (r.advance (r.current.fire t))

/-- The machine that is in one state of the graph and owns a stack. One pass of
epsilon moves comes before the first symbol, and one after every symbol. -/
def machine (g : Graph) (limits : Limits) : Machine Configuration :=
  ⟨start g limits, step g limits⟩

end Pushdown

end Automata
