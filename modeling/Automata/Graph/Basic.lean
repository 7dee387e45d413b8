import Automata.SortedSet
import Automata.Symbol

namespace Automata

/-- A numbered state. -/
structure State where
  id : StateId
  isStart : Bool := false
  isAccepting : Bool := false
deriving DecidableEq

theorem none_ne_epsilon : (none : Option Char) ≠ some epsilon := nofun

theorem epsilon_notMem_nil : epsilon ∉ ([] : List Char) := nofun

/-- A move from one state to another on a symbol. A pushdown machine also takes a symbol off its
stack, if one is demanded, and then pushes symbols, of which the first ends up on top.

Epsilon stands for "nothing" on the stack as well, so a move never demands it and never pushes it:
moves that act alike are equal. -/
structure Transition where
  source : StateId
  target : StateId
  symbol : Char
  pop : Option Char := none
  push : List Char := []
  pop_ne_epsilon : pop ≠ some epsilon := by exact none_ne_epsilon
  epsilon_notMem_push : epsilon ∉ push := by exact epsilon_notMem_nil
deriving DecidableEq

namespace Transition

/-- A pushdown move, with every epsilon left out of its stack action. -/
def pushdown (source target : StateId) (symbol : Char) (pop : Option Char) (push : List Char) :
    Transition where
  source := source
  target := target
  symbol := symbol
  pop := pop.filter (· ≠ epsilon)
  push := push.filter (· ≠ epsilon)
  pop_ne_epsilon := by cases pop <;> simp [Option.filter]
  epsilon_notMem_push := by simp

/-- Whether the move reads nothing. -/
def isEpsilon (t : Transition) : Bool := t.symbol = epsilon

/-- Whether the move looks at or changes the stack. -/
def hasStackEffect (t : Transition) : Bool := t.pop.isSome || !t.push.isEmpty

/-- The text of a move, such as `0 -a-> 1` or `0 -(, ε/X-> 0`. -/
def toText (t : Transition) : String :=
  let action :=
    if t.hasStackEffect then
      ", " ++ showSymbol (t.pop.getD epsilon) ++ "/" ++
        (if t.push.isEmpty then "ε" else String.ofList t.push)
    else ""
  toString t.source ++ " -" ++ showSymbol t.symbol ++ action ++ "-> " ++ toString t.target

/-- Moves are ordered by source, target, symbol, demanded symbol and pushed symbols. -/
def key (t : Transition) : StateId × StateId × Char × Option Char × List Char :=
  (t.source, t.target, t.symbol, t.pop, t.push)

/-- A move is determined by the fields it is ordered by. -/
theorem key_injective {t u : Transition} (h : t.key = u.key) : t = u := by
  cases t
  cases u
  simp_all [key]

/-- Whether one move comes before another. -/
def before (t u : Transition) : Bool := Ranked.before t.key u.key

end Transition

/-- States and the moves between them, both in the order of insertion. Checked
editing keeps the numbers distinct, at most one start state, and every move
between states that exist. A graph that was read from outside may break all
three. -/
structure Graph where
  states : List State := []
  transitions : List Transition := []
deriving DecidableEq

/-- Why an edit of a graph, or a run on it, is refused. -/
inductive GraphError where
  | duplicateState (id : StateId)
  | secondStart (existing added : StateId)
  | unknownState (id : StateId)
  | unknownEndpoint (source target missing : StateId)
  | noStart
  | severalStarts (ids : List StateId)
deriving DecidableEq

/-- The sentence that reports the cause. -/
def GraphError.message : GraphError → String
  | duplicateState id => s!"a state with id {id} already exists"
  | secondStart existing added =>
    s!"state {added} cannot become a start state, state {existing} already is one"
  | unknownState id => s!"no state with id {id} exists"
  | unknownEndpoint source target missing =>
    s!"transition {source} -> {target} references the unknown state {missing}"
  | noStart => "the automaton has no start state"
  | severalStarts ids =>
    "the automaton has more than one start state: " ++
      String.intercalate ", " (ids.map toString)

namespace Graph

/-- The state with a number. Of several the first counts. -/
def state? (g : Graph) (id : StateId) : Option State := g.states.find? (·.id = id)

/-- Whether some state has the number. -/
def hasState (g : Graph) (id : StateId) : Bool := (g.state? id).isSome

/-- Whether the state with the number accepts. -/
def isAccepting (g : Graph) (id : StateId) : Bool := (g.state? id).any (·.isAccepting)

/-- The numbers of the accepting states, in state order. -/
def acceptingIds (g : Graph) : List StateId := (g.states.filter (·.isAccepting)).map (·.id)

/-- The numbers of the start states, in state order. -/
def startIds (g : Graph) : List StateId := (g.states.filter (·.isStart)).map (·.id)

/-- The first start state. -/
def start? (g : Graph) : Option StateId := g.startIds.head?

/-- The start state, if there is exactly one. -/
def soleStart (g : Graph) : Except GraphError StateId :=
  match g.startIds with
  | [] => .error .noStart
  | [id] => .ok id
  | ids => .error (.severalStarts ids)

/-- The moves that leave a state, in order. -/
def movesFrom (g : Graph) (id : StateId) : List Transition :=
  g.transitions.filter (·.source = id)

/-- The moves labelled with a symbol, in order. -/
def movesOn (g : Graph) (symbol : Char) : List Transition :=
  g.transitions.filter (·.symbol = symbol)

/-- The symbols that moves can read. -/
def alphabet (g : Graph) : SortedSet Char :=
  .ofList ((g.transitions.filter (!·.isEpsilon)).map (·.symbol))

end Graph

end Automata
