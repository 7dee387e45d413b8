import Automata.Determinization
import Automata.Execution

namespace Automata

namespace Determinization

/-- Gives the next number to a set. -/
def enter (g : Graph) (isStart : Bool) (f : Frontier) (d : Determinization) :
    Except Fault Determinization := do
  let id : StateId := d.frontiers.length
  let state : State := { id, isStart, isAccepting := Frontier.isAccepting g f }
  let graph ← (d.graph.addState state).mapError .graph
  return { graph, frontiers := d.frontiers ++ [f] }

/-- The number of a set. -/
def number (d : Determinization) (f : Frontier) : Except Fault Nat :=
  match d.frontiers.idxOf? f with
  | some n => .ok n
  | none => .error .missingKey

/-- The number of a set, which is entered if it is new. -/
def numbered (g : Graph) (f : Frontier) (d : Determinization) :
    Except Fault (Nat × Determinization) :=
  match d.frontiers.idxOf? f with
  | some n => return (n, d)
  | none => return (d.frontiers.length, ← d.enter g false f)

/-- Adds the move from a numbered set on a symbol, unless it leads nowhere. -/
def expandOn (silence : Silence) (g : Graph) (source : Nat) (f : Frontier) (d : Determinization)
    (symbol : Char) : Except Fault Determinization := do
  let next := Frontier.move silence g f symbol
  if next.isEmpty then return d
  let (target, d) ← d.numbered g next
  let graph ← (d.graph.addTransition { source, target, symbol }).mapError .graph
  return { d with graph }

/-- Adds the moves from a set on all symbols. -/
def expand (silence : Silence) (g : Graph) (symbols : List Char) (d : Determinization)
    (f : Frontier) : Except Fault Determinization := do
  let source ← d.number f
  symbols.foldlM (expandOn silence g source f) d

end Determinization

/-- The deterministic graph of the sets that can be reached from the start
state, each put together as it is met. The sets leave the queue in the order of
their discovery. Every state and every move goes through the checks of graph
editing, which end the program if they fail. -/
def Graph.determinizeChecked (g : Graph) (silence : Silence) : Except Fault Determinization := do
  let origin ← g.soleStart.mapError .graph
  let symbols := g.alphabet.toList
  let first := Frontier.initial silence g origin
  let d ← Determinization.enter g true first ⟨{}, []⟩
  ((Frontier.followUpSets silence g symbols).reach [first]).foldlM
    (Determinization.expand silence g symbols) d

end Automata
