import Automata.Determinization.Checked

namespace Automata

/-- What the loop of the subset construction keeps between two turns: the graph
that is put together so far, the number of each set that was met, the set of
each number, and the sets whose moves are still to be added. -/
structure Worklist where
  graph : Graph := {}
  numbers : List (Frontier × StateId) := []
  frontiers : List (StateId × Frontier) := []
  queue : List Frontier := []

namespace Worklist

/-- Gives the next number to a set and puts the set at the end of the queue. The graph refuses a
number that is taken, so neither list gets a second entry for a key. -/
def enter (g : Graph) (isStart : Bool) (f : Frontier) (w : Worklist) : Except Fault Worklist := do
  let id : StateId := w.numbers.length
  let state : State := { id, isStart, isAccepting := Frontier.isAccepting g f }
  let graph ← (w.graph.addState state).mapError .graph
  return {
    graph
    numbers := w.numbers ++ [(f, id)]
    frontiers := w.frontiers ++ [(id, f)]
    queue := w.queue ++ [f] }

/-- The number of a set, which is entered if it is new. -/
def numbered (g : Graph) (f : Frontier) (w : Worklist) : Except Fault (StateId × Worklist) :=
  match w.numbers.lookup f with
  | some id => return (id, w)
  | none => return (w.numbers.length, ← w.enter g false f)

/-- Adds the move from a numbered set on a symbol, unless it leads nowhere. -/
def expandOn (silence : Silence) (g : Graph) (source : StateId) (f : Frontier) (w : Worklist)
    (symbol : Char) : Except Fault Worklist := do
  let next := Frontier.move silence g f symbol
  if next.isEmpty then return w
  let (target, w) ← w.numbered g next
  let graph ← (w.graph.addTransition { source, target, symbol }).mapError .graph
  return { w with graph }

/-- One turn of the loop: the first set leaves the queue, and its moves are added. Nothing is left
to do once the queue is empty. -/
def turn (silence : Silence) (g : Graph) (w : Worklist) : Except Fault Worklist :=
  match w.queue with
  | [] => return w
  | f :: queue =>
    match w.numbers.lookup f with
    | none => throw .missingKey
    | some source => g.alphabet.toList.foldlM (expandOn silence g source f) { w with queue }

/-- So many turns. -/
def turns (silence : Silence) (g : Graph) : Nat → Worklist → Except Fault Worklist
  | 0, w => return w
  | n + 1, w => do turns silence g n (← turn silence g w)

end Worklist

/-- The loop of the subset construction after so many turns. It begins with the start set alone in
the queue; there must be exactly one start state. -/
def Graph.determinizeWithin (g : Graph) (silence : Silence) (n : Nat) : Except Fault Worklist := do
  let origin ← g.soleStart.mapError .graph
  let w ← Worklist.enter g true (Frontier.initial silence g origin) {}
  w.turns silence g n

end Automata
