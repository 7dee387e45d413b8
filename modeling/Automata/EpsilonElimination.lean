import Automata.Graph.Edit
import Automata.Run.Frontier

namespace Automata

namespace Graph

/-- The cache that knows the closure of every state of the graph. -/
def closureCache (g : Graph) : ClosureCache :=
  g.states.foldl (fun cache s => (cache.closureOf g s.id).2) {}

/-- The states that a state reads a symbol into, with the silent moves before and after. -/
def closedSuccessors (g : Graph) (cache : ClosureCache) (id : StateId) (symbol : Char) : Frontier :=
  (cache.closureOfSet g (Frontier.successors g (cache.closureOf g id).1 symbol)).1

/-- Removes the moves that read nothing. A state then reads a symbol into
everything that its closure reads it into, closed again, and accepts if its
closure does; numbers, order and start marks stay. The new graph is put together
like any other, so a graph with repeated numbers, several start states or moves
to unknown states is refused. -/
def eliminateEpsilon (g : Graph) : Except GraphError Graph :=
  let cache := g.closureCache
  let symbols := g.alphabet.toList
  let states := g.states.map fun s =>
    { s with isAccepting := Frontier.isAccepting g (cache.closureOf g s.id).1 }
  let arcs := g.states.flatMap fun s => symbols.flatMap fun symbol =>
    (g.closedSuccessors cache s.id symbol).toList.map fun target => (s.id, symbol, target)
  let transitions := (SortedSet.ofList arcs).toList.map fun (source, symbol, target) =>
    { source, target, symbol : Transition }
  ofParts states transitions

end Graph

end Automata
