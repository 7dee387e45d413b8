import Automata.Closure

namespace Automata

/-- What the depth-first search for everything that can be reached without
reading keeps between two turns: the states that it has found, and those of them
whose moves are still to be followed. The top of the stack stands first. -/
structure DepthFirst where
  found : Frontier
  stack : List StateId

namespace DepthFirst

/-- Before the first turn the seeds are found, each once. They are pushed in ascending order. -/
def start (seeds : List StateId) : DepthFirst where
  found := .ofList seeds
  stack := (SortedSet.ofList seeds).toList.reverse

/-- Pushes the state that a move leads to, if the move reads nothing and the state is new. -/
def follow (d : DepthFirst) (t : Transition) : DepthFirst :=
  if t.isEpsilon ∧ t.target ∉ d.found then
    { found := d.found.insert t.target, stack := t.target :: d.stack }
  else d

/-- One turn: a state is taken off the stack and its moves are followed in order. Nothing is left
to do once the stack is empty. -/
def turn (g : Graph) (d : DepthFirst) : DepthFirst :=
  match d.stack with
  | [] => d
  | id :: stack => (g.movesFrom id).foldl follow { d with stack }

end DepthFirst

/-- The search from some seeds after so many turns. -/
def Graph.closureWithin (g : Graph) (seeds : List StateId) (n : Nat) : DepthFirst :=
  Nat.repeat (DepthFirst.turn g) n (.start seeds)

end Automata
