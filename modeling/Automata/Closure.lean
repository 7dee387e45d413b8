import Automata.Exploration
import Automata.Graph.Basic

namespace Automata

/-- A set of states. -/
abbrev Frontier := SortedSet StateId

/-- The states at the far ends of the given moves. -/
def followUp (moves : List Transition) : Expansion StateId where
  next id := (moves.filter (·.source = id)).map (·.target)
  finite := ⟨moves.map (·.target), fun _ _ h => by
    obtain ⟨t, ht, rfl⟩ := List.mem_map.1 h
    exact List.mem_map_of_mem (List.mem_filter.1 ht).1⟩

/-- All states that can be reached from a state along the given moves, that state included. A move
that reads nothing counts like any other. -/
def reachable (moves : List Transition) (start : StateId) : Frontier :=
  .ofList ((followUp moves).reach [start])

namespace Graph

/-- The moves that read nothing. -/
def epsilonMoves (g : Graph) : List Transition := g.transitions.filter (·.isEpsilon)

/-- All states that can be reached from a set of states without reading anything. -/
def epsilonClosure (g : Graph) (seeds : Frontier) : Frontier :=
  .ofList ((followUp g.epsilonMoves).reach seeds.toList)

end Graph

/-- Closures of single states that were computed before. -/
structure ClosureCache where
  known : List (StateId × Frontier) := []

namespace ClosureCache

/-- The closure of a state, and the cache with it. -/
def closureOf (g : Graph) (cache : ClosureCache) (id : StateId) : Frontier × ClosureCache :=
  match cache.known.lookup id with
  | some closure => (closure, cache)
  | none =>
    let closure := g.epsilonClosure (.singleton id)
    (closure, ⟨(id, closure) :: cache.known⟩)

/-- The closure of a set, put together from those of its members, and the cache with them. -/
def closureOfSet (g : Graph) (cache : ClosureCache) (ids : Frontier) : Frontier × ClosureCache :=
  ids.toList.foldl (fun (closure, cache) id =>
    let (more, cache) := cache.closureOf g id
    (closure ∪ more, cache)) (∅, cache)

end ClosureCache

end Automata
