import Automata.Minimization.Table

namespace Automata

/-- A minimized graph, with the new state of every reachable state, the members of every new state,
and counts of the given and of the reachable states. -/
structure Quotient where
  graph : Graph
  mapping : List (StateId × StateId)
  groups : List (StateId × Frontier)
  givenCount : Nat
  reachableCount : Nat
deriving DecidableEq

namespace Table

/-- The rows of a block. -/
def members (t : Table) (p : Partition) (block : Nat) : List Row :=
  ((t.rows.zip p.blocks).filter (·.2 = block)).map (·.1)

/-- The moves between blocks, each once. -/
def blockMoves (t : Table) (p : Partition) : SortedSet (StateId × Char × StateId) :=
  .ofList ((t.rows.zip p.blocks).flatMap fun (row, block) =>
    (t.symbols.zip row.successors).filterMap fun (symbol, successor?) => do
      let target ← t.blockOf? p (← successor?)
      return ((block : StateId), symbol, (target : StateId)))

/-- The graph of the blocks. A block begins a run, or accepts, if one of its members does. -/
def quotientGraph (t : Table) (p : Partition) : Graph where
  states := (List.range p.count).map fun (block : Nat) =>
    { id := block
      isStart := (t.members p block).any (·.isInitial)
      isAccepting := (t.members p block).any (·.isFinal) }
  transitions := (t.blockMoves p).toList.map fun (source, symbol, target) =>
    { source, target, symbol : Transition }

/-- The quotient of a graph by a partition of its table. -/
def quotient (t : Table) (g : Graph) (p : Partition) : Quotient where
  graph := t.quotientGraph p
  mapping := List.zipWith (fun row (block : Nat) => (row.state, (block : StateId))) t.rows p.blocks
  groups := (List.range p.count).map fun (block : Nat) =>
    ((block : StateId), .ofList ((t.members p block).map (·.state)))
  givenCount := g.states.length
  reachableCount := t.rows.length

end Table

/-- Drops the states that cannot be reached and merges those that no input tells apart. There must
be exactly one start state. -/
def Graph.minimize (g : Graph) : Except GraphError Quotient :=
  (Table.ofGraph g).map fun t => t.quotient g t.refine

namespace Quotient

/-- The number of states left. -/
def minimizedCount (q : Quotient) : Nat := q.graph.states.length

/-- Whether no two reachable states were merged. -/
def isAlreadyMinimal (q : Quotient) : Bool := q.minimizedCount = q.reachableCount

/-- One line for each new state with its members, and one with the counts. -/
def report (q : Quotient) : String :=
  let groups := q.groups.map fun (id, members) =>
    s!"q{id} = \x7b" ++ String.intercalate ", " (members.toList.map toString) ++ "\x7d"
  let counts := s!"original states: {q.givenCount}, reachable: {q.reachableCount}, " ++
    "minimized: " ++ toString q.minimizedCount
  String.intercalate "\n" (groups ++ [counts])

end Quotient

/-- How many states a graph has, can reach, and would keep. -/
structure MinimizationCounts where
  given : Nat
  reachable : Nat
  minimized : Nat
deriving DecidableEq

namespace MinimizationCounts

/-- The difference of two counts, if there is one. -/
def difference? (larger smaller : Nat) : Option Nat :=
  if smaller ≤ larger then some (larger - smaller) else none

/-- How many states cannot be reached. A graph may reach more states than it lists, and then there
is no such number. -/
def unreachable? (c : MinimizationCounts) : Option Nat := difference? c.given c.reachable

/-- How many states disappear by merging. -/
def merged? (c : MinimizationCounts) : Option Nat := difference? c.reachable c.minimized

end MinimizationCounts

/-- The counts, without building the minimized graph. -/
def Graph.minimizationCounts (g : Graph) : Except GraphError MinimizationCounts :=
  (Table.ofGraph g).map fun t =>
    { given := g.states.length, reachable := t.rows.length, minimized := t.refine.count }

end Automata
