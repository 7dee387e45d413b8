import Automata.Closure
import Automata.Run.Deterministic

namespace Automata

/-- A reachable state with the states it leads to, one for each symbol of the table. -/
structure Row where
  state : StateId
  isInitial : Bool
  isFinal : Bool
  successors : List (Option StateId)
deriving DecidableEq

/-- The reachable states in ascending order, over the symbols that they read.
Refinement splits their blocks until no input tells two members of a block
apart; a missing move is an outcome of its own. -/
structure Table where
  symbols : List Char
  rows : List Row

/-- The numbers of the rows of a table, and how many different numbers there are. -/
structure Partition where
  blocks : List Nat
  count : Nat
deriving DecidableEq

/-- Numbers values in the order of their first appearance. -/
def Partition.ofKeys {κ : Type} [DecidableEq κ] (keys : List κ) : Partition :=
  let firsts := fresh [] keys
  { blocks := keys.map (firsts.idxOf ·), count := firsts.length }

/-- There are no more fresh values than candidates. -/
theorem length_fresh_le {κ : Type} [DecidableEq κ] (known keys : List κ) :
    (fresh known keys).length ≤ keys.length := by
  induction keys generalizing known with
  | nil => simp [fresh]
  | cons k keys ih =>
    unfold fresh
    split
    · exact Nat.le_succ_of_le (ih known)
    · exact Nat.succ_le_succ (ih (k :: known))

namespace Table

/-- The table of what can be reached from a start state. -/
def ofGraphFrom (g : Graph) (origin : StateId) : Table :=
  let states := reachable g.transitions origin
  let symbols := (SortedSet.ofList ((g.transitions.filter fun t =>
    !t.isEpsilon && decide (t.source ∈ states)).map (·.symbol))).toList
  { symbols := symbols
    rows := states.toList.map fun id =>
      { state := id
        isInitial := id = origin
        isFinal := g.isAccepting id
        successors := symbols.map (Deterministic.successor g id) } }

/-- The table of what can be reached from the start state, of which there must be exactly one. -/
def ofGraph (g : Graph) : Except GraphError Table :=
  g.soleStart.map (ofGraphFrom g)

/-- The block of a state. -/
def blockOf? (t : Table) (p : Partition) (id : StateId) : Option Nat :=
  ((t.rows.map (·.state)).zip p.blocks).lookup id

/-- The first partition: accepting states and others. -/
def initialPartition (t : Table) : Partition :=
  .ofKeys (t.rows.map (·.isFinal))

/-- What a round looks at: the block of each row, and the blocks it leads into. -/
def signatures (t : Table) (p : Partition) : List (Nat × List (Option Nat)) :=
  List.zipWith (fun row block => (block, row.successors.map (·.bind (t.blockOf? p)))) t.rows p.blocks

/-- One round of refinement. -/
def round (t : Table) (p : Partition) : Partition :=
  .ofKeys (t.signatures p)

/-- A round makes no more blocks than there are rows. -/
theorem count_round_le (t : Table) (p : Partition) : (t.round p).count ≤ t.rows.length := by
  refine Nat.le_trans (length_fresh_le _ _) ?_
  rw [signatures, List.length_zipWith]
  exact Nat.min_le_left _ _

/-- Rounds of refinement until one splits no block. There are never more blocks than rows, so there
are at most as many rounds. -/
def refineFrom (t : Table) (p : Partition) : Partition :=
  let next := t.round p
  if _more : p.count < next.count then t.refineFrom next else next
termination_by t.rows.length - p.count
decreasing_by
  have hsplit : p.count < (t.round p).count := _more
  have hbound := t.count_round_le p
  omega

/-- The partition into blocks of states that no input tells apart. -/
def refine (t : Table) : Partition :=
  t.refineFrom t.initialPartition

end Table

end Automata
