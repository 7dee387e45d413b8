import Automata.Execution
import Automata.Graph.Edit
import Automata.Minimization.Quotient

namespace Automata

namespace Table

/-- The block of a state, or the given fault if there is no row for it. -/
def blockAt (t : Table) (p : Partition) (fault : Fault) (id : StateId) : Except Fault Nat :=
  match t.blockOf? p id with
  | some block => .ok block
  | none => .error fault

/-- What a round looks at in a row. -/
def rowSignature (t : Table) (p : Partition) (row : Row) (block : Nat) :
    Except Fault (Nat × List (Option Nat)) := do
  let targets ← row.successors.mapM fun
    | none => pure none
    | some id => some <$> t.blockAt p .missingKey id
  return (block, targets)

/-- What a round looks at in all rows. -/
def signaturesChecked (t : Table) (p : Partition) :
    Except Fault (List (Nat × List (Option Nat))) :=
  (t.rows.zip p.blocks).mapM fun (row, block) => t.rowSignature p row block

/-- One round of refinement. -/
def roundChecked (t : Table) (p : Partition) : Except Fault Partition :=
  Partition.ofKeys <$> t.signaturesChecked p

/-- A computation on every member of a list yields as many results as there are
members. -/
theorem length_of_mapM_eq_ok {α β : Type} {f : α → Except Fault β} {as : List α} {bs : List β}
    (h : as.mapM f = .ok bs) : bs.length = as.length := by
  induction as generalizing bs with
  | nil =>
    cases h
    rfl
  | cons a as ih =>
    rw [List.mapM_cons] at h
    cases hfirst : f a with
    | error cause =>
      rw [hfirst] at h
      cases h
    | ok b =>
      cases hrest : as.mapM f with
      | error cause =>
        rw [hfirst, hrest] at h
        cases h
      | ok rest =>
        rw [hfirst, hrest] at h
        cases h
        exact congrArg Nat.succ (ih hrest)

/-- A checked round makes no more blocks than there are rows. -/
theorem count_roundChecked_le {t : Table} {p next : Partition} (h : t.roundChecked p = .ok next) :
    next.count ≤ t.rows.length := by
  unfold roundChecked at h
  cases hkeys : t.signaturesChecked p with
  | error cause =>
    rw [hkeys] at h
    cases h
  | ok keys =>
    rw [hkeys] at h
    cases h
    refine Nat.le_trans (length_fresh_le _ _) ?_
    rw [length_of_mapM_eq_ok hkeys, List.length_zip]
    exact Nat.min_le_left _ _

/-- Rounds of refinement until one splits no block. -/
def refineCheckedFrom (t : Table) (p : Partition) : Except Fault Partition :=
  match _round : t.roundChecked p with
  | .error fault => .error fault
  | .ok next => if _more : p.count < next.count then t.refineCheckedFrom next else .ok next
termination_by t.rows.length - p.count
decreasing_by
  have hbound := count_roundChecked_le _round
  omega

/-- The partition into blocks of states that no input tells apart. -/
def refineChecked (t : Table) : Except Fault Partition :=
  t.refineCheckedFrom t.initialPartition

/-- The row of a state. -/
def rowAt (t : Table) (id : StateId) : Except Fault Row :=
  match t.rows.find? (·.state = id) with
  | some row => .ok row
  | none => .error (.missingRow id)

/-- The state that a block becomes. -/
def blockState (t : Table) (id : StateId) (members : Frontier) : Except Fault State := do
  let rows ← members.toList.mapM t.rowAt
  return { id, isStart := rows.any (·.isInitial), isAccepting := rows.any (·.isFinal) }

/-- Adds the state that a block becomes. -/
def addBlock (t : Table) (graph : Graph) (group : StateId × Frontier) : Except Fault Graph := do
  (graph.addState (← t.blockState group.1 group.2)).mapError .graph

/-- The moves between blocks that a row stands for. -/
def rowMoves (t : Table) (p : Partition) (row : Row) :
    Except Fault (List (StateId × Char × StateId)) :=
  let moves := (t.symbols.zip row.successors).filterMap fun (symbol, successor?) =>
    successor?.map fun id => (symbol, id)
  moves.mapM fun (symbol, id) => do
    let source ← t.blockAt p (.missingRow row.state) row.state
    let target ← t.blockAt p (.missingRow id) id
    return ((source : StateId), symbol, (target : StateId))

/-- The quotient of a graph by a partition of its table: first all blocks become states, then the
moves between them are added, each once. -/
def quotientChecked (t : Table) (g : Graph) (p : Partition) : Except Fault Quotient := do
  if p.blocks.length ≠ t.rows.length then throw (.unrefined p.blocks.length t.rows.length)
  let q := t.quotient g p
  let graph ← q.groups.foldlM t.addBlock {}
  let moves : SortedSet (StateId × Char × StateId) := .ofList (← t.rows.mapM (t.rowMoves p)).flatten
  let graph ← moves.toList.foldlM (fun graph (source, symbol, target) =>
    (graph.addTransition { source, target, symbol }).mapError .graph) graph
  return { q with graph }

end Table

/-- Drops the states that cannot be reached and merges those that no input tells apart. -/
def Graph.minimizeChecked (g : Graph) : Except Fault Quotient := do
  let t ← (Table.ofGraph g).mapError .graph
  t.quotientChecked g (← t.refineChecked)

end Automata
