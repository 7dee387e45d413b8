import Automata.Execution
import Automata.Graph.Edit
import Automata.Pattern

namespace Automata

/-- What the construction of a graph keeps between two tokens when every state
and every move goes through the checks of graph editing: the graph so far, the
number of the next state, and the fragments that wait to be joined, the latest
first. -/
structure Draft where
  graph : Graph := {}
  next : Nat := 0
  fragments : List Fragment := []

/-- A computation that refuses some patterns, and that ends the program where a
check fails. -/
abbrev Drafting (α : Type) := ExceptT PatternError (Except Fault) α

/-- A result that is there without any check. -/
def Drafting.ofResult {α : Type} (result : Except PatternError α) : Drafting α :=
  ExceptT.mk (.ok result)

namespace Draft

/-- Adds a state under the next number. -/
def addState (d : Draft) : Except Fault (Nat × Draft) := do
  let graph ← (d.graph.addState { id := d.next }).mapError .graph
  return (d.next, { d with graph, next := d.next + 1 })

/-- Adds a move between two states. -/
def move (source target : Nat) (symbol : Char) (d : Draft) : Except Fault Draft := do
  let graph ← (d.graph.addTransition { source, target, symbol }).mapError .graph
  return { d with graph }

/-- Adds a move that reads nothing. -/
def silent (source target : Nat) (d : Draft) : Except Fault Draft :=
  d.move source target epsilon

/-- Puts a fragment before those that wait. -/
def push (fragment : Fragment) (d : Draft) : Draft :=
  { d with fragments := fragment :: d.fragments }

/-- Adds a fragment between two new states that reads one of several symbols. -/
def symbols (members : List Char) (d : Draft) : Except Fault Draft := do
  let (entry, d) ← d.addState
  let (exit, d) ← d.addState
  let d ← members.foldlM (fun d c => d.move entry exit c) d
  return d.push ⟨entry, exit⟩

/-- Adds a new entry before a fragment and a new exit after it. -/
def wrap (inner : Fragment) (d : Draft) : Except Fault (Fragment × Draft) := do
  let (entry, d) ← d.addState
  let (exit, d) ← d.addState
  let d ← d.silent entry inner.entry
  return (⟨entry, exit⟩, ← d.silent inner.exit exit)

/-- Applies an operator to the latest fragment. -/
def unary (operator : Char) (join : Fragment → Draft → Except Fault Draft) (d : Draft) :
    Drafting Draft :=
  match d.fragments with
  | [] => throw (.missingOperand operator)
  | inner :: fragments => join inner { d with fragments }

/-- Applies an operator to the latest two fragments, of which the later is the
right one. -/
def binary (operator : Char) (join : Fragment → Fragment → Draft → Except Fault Draft)
    (d : Draft) : Drafting Draft :=
  match d.fragments with
  | right :: left :: fragments => join left right { d with fragments }
  | _ => throw (.missingOperand operator)

/-- Reads one token. -/
def read (d : Draft) : Token → Drafting Draft
  | .literal c => d.symbols [c]
  | .oneOf members => d.symbols members
  | .concat => d.binary '.' fun left right d => do
    let d ← d.silent left.exit right.entry
    return d.push ⟨left.entry, right.exit⟩
  | .alternation => d.binary '|' fun left right d => do
    let (outer, d) ← d.wrap left
    let d ← d.silent outer.entry right.entry
    let d ← d.silent right.exit outer.exit
    return d.push outer
  | .star => d.unary '*' fun inner d => do
    let (outer, d) ← d.wrap inner
    let d ← d.silent outer.entry outer.exit
    let d ← d.silent inner.exit inner.entry
    return d.push outer
  | .plus => d.unary '+' fun inner d => do
    let (outer, d) ← d.wrap inner
    let d ← d.silent inner.exit inner.entry
    return d.push outer
  | .question => d.unary '?' fun inner d => do
    let (outer, d) ← d.wrap inner
    let d ← d.silent outer.entry outer.exit
    return d.push outer
  | .openGroup position | .closeGroup position => throw (.mismatchedParenthesis position)

/-- Marks the ends of a fragment as the start state and an accepting one. -/
def mark (fragment : Fragment) (d : Draft) : Except Fault Graph := do
  let graph ← (d.graph.setStart fragment.entry).mapError .graph
  (graph.setAccepting fragment.exit true).mapError .graph

/-- The graph of a finished construction, which has exactly one fragment. -/
def finish (d : Draft) : Drafting Graph :=
  match d.fragments with
  | [] => throw .emptyPattern
  | [fragment] => d.mark fragment
  | _ => throw (.missingOperand '.')

end Draft

/-- The graph for tokens in the order of evaluation, with every step checked. -/
def Assembly.buildChecked (tokens : List Token) : Drafting Graph := do
  (← tokens.foldlM Draft.read {}).finish

/-- The graph for a pattern, with every step of its construction checked. -/
def Pattern.compileChecked (pattern : List Char) : Drafting Graph := do
  let written ← Drafting.ofResult (tokens pattern)
  Assembly.buildChecked (← Drafting.ofResult (Token.toPostfix written))

end Automata
