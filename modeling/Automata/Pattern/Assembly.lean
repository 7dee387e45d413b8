import Automata.Graph.Basic
import Automata.Pattern.Token

namespace Automata

/-- The entry and the exit of a part of a graph. No move leads back to the entry
or away from the exit while the part is alone, which is why parts can be joined
by silent moves without disturbing each other. -/
structure Fragment where
  entry : Nat
  exit : Nat
deriving DecidableEq

/-- A graph under construction: how many states it has, its moves with the latest first, and the
fragments that wait to be joined, the latest first. -/
structure Assembly where
  size : Nat := 0
  moves : List Transition := []
  fragments : List Fragment := []

namespace Assembly

/-- Adds a move. -/
def move (source target : Nat) (symbol : Char) (a : Assembly) : Assembly :=
  { a with moves := { source := source, target := target, symbol := symbol } :: a.moves }

/-- Adds a move that reads nothing. -/
def silent (source target : Nat) (a : Assembly) : Assembly :=
  a.move source target epsilon

/-- Adds a fragment between two new states that reads one of several symbols. -/
def symbols (members : List Char) (a : Assembly) : Assembly :=
  let fragment : Fragment := ⟨a.size, a.size + 1⟩
  members.foldl (fun a c => a.move fragment.entry fragment.exit c)
    { a with size := a.size + 2, fragments := fragment :: a.fragments }

/-- Adds a new entry before a fragment and a new exit after it, and hands both to the rest of the
construction. -/
def wrap (inner : Fragment) (waiting : List Fragment)
    (finish : Fragment → Assembly → Assembly) (a : Assembly) : Assembly :=
  let outer : Fragment := ⟨a.size, a.size + 1⟩
  finish outer
    (({ a with size := a.size + 2, fragments := outer :: waiting }.silent outer.entry
      inner.entry).silent inner.exit outer.exit)

/-- Applies an operator to the latest fragment. -/
def unary (operator : Char) (join : Fragment → List Fragment → Assembly → Assembly)
    (a : Assembly) : Except PatternError Assembly :=
  match a.fragments with
  | [] => .error (.missingOperand operator)
  | inner :: waiting => .ok (join inner waiting a)

/-- Applies an operator to the latest two fragments, of which the later is the right one. -/
def binary (operator : Char) (join : Fragment → Fragment → List Fragment → Assembly → Assembly)
    (a : Assembly) : Except PatternError Assembly :=
  match a.fragments with
  | right :: left :: waiting => .ok (join left right waiting a)
  | _ => .error (.missingOperand operator)

/-- Reads one token. -/
def read (a : Assembly) : Token → Except PatternError Assembly
  | .literal c => .ok (a.symbols [c])
  | .oneOf members => .ok (a.symbols members)
  | .concat => a.binary '.' fun left right waiting a =>
    { a with fragments := ⟨left.entry, right.exit⟩ :: waiting }.silent left.exit right.entry
  | .alternation => a.binary '|' fun left right waiting => wrap left waiting fun outer a =>
    (a.silent outer.entry right.entry).silent right.exit outer.exit
  | .star => a.unary '*' fun inner waiting => wrap inner waiting fun outer a =>
    (a.silent outer.entry outer.exit).silent inner.exit inner.entry
  | .plus => a.unary '+' fun inner waiting => wrap inner waiting fun _ a =>
    a.silent inner.exit inner.entry
  | .question => a.unary '?' fun inner waiting => wrap inner waiting fun outer a =>
    a.silent outer.entry outer.exit
  | .openGroup position | .closeGroup position => .error (.mismatchedParenthesis position)

/-- The graph of a finished construction, which has exactly one fragment. -/
def toGraph (a : Assembly) : Except PatternError Graph :=
  match a.fragments with
  | [] => .error .emptyPattern
  | [fragment] => .ok
    { states := (List.range a.size).map fun (i : Nat) =>
        { id := i, isStart := i = fragment.entry, isAccepting := i = fragment.exit }
      transitions := a.moves.reverse }
  | _ => .error (.missingOperand '.')

/-- The graph for tokens in the order of evaluation. -/
def build (tokens : List Token) : Except PatternError Graph := do
  (← tokens.foldlM read {}).toGraph

end Assembly

end Automata
