import Automata.Automaton
import Automata.Wire.Fields

namespace Automata

namespace State

def toJson (s : State) : Json :=
  .obj [("id", .int s.id), ("isStart", s.isStart), ("isAccepting", s.isAccepting)]

def ofJson (j : Json) : Decoded State := do
  let fields ← Fields.ofJson ["id", "isStart", "isAccepting"] j
  return {
    id := ← fields.required "id" Json.toId
    isStart := ← fields.required "isStart" Json.toBool
    isAccepting := ← fields.required "isAccepting" Json.toBool }

end State

/-- A move as it is written, with the stack action spelled out. A missing action, epsilon and an
empty text all say that nothing is done. -/
structure MoveRecord where
  source : StateId
  target : StateId
  symbol : Char
  pop : Option Char := none
  push : Option String := none
deriving DecidableEq

namespace MoveRecord

/-- A missing stack action is not written. -/
def toJson (r : MoveRecord) : Json :=
  .obj ([("fromStateId", .int r.source), ("toStateId", .int r.target),
    ("symbol", .char r.symbol)] ++
    r.pop.toList.map (fun symbol => ("stackPop", .char symbol)) ++
    r.push.toList.map (fun text => ("stackPush", .str text)))

/-- The record as its fields have it. Null says the same as a missing field. -/
def ofJson (j : Json) : Decoded MoveRecord := do
  let fields ← Fields.ofJson ["fromStateId", "toStateId", "symbol", "stackPop", "stackPush"] j
  return {
    source := ← fields.required "fromStateId" Json.toId
    target := ← fields.required "toStateId" Json.toId
    symbol := ← fields.required "symbol" Json.toChar
    pop := ← fields.defaulted "stackPop" Json.toChar
    push := ← fields.defaulted "stackPush" Json.toText }

/-- The move that a record describes, with every epsilon left out of its stack action. -/
def move (r : MoveRecord) : Transition :=
  .pushdown r.source r.target r.symbol r.pop ((r.push.map String.toList).getD [])

end MoveRecord

namespace Transition

/-- The record of a move. A move that pushes nothing has no text for what it pushes. -/
def record (t : Transition) : MoveRecord where
  source := t.source
  target := t.target
  symbol := t.symbol
  pop := t.pop
  push := if t.push.isEmpty then none else some (String.ofList t.push)

def toJson (t : Transition) : Json := t.record.toJson

/-- Epsilon on the stack stands for nothing, so it is left out when a move is read. -/
def ofJson (j : Json) : Decoded Transition := (MoveRecord.ofJson j).map (·.move)

end Transition

namespace Graph

def jsonFields (g : Graph) : List (String × Json) :=
  [("states", .list State.toJson g.states), ("transitions", .list Transition.toJson g.transitions)]

def toJson (g : Graph) : Json := .obj g.jsonFields

/-- A graph as its fields have it. Only their form is checked: the graph may
repeat state numbers, have any number of start states, and refer to states that
it does not have. -/
def ofJson (j : Json) : Decoded Graph := do
  let fields ← Fields.ofJson ["states", "transitions"] j
  return {
    states := ← fields.required "states" (Json.toList State.ofJson)
    transitions := ← fields.required "transitions" (Json.toList Transition.ofJson) }

end Graph

namespace Kind

/-- The name of a kind in JSON. -/
def wireName : Kind → String
  | dfa => "dfa"
  | nfa => "nfa"
  | epsilonNfa => "epsilon_nfa"
  | pda => "pda"

def ofWireName? (name : String) : Option Kind :=
  [dfa, nfa, epsilonNfa, pda].find? (·.wireName = name)

/-- A kind that stands alone. -/
def ofJson (j : Json) : Decoded Kind := do
  let some kind := ofWireName? (← j.toUnitName) | Json.malformed
  return kind

/-- A kind that tags an automaton, which is always written as plain text. -/
def ofTag (j : Json) : Decoded Kind := do
  let some kind := ofWireName? (← j.toText) | Json.malformed
  return kind

end Kind

namespace Automaton

/-- The kind stands before the graph. Bounds are not written. -/
def toJson (a : Automaton) : Json :=
  .obj (("kind", .str a.kind.wireName) :: a.graph.jsonFields)

/-- A pushdown automaton that is read gets the default bounds. -/
def ofJson (j : Json) : Decoded Automaton := do
  let fields ← Fields.ofJson ["kind", "states", "transitions"] j
  let kind ← fields.required "kind" Kind.ofTag
  let states ← fields.required "states" (Json.toList State.ofJson)
  let transitions ← fields.required "transitions" (Json.toList Transition.ofJson)
  return ofGraph { states, transitions } kind

end Automaton

end Automata
