import Automata.Execution
import Automata.Wire.Fields

namespace Automata

namespace Limit

def wireName : Limit → String
  | epsilonIterations => "epsilonIterations"
  | stackGrowth => "stackGrowth"

def ofJson (j : Json) : Decoded Limit := do
  let name ← j.toUnitName
  let some limit := [epsilonIterations, stackGrowth].find? (·.wireName = name) | Json.malformed
  return limit

end Limit

namespace Halt

def toJson : Halt → Json
  | endOfInput => "endOfInput"
  | noTransition => "noTransition"
  | emptyFrontier => "emptyFrontier"
  | limitExceeded limit => .obj [("limitExceeded", .str limit.wireName)]

def ofJson (j : Json) : Decoded Halt :=
  match j with
  | .obj [("limitExceeded", limit)] => (Limit.ofJson limit).map limitExceeded
  | j => do
    match ← j.toUnitName with
    | "endOfInput" => return endOfInput
    | "noTransition" => return noTransition
    | "emptyFrontier" => return emptyFrontier
    | _ => Json.malformed

end Halt

namespace Frontier

def toJson (f : Frontier) : Json := .list .int f.toList

/-- A set may be written in any order, and members may be repeated. -/
def ofJson (j : Json) : Decoded Frontier :=
  (j.toList Json.toId).map .ofList

end Frontier

namespace Configuration

/-- The stack is written from the bottom to the top. -/
def toJson (c : Configuration) : Json :=
  .obj [("state", .int c.state), ("stack", .list .char c.stack.reverse)]

def ofJson (j : Json) : Decoded Configuration := do
  let fields ← Fields.ofJson ["state", "stack"] j
  let state ← fields.required "state" Json.toId
  let stack ← fields.required "stack" (Json.toList Json.toChar)
  return ⟨state, stack.reverse⟩

end Configuration

namespace Run

variable {C : Type}

/-- The history is written from the first configuration to the latest. -/
def toJson (encode : C → Json) (r : Run C) : Json :=
  .obj [
    ("input", .chars r.input),
    ("position", .nat r.position),
    ("isAccepted", .option .bool r.verdict),
    ("halt", .option Halt.toJson r.halt),
    ("current", encode r.current),
    ("history", .list encode r.history.reverse)]

/-- Refuses a run that is not well formed. -/
def check (r : Run C) : Decoded (Run C) :=
  if r.input.length < r.position then .error (.positionPastEnd r.position r.input.length)
  else if r.history.length ≠ r.position then
    .error (.historyMismatch r.history.length r.position)
  else .ok r

/-- A run with whatever its fields say. -/
def ofFields (decode : Json → Decoded C) (j : Json) : Decoded (Run C) := do
  let fields ← Fields.ofJson ["input", "position", "isAccepted", "halt", "current", "history"] j
  let input ← fields.required "input" Json.toText
  let position ← fields.required "position" Json.toNat
  let verdict ← fields.optional "isAccepted" Json.toBool
  let halt ← fields.optional "halt" Halt.ofJson
  let current ← fields.required "current" decode
  let history ← fields.required "history" (Json.toList decode)
  return { input := input.toList, position, verdict, halt, current, history := history.reverse }

/-- A run with one history entry for every symbol before its position, which
stands nowhere beyond its input. Nothing else about it is checked. -/
def ofJson (decode : Json → Decoded C) (j : Json) : Decoded (Run C) := do
  check (← ofFields decode j)

end Run

namespace Execution

/-- What the machine of the run is in. -/
def currentJson : Execution → Json
  | deterministic r => .int r.current
  | frontier r => Frontier.toJson r.current
  | stack r => r.current.toJson

def toJson : Execution → Json
  | deterministic r => .obj [("kind", "deterministic"), ("state", r.toJson .int)]
  | frontier r => .obj [("kind", "frontier"), ("state", r.toJson Frontier.toJson)]
  | stack r => .obj [("kind", "stack"), ("state", r.toJson Configuration.toJson)]

/-- Reads a run of the shape that its tag names. -/
def readWith (readRun : {C : Type} → (Json → Decoded C) → Json → Decoded (Run C)) (j : Json) :
    Decoded Execution := do
  let fields ← Fields.ofJson ["kind", "state"] j
  let shape ← fields.required "kind" Json.toUnitName
  match shape with
  | "deterministic" => return deterministic (← fields.required "state" (readRun Json.toId))
  | "frontier" => return frontier (← fields.required "state" (readRun Frontier.ofJson))
  | "stack" => return stack (← fields.required "state" (readRun Configuration.ofJson))
  | _ => Json.malformed

/-- A run with whatever its fields say. -/
def ofFields : Json → Decoded Execution := readWith Run.ofFields

def ofJson : Json → Decoded Execution := readWith Run.ofJson

end Execution

end Automata
