import Automata.Minimization.Quotient
import Automata.Wire.Graph

namespace Automata

/-- Entries that are named by state numbers. -/
def Json.byId {α : Type} (encode : α → Json) (entries : List (StateId × α)) : Json :=
  .obj (entries.map fun (id, a) => (toString id, encode a))

/-- A state number written as text, in the one way it can be written. -/
def idOfText? (text : String) : Option StateId :=
  match text.toInt? with
  | some id => if toString id = text && fitsStateId id then some id else none
  | none => none

/-- Puts an entry into its place among ascending entries. An entry for the same number is
replaced. -/
def insertEntry {α : Type} (id : StateId) (a : α) : List (StateId × α) → List (StateId × α)
  | [] => [(id, a)]
  | (other, b) :: rest =>
    if id < other then (id, a) :: (other, b) :: rest
    else if id = other then (id, a) :: rest
    else (other, b) :: insertEntry id a rest

/-- Entries that are named by state numbers, in the order of the numbers. -/
def Json.toEntries {α : Type} (decode : Json → Decoded α) : Json → Decoded (List (StateId × α))
  | .obj fields => do
    let entries ← fields.mapM fun (name, value) => do
      let some id := idOfText? name | Json.malformed
      return (id, ← decode value)
    return entries.foldl (fun sorted (id, a) => insertEntry id a sorted) []
  | _ => Json.malformed

namespace Quotient

def toJson (q : Quotient) : Json :=
  .obj [
    ("dfa", q.graph.toJson),
    ("stateMapping", .byId .int q.mapping),
    ("mergedStateGroups", .byId (fun members => .list .int members.toList) q.groups),
    ("originalStateCount", .nat q.givenCount),
    ("reachableStateCount", .nat q.reachableCount)]

def ofJson (j : Json) : Decoded Quotient := do
  let fields ← Fields.ofJson
    ["dfa", "stateMapping", "mergedStateGroups", "originalStateCount", "reachableStateCount"] j
  return {
    graph := ← fields.required "dfa" Graph.ofJson
    mapping := ← fields.required "stateMapping" (Json.toEntries Json.toId)
    groups := ← fields.required "mergedStateGroups"
      (Json.toEntries fun members => (members.toList Json.toId).map .ofList)
    givenCount := ← fields.required "originalStateCount" Json.toNat
    reachableCount := ← fields.required "reachableStateCount" Json.toNat }

end Quotient

end Automata
