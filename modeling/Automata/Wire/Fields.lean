import Automata.Json.Basic
import Automata.Symbol

namespace Automata

/-- Why a JSON value does not describe what it should. -/
inductive WireError where
  | malformed
  /-- A run stands beyond the end of its input. -/
  | positionPastEnd (position length : Nat)
  /-- A run does not have one history entry for every symbol that was read. -/
  | historyMismatch (entries position : Nat)
deriving DecidableEq

/-- The sentence that reports the cause, where there is more to say than that the value is
malformed. -/
def WireError.message? : WireError → Option String
  | malformed => none
  | positionPastEnd position length =>
    some s!"position {position} is past the end of an input of length {length}"
  | historyMismatch entries position =>
    some s!"history has {entries} entries but the position is {position}"

/-- A value taken from JSON, or the reason why not. -/
abbrev Decoded (α : Type) := Except WireError α

namespace Json

/-- The value is not of the expected form. -/
def malformed {α : Type} : Decoded α := .error .malformed

def toBool : Json → Decoded Bool
  | bool b => .ok b
  | _ => malformed

/-- A count or a position, which is a number of 64 bits. -/
def toNat : Json → Decoded Nat
  | int n => if 0 ≤ n && n ≤ 18446744073709551615 then .ok n.toNat else malformed
  | _ => malformed

/-- The number of a state. -/
def toId : Json → Decoded StateId
  | int n => if fitsStateId n then .ok n else malformed
  | _ => malformed

def toText : Json → Decoded String
  | str text => .ok text
  | _ => malformed

/-- A text of exactly one character. -/
def toChar : Json → Decoded Char
  | str text =>
    match text.toList with
    | [c] => .ok c
    | _ => malformed
  | _ => malformed

def toList {α : Type} (decode : Json → Decoded α) : Json → Decoded (List α)
  | arr items => items.mapM decode
  | _ => malformed

/-- A value that is null if it is absent. -/
def toOption {α : Type} (decode : Json → Decoded α) : Json → Decoded (Option α)
  | null => .ok none
  | j => (decode j).map some

/-- The name of an alternative without content. It stands alone, or as an object
that maps the name to null. -/
def toUnitName : Json → Decoded String
  | str name => .ok name
  | obj [(name, null)] => .ok name
  | _ => malformed

end Json

/-- The fields of a record, which is written as an object with named fields, in
any order and among others, or as a list of its fields in their fixed order. -/
structure Fields where
  entries : List (String × Json)
  /-- Whether the record was written as a list, which has to be complete. -/
  positional : Bool

namespace Fields

/-- The fields of a record with the given names. A name must not occur twice, and a list must not be
too long. -/
def ofJson (names : List String) : Json → Decoded Fields
  | .obj entries =>
    if names.all fun name => (entries.filter (·.1 = name)).length ≤ 1 then .ok ⟨entries, false⟩
    else Json.malformed
  | .arr items =>
    if items.length ≤ names.length then .ok ⟨names.zip items, true⟩ else Json.malformed
  | _ => Json.malformed

/-- A field that must be there. -/
def required {α : Type} (fields : Fields) (name : String) (decode : Json → Decoded α) :
    Decoded α :=
  match fields.entries.lookup name with
  | some value => decode value
  | none => Json.malformed

/-- A field that may be missing. -/
def defaulted {α : Type} (fields : Fields) (name : String) (decode : Json → Decoded α) :
    Decoded (Option α) :=
  match fields.entries.lookup name with
  | some value => value.toOption decode
  | none => .ok none

/-- A field that may be missing from an object, but not from a list. -/
def optional {α : Type} (fields : Fields) (name : String) (decode : Json → Decoded α) :
    Decoded (Option α) :=
  if fields.positional then fields.required name (·.toOption decode)
  else fields.defaulted name decode

end Fields

end Automata
