namespace Automata

/-- A JSON value. A number is an integer or else a decimal. Objects keep their
fields in order, and a field may be repeated. -/
inductive Json where
  | null
  | bool (value : Bool)
  | int (value : Int)
  /-- The mantissa times ten to the exponent. -/
  | decimal (mantissa exponent : Int)
  | str (text : String)
  | arr (items : List Json)
  | obj (fields : List (String × Json))

namespace Json

instance : Inhabited Json := ⟨null⟩

instance : Coe String Json := ⟨str⟩

instance : Coe Bool Json := ⟨bool⟩

/-- A natural number. -/
def nat (n : Nat) : Json := int n

/-- A text of one character. -/
def char (c : Char) : Json := str c.toString

/-- A text given by its characters. -/
def chars (cs : List Char) : Json := str (String.ofList cs)

/-- A value that may be absent. -/
def option {α : Type} (encode : α → Json) : Option α → Json
  | none => null
  | some a => encode a

/-- A list of values. -/
def list {α : Type} (encode : α → Json) (as : List α) : Json := arr (as.map encode)

/-- The value of a field. If the field is repeated, the last one counts. -/
def field? (name : String) : Json → Option Json
  | obj fields => fields.reverse.lookup name
  | _ => none

end Json

end Automata
