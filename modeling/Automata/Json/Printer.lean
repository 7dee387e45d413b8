import Automata.Json.Basic

namespace Automata

namespace Json

/-- A hexadecimal digit in lower case. -/
def hexDigit (n : Nat) : Char := Nat.digitChar n

/-- A character inside a text. Quotes, backslashes and control characters are escaped, anything else
stands for itself. -/
def escapeChar (c : Char) : String :=
  match c with
  | '"' => "\\\""
  | '\\' => "\\\\"
  | '\x08' => "\\b"
  | '\x0c' => "\\f"
  | '\n' => "\\n"
  | '\r' => "\\r"
  | '\t' => "\\t"
  | c =>
    if c.toNat < 0x20 then
      "\\u00" ++ String.ofList [hexDigit (c.toNat / 16), hexDigit (c.toNat % 16)]
    else c.toString

/-- A text with its quotes. -/
def quote (text : String) : String :=
  text.foldl (fun acc c => acc ++ escapeChar c) "\"" ++ "\""

/-- The break before an item or a closing bracket: none in compact text, otherwise a new line with
two blanks for each level of nesting. -/
def lineBreak : Option Nat → String
  | none => ""
  | some level => "\n" ++ String.ofList (List.replicate (2 * level) ' ')

/-- What stands between the name and the value of a field. -/
def fieldSeparator : Option Nat → String
  | none => ":"
  | some _ => ": "

mutual

/-- Appends the text of a value. The level of nesting is given for indented text only. -/
def write (level : Option Nat) (acc : String) : Json → String
  | null => acc ++ "null"
  | bool b => acc ++ if b then "true" else "false"
  | int n => acc ++ toString n
  | decimal mantissa exponent => acc ++ toString mantissa ++ "e" ++ toString exponent
  | str text => acc ++ quote text
  | arr [] => acc ++ "[]"
  | arr (item :: items) =>
    let inner := level.map (· + 1)
    writeItems inner (write inner (acc ++ "[" ++ lineBreak inner) item) items ++
      lineBreak level ++ "]"
  | obj [] => acc ++ "\x7b\x7d"
  | obj ((name, value) :: fields) =>
    let inner := level.map (· + 1)
    writeFields inner
      (write inner (acc ++ "\x7b" ++ lineBreak inner ++ quote name ++ fieldSeparator inner) value)
      fields ++ lineBreak level ++ "\x7d"

/-- Appends further items, each after a comma. -/
def writeItems (level : Option Nat) (acc : String) : List Json → String
  | [] => acc
  | item :: items => writeItems level (write level (acc ++ "," ++ lineBreak level) item) items

/-- Appends further fields, each after a comma. -/
def writeFields (level : Option Nat) (acc : String) : List (String × Json) → String
  | [] => acc
  | (name, value) :: fields =>
    writeFields level
      (write level (acc ++ "," ++ lineBreak level ++ quote name ++ fieldSeparator level) value)
      fields

end

/-- The text without blanks. -/
def compact (j : Json) : String := write none "" j

/-- The text over indented lines. -/
def pretty (j : Json) : String := write (some 0) "" j

end Json

end Automata
