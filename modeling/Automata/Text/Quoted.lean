import Automata.Text.Invisible

namespace Automata

namespace Text

/-- A number in hexadecimal. -/
def hex (n : Nat) : String := String.ofList (Nat.toDigits 16 n)

/-- A character inside the quotes. -/
def quotedChar (c : Char) : String :=
  match c with
  | '\x00' => "\\0"
  | '\t' => "\\t"
  | '\r' => "\\r"
  | '\n' => "\\n"
  | '"' => "\\\""
  | '\\' => "\\\\"
  | c =>
    if 0x20 ≤ c.toNat && c.toNat < 0x7f then c.toString
    else if isInvisible c then "\\u\x7b" ++ hex c.toNat ++ "\x7d"
    else c.toString

/-- A text with its quotes. Every character in it can be told: what cannot be
seen is written by name or by number. -/
def quoted (cs : List Char) : String :=
  "\"" ++ String.join (cs.map quotedChar) ++ "\""

end Text

end Automata
