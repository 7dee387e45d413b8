import Automata.Json.Number

namespace Automata

namespace Json

/-- Something that takes a value off the front of a text, if there is one. -/
abbrev Reader (α : Type) := List Char → Option (α × List Char)

/-- The text after leading blanks. -/
def skipBlanks (cs : List Char) : List Char :=
  cs.dropWhile fun c => c = ' ' || c = '\n' || c = '\t' || c = '\r'

/-- The value of a hexadecimal digit. -/
def hexValue? (c : Char) : Option Nat :=
  if '0' ≤ c && c ≤ '9' then some (c.toNat - '0'.toNat)
  else if 'a' ≤ c && c ≤ 'f' then some (c.toNat - 'a'.toNat + 10)
  else if 'A' ≤ c && c ≤ 'F' then some (c.toNat - 'A'.toNat + 10)
  else none

/-- The value of four hexadecimal digits. -/
def hexUnit? (a b c d : Char) : Option Nat := do
  return (((← hexValue? a) * 16 + (← hexValue? b)) * 16 + (← hexValue? c)) * 16 + (← hexValue? d)

/-- The character of a code unit that is not one half of a pair. -/
def unitChar? (unit : Nat) : Option Char :=
  if 0xD800 ≤ unit && unit ≤ 0xDFFF then none else some (Char.ofNat unit)

/-- The character of a pair of code units. Escaped surrogates must come in
pairs. -/
def pairChar? (high low : Nat) : Option Char :=
  if 0xD800 ≤ high && high ≤ 0xDBFF && 0xDC00 ≤ low && low ≤ 0xDFFF then
    some (Char.ofNat (0x10000 + (high - 0xD800) * 0x400 + (low - 0xDC00)))
  else none

/-- The character that stands after a backslash for another one. -/
def unescape? : Char → Option Char
  | '"' => some '"'
  | '\\' => some '\\'
  | '/' => some '/'
  | 'b' => some '\x08'
  | 'f' => some '\x0c'
  | 'n' => some '\n'
  | 'r' => some '\r'
  | 't' => some '\t'
  | _ => none

/-- The rest of a text up to its closing quote. What was read before is given, the latest first. -/
def readText (before : List Char) : Reader String
  | [] => none
  | '"' :: rest => some (String.ofList before.reverse, rest)
  | '\\' :: 'u' :: a :: b :: c :: d :: '\\' :: 'u' :: e :: f :: g :: h :: rest =>
    match hexUnit? a b c d with
    | none => none
    | some unit =>
      match unitChar? unit with
      | some char => readText (char :: before) ('\\' :: 'u' :: e :: f :: g :: h :: rest)
      | none =>
        match (hexUnit? e f g h).bind (pairChar? unit) with
        | some char => readText (char :: before) rest
        | none => none
  | '\\' :: 'u' :: a :: b :: c :: d :: rest =>
    match (hexUnit? a b c d).bind unitChar? with
    | some char => readText (char :: before) rest
    | none => none
  | '\\' :: c :: rest =>
    match unescape? c with
    | some char => readText (char :: before) rest
    | none => none
  | c :: rest => if c.toNat < 0x20 then none else readText (c :: before) rest

/-- The digits at the front of a text, at least one. -/
def readDigits : Reader (List Char) := fun cs =>
  match cs.takeWhile Char.isDigit with
  | [] => none
  | digits => some (digits, cs.dropWhile Char.isDigit)

/-- An exponent with its sign, if one follows. -/
def readExponent : Reader (Option Int) := fun cs =>
  match cs with
  | c :: rest =>
    if c = 'e' || c = 'E' then
      match rest with
      | '-' :: rest => (readDigits rest).map fun (ds, rest) => (some (-digitsValue ds), rest)
      | '+' :: rest => (readDigits rest).map fun (ds, rest) => (some (digitsValue ds), rest)
      | rest => (readDigits rest).map fun (ds, rest) => (some (digitsValue ds), rest)
    else some (none, cs)
  | [] => some (none, [])

/-- The digits after a point, if one follows. -/
def readFraction : Reader (Option (List Char)) := fun cs =>
  match cs with
  | '.' :: rest => (readDigits rest).map fun (ds, rest) => (some ds, rest)
  | _ => some (none, cs)

/-- A number whose sign has been read. Its integral part has no superfluous zero. -/
def readNumber (negative : Bool) : Reader Json := fun cs => do
  let (whole, rest) ← readDigits cs
  if whole.length > 1 && whole.head? = some '0' then none
  else
    let (fraction, rest) ← readFraction rest
    let (exponent, rest) ← readExponent rest
    return (← number? negative whole fraction exponent, rest)

/-- The items of a list after its opening bracket, up to the closing one. Every item uses up some
text, so the length of the text bounds their number. -/
def readItems (readValue : Reader Json) (before : List Json) : Nat → Reader (List Json)
  | 0, _ => none
  | n + 1, cs => do
    let (item, rest) ← readValue cs
    match skipBlanks rest with
    | ',' :: rest => readItems readValue (item :: before) n rest
    | ']' :: rest => some ((item :: before).reverse, rest)
    | _ => none

/-- The fields of an object after its opening brace, up to the closing one. -/
def readFields (readValue : Reader Json) (before : List (String × Json)) :
    Nat → Reader (List (String × Json))
  | 0, _ => none
  | n + 1, cs =>
    match skipBlanks cs with
    | '"' :: rest => do
      let (name, rest) ← readText [] rest
      match skipBlanks rest with
      | ':' :: rest => do
        let (value, rest) ← readValue rest
        match skipBlanks rest with
        | ',' :: rest => readFields readValue ((name, value) :: before) n rest
        | '}' :: rest => some (((name, value) :: before).reverse, rest)
        | _ => none
      | _ => none
    | _ => none

/-- A value, in which lists and objects are nested at most so deep. -/
def readValue : Nat → Reader Json
  | depth, cs =>
    match skipBlanks cs with
    | 'n' :: 'u' :: 'l' :: 'l' :: rest => some (null, rest)
    | 't' :: 'r' :: 'u' :: 'e' :: rest => some (bool true, rest)
    | 'f' :: 'a' :: 'l' :: 's' :: 'e' :: rest => some (bool false, rest)
    | '"' :: rest => (readText [] rest).map fun (text, rest) => (str text, rest)
    | '-' :: rest => readNumber true rest
    | '[' :: rest =>
      match depth with
      | 0 => none
      | depth + 1 =>
        match skipBlanks rest with
        | ']' :: rest => some (arr [], rest)
        | rest => (readItems (readValue depth) [] rest.length rest).map fun (items, rest) =>
          (arr items, rest)
    | '{' :: rest =>
      match depth with
      | 0 => none
      | depth + 1 =>
        match skipBlanks rest with
        | '}' :: rest => some (obj [], rest)
        | rest => (readFields (readValue depth) [] rest.length rest).map fun (fields, rest) =>
          (obj fields, rest)
    | rest => readNumber false rest

/-- How deep lists and objects may be nested. -/
def maxDepth : Nat := 127

/-- The value that a whole text describes. -/
def parse? (text : String) : Option Json :=
  match readValue maxDepth text.toList with
  | some (value, rest) => if (skipBlanks rest).isEmpty then some value else none
  | none => none

end Json

end Automata
