import Automata.Json.Parser

namespace Automata

namespace Toml

open Json (Reader hexValue?)

/-- The line after leading blanks. -/
def skipBlanks (cs : List Char) : List Char :=
  cs.dropWhile fun c => c = ' ' || c = '\t'

/-- Whether nothing but blanks and a comment is left of a line. -/
def isBlankRest (cs : List Char) : Bool :=
  match skipBlanks cs with
  | [] => true
  | '#' :: comment => comment.all fun c => c = '\t' || (0x20 ≤ c.toNat && c.toNat ≠ 0x7f)
  | _ => false

/-- The character with a number given by hexadecimal digits. -/
def hexChar? (digits : List Char) : Option Char := do
  let n ← digits.foldlM (fun n c => (hexValue? c).map (n * 16 + ·)) 0
  if n.isValidChar then some (Char.ofNat n) else none

/-- The character that stands after a backslash for another one. -/
def unescape? : Char → Option Char
  | 'e' => some '\x1b'
  | '/' => none
  | c => Json.unescape? c

/-- The rest of a basic string up to its closing quote. What was read before is given, the latest
first. -/
def readText (before : List Char) : Reader String
  | [] => none
  | '"' :: rest => some (String.ofList before.reverse, rest)
  | '\\' :: 'x' :: a :: b :: rest =>
    match hexChar? [a, b] with
    | some char => readText (char :: before) rest
    | none => none
  | '\\' :: 'u' :: a :: b :: c :: d :: rest =>
    match hexChar? [a, b, c, d] with
    | some char => readText (char :: before) rest
    | none => none
  | '\\' :: 'U' :: a :: b :: c :: d :: e :: f :: g :: h :: rest =>
    match hexChar? [a, b, c, d, e, f, g, h] with
    | some char => readText (char :: before) rest
    | none => none
  | '\\' :: c :: rest =>
    match unescape? c with
    | some char => readText (char :: before) rest
    | none => none
  | c :: rest =>
    if c ≠ '\t' && (c.toNat < 0x20 || c.toNat = 0x7f) then none else readText (c :: before) rest

/-- Whether a key may contain a character without quotes. -/
def isKeyChar (c : Char) : Bool := c.isAlphanum || c = '_' || c = '-'

/-- A key, with or without quotes. -/
def readKey : Reader String := fun cs =>
  match cs with
  | '"' :: rest => readText [] rest
  | _ =>
    match cs.takeWhile isKeyChar with
    | [] => none
    | key => some (String.ofList key, cs.dropWhile isKeyChar)

/-- Digits in a base, among which single underscores may stand. -/
def digits? (base : Nat) (cs : List Char) : Option Nat :=
  let wellSpaced := cs.head? ≠ some '_' && cs.getLast? ≠ some '_' &&
    (cs.zip cs.tail).all fun (a, b) => !(a = '_' && b = '_')
  let digits := cs.filter (· ≠ '_')
  if wellSpaced && !digits.isEmpty then
    digits.foldlM (fun n c => do
      let d ← hexValue? c
      if d < base then some (n * base + d) else none) 0
  else none

/-- Digits in base ten without superfluous zeros. -/
def decimal? (cs : List Char) : Option Nat :=
  if cs.head? = some '0' && cs ≠ ['0'] then none else digits? 10 cs

/-- An integer of 128 bits, signed or not. -/
def integer? (cs : List Char) : Option Int := do
  let n : Int ← match cs with
    | '+' :: cs => (decimal? cs).map Int.ofNat
    | '-' :: cs => (decimal? cs).map fun n => -(n : Int)
    | '0' :: 'x' :: cs => (digits? 16 cs).map Int.ofNat
    | '0' :: 'o' :: cs => (digits? 8 cs).map Int.ofNat
    | '0' :: 'b' :: cs => (digits? 2 cs).map Int.ofNat
    | cs => (decimal? cs).map Int.ofNat
  if -170141183460469231731687303715884105728 ≤ n &&
      n ≤ 340282366920938463463374607431768211455 then some n
  else none

/-- A value. -/
def readScalar : Reader Json := fun cs =>
  match cs with
  | '"' :: rest => (readText [] rest).map fun (text, rest) => (.str text, rest)
  | _ =>
    let isEnd := fun c => c = ' ' || c = '\t' || c = '#'
    let word := cs.takeWhile (!isEnd ·)
    let rest := cs.dropWhile (!isEnd ·)
    match String.ofList word with
    | "true" => some (.bool true, rest)
    | "false" => some (.bool false, rest)
    | _ => (integer? word).map fun n => (.int n, rest)

/-- What one line says. -/
inductive Line where
  | blank
  | section (name : String)
  | entry (key : String) (value : Json)

/-- Reads a line. -/
def Line.read? (cs : List Char) : Option Line :=
  if isBlankRest cs then some .blank
  else
    match skipBlanks cs with
    | '[' :: rest => do
      let (name, rest) ← readKey (skipBlanks rest)
      match skipBlanks rest with
      | ']' :: rest => if isBlankRest rest then some (.section name) else none
      | _ => none
    | cs => do
      let (key, rest) ← readKey cs
      match skipBlanks rest with
      | '=' :: rest =>
        let (value, rest) ← readScalar (skipBlanks rest)
        if isBlankRest rest then some (.entry key value) else none
      | _ => none

/-- The entries read so far, the latest section and the latest entry first. Entries before any
section stand in a section without a name. -/
abbrev Document := List (Option String × List (String × Json))

/-- Adds a line. -/
def Document.add? (doc : Document) : Line → Option Document
  | .blank => some doc
  | .section name =>
    let taken := doc.any fun (other, entries) =>
      other = some name || (other.isNone && (entries.lookup name).isSome)
    if taken then none else some ((some name, []) :: doc)
  | .entry key value =>
    match doc with
    | [] => some [(none, [(key, value)])]
    | (name, entries) :: rest =>
      if (entries.lookup key).isSome then none else some ((name, (key, value) :: entries) :: rest)

/-- The document as one object. -/
def Document.toJson (doc : Document) : Json :=
  .obj (doc.reverse.flatMap fun (name, entries) =>
    match name with
    | none => entries.reverse
    | some name => [(name, .obj entries.reverse)])

/-- A line without its end, which is a line feed that a carriage return may precede. -/
def withoutEnd (line : List Char) : List Char :=
  match line.reverse with
  | '\n' :: '\r' :: cs | '\n' :: cs => cs.reverse
  | _ => line

/-- The lines of a text, each without its end. -/
def lines (cs : List Char) : List (List Char) :=
  (cs.splitBy fun a _ => a ≠ '\n').map withoutEnd

/-- The object that a whole text describes. The text may begin with a byte order
mark. This is the part of TOML that settings files use: sections, which become
objects, and keys with integers, truth values and basic strings. A key or a
section must not be repeated. -/
def parse? (text : String) : Option Json :=
  let cs := match text.toList with
    | '\ufeff' :: cs => cs
    | cs => cs
  ((lines cs).foldlM (fun (doc : Document) line => do doc.add? (← Line.read? line)) []).map
    Document.toJson

end Toml

end Automata
