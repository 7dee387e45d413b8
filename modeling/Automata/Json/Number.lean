import Automata.Json.Basic

namespace Automata

namespace Json

/-- The largest number of 64 bits. -/
def maxWord : Nat := 18446744073709551615

/-- The value of a decimal digit after those of a number. -/
def appendDigit (n : Nat) (digit : Char) : Nat := n * 10 + (digit.toNat - '0'.toNat)

/-- The value of decimal digits. -/
def digitsValue (digits : List Char) : Nat := digits.foldl appendDigit 0

/-- Appends digits to a number as long as 64 bits can hold it. The digits that are left over come
second. -/
def appendDigits (n : Nat) : List Char → Nat × List Char
  | [] => (n, [])
  | digit :: digits =>
    if appendDigit n digit ≤ maxWord then appendDigits (appendDigit n digit) digits
    else (n, digit :: digits)

/-- The nearest number whose binary digits are zeros from the 54th on. Of two that are equally near
it is the one with an even 53rd digit. -/
def roundToDouble (n : Nat) : Nat :=
  let shift := n.log2 - 52
  let kept := n >>> shift
  let unit := 1 <<< shift
  let lost := n - (kept <<< shift)
  if unit < 2 * lost || (unit = 2 * lost && kept % 2 = 1) then (kept + 1) <<< shift
  else kept <<< shift

/-- The least number that rounds to infinity in double precision: half a unit more than the largest
number, whose 53 binary digits are all ones. -/
def infinityThreshold : Nat := ((1 <<< 54) - 1) <<< 970

/-- Whether a decimal is out of range: whether double precision cannot hold the
product of its digits and its power of ten, each of which is rounded before they
are multiplied. -/
def isTooLarge (significand : Nat) (exponent : Int) : Bool :=
  if significand = 0 || exponent < 0 then false
  else if 308 < exponent then true
  else
    infinityThreshold ≤ roundToDouble significand * roundToDouble (Nat.pow 10 exponent.toNat)

/-- A decimal with the given digits before and after the point, unless it is out of range. Every
digit before the point that is left over raises the exponent, every digit after the point that
counts lowers it. -/
def decimal? (negative : Bool) (whole fraction : List Char) (exponent : Int) : Option Json :=
  let (significand, further) := appendDigits 0 whole
  let (significand, unused) := appendDigits significand fraction
  let exponent : Int := exponent + further.length - (fraction.length - unused.length)
  if isTooLarge significand exponent then none
  else some (decimal (if negative then -significand else significand) exponent)

/-- A number without fraction and exponent. -/
def integer? (negative : Bool) (digits : List Char) : Option Json :=
  let value := digitsValue digits
  if negative then
    if 0 < value && value ≤ 9223372036854775808 then some (int (-value))
    else decimal? true digits [] 0
  else if value ≤ maxWord then some (int value)
  else decimal? false digits [] 0

/-- The number with the given parts. Without fraction and exponent it is an
integer, if 64 bits can hold it; minus zero and all other numbers are
decimals. -/
def number? (negative : Bool) (whole : List Char) (fraction? : Option (List Char))
    (exponent? : Option Int) : Option Json :=
  match fraction?, exponent? with
  | none, none => integer? negative whole
  | _, _ => decimal? negative whole (fraction?.getD []) (exponent?.getD 0)

end Json

end Automata
