import ScriptTrace.Number.Basic

/-!
# Numerals

The numbers that numerals of the language stand for.  A decimal numeral stands for the nearest
number to the decimal fraction that it spells.  A hexadecimal numeral is read digit by digit, the
value so far being rounded after every digit, so that a long numeral may differ in its last bit from
the nearest number.

* `Number.ofDecimalNumeral?`: digits with an optional point and an optional exponent.
* `Number.ofHexDigits?`: hexadecimal digits.
* `Number.ofNumeral?`: any numeral.
-/

namespace ScriptTrace

/-- The value of a hexadecimal digit. -/
def hexValue? (c : Char) : Option Nat :=
  if '0' ≤ c ∧ c ≤ '9' then some (c.toNat - '0'.toNat)
  else if 'a' ≤ c ∧ c ≤ 'f' then some (c.toNat - 'a'.toNat + 10)
  else if 'A' ≤ c ∧ c ≤ 'F' then some (c.toNat - 'A'.toNat + 10)
  else none

/-- The number that decimal digits spell, most significant first. -/
def decimalValue (digits : List Char) : Nat :=
  digits.foldl (fun n c => 10 * n + (c.toNat - '0'.toNat)) 0

namespace Number

/-- The number that one or more digits spell. -/
def digits? (ds : List Char) : Option Nat :=
  if !ds.isEmpty && ds.all Char.isDigit then some (decimalValue ds) else none

/-- The integer that the text after an exponent mark spells: an optional sign and one or more
digits. -/
def exponentOf? : List Char → Option Int
  | '-' :: ds => (digits? ds).map fun n => -(n : Int)
  | '+' :: ds => (digits? ds).map Int.ofNat
  | ds => (digits? ds).map Int.ofNat

/-- The number that a decimal numeral spells: digits, an optional point with further digits, and
an optional exponent.  There is a digit before or after the point. -/
def ofDecimalNumeral? (cs : List Char) : Option Number := do
  let whole := cs.takeWhile Char.isDigit
  let afterWhole := cs.dropWhile Char.isDigit
  let (part, rest) := match afterWhole with
    | '.' :: more => (more.takeWhile Char.isDigit, more.dropWhile Char.isDigit)
    | more => ([], more)
  let exponent ← match rest with
    | [] => some 0
    | mark :: more => if mark = 'e' ∨ mark = 'E' then exponentOf? more else none
  if whole.isEmpty && part.isEmpty then none
  else some (ofDecimal (decimalValue (whole ++ part)) (exponent - part.length))

/-- The value of a whole number after one more hexadecimal digit, rounded to a number; the infinity
stays what it is. -/
def pushHexDigit (x : Number) (digit : Nat) : Number :=
  if x.isInfinite then x else ofRatio (16 * x.wholePart + digit) 1

/-- The number that one or more hexadecimal digits spell, rounded after every digit. -/
def ofHexDigits? (cs : List Char) : Option Number := do
  let digits ← cs.mapM hexValue?
  if digits.isEmpty then none else some (digits.foldl pushHexDigit zero)

/-- The number that a numeral spells. -/
def ofNumeral? : List Char → Option Number
  | '0' :: 'x' :: cs => ofHexDigits? cs
  | '0' :: 'X' :: cs => ofHexDigits? cs
  | cs => ofDecimalNumeral? cs

end Number

end ScriptTrace
