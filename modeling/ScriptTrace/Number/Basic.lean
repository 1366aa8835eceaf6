/-!
# Numbers

A number of the simulated language is a 64-bit floating-point word.  All arithmetic here is exact
arithmetic on natural numbers: a finite word stands for a fraction, and a fraction is rounded to the
nearest word.

The fields of a word are a sign, eleven bits of exponent and fifty-two bits of fraction.  An
exponent field `e ≥ 1` stands for `(2^52 + fraction) · 2^(e - 1075)`, the exponent field `0` for
`fraction · 2^(-1074)`, and the exponent field `2047` for the infinities and for "not a number".

* `Number.numerator`, `Number.denominator`: the magnitude of a finite number.
* `roundDiv`: the nearest natural number to a quotient, a half going to the even neighbour.
* `Number.ofRatio`: the nearest number to a fraction.
-/

namespace ScriptTrace

/-- A 64-bit floating-point word. -/
structure Number where
  /-- The word. -/
  bits : UInt64
  deriving DecidableEq, Repr

namespace Number

/-! ## Fields of a word -/

/-- The fifty-two lowest bits. -/
def fraction (x : Number) : Nat :=
  x.bits.toNat % Nat.pow 2 52

/-- The eleven bits of exponent. -/
def exponentField (x : Number) : Nat :=
  x.bits.toNat / Nat.pow 2 52 % Nat.pow 2 11

/-- Whether the sign bit is set. -/
def isNegative (x : Number) : Bool :=
  Nat.pow 2 63 ≤ x.bits.toNat

/-- Whether the word stands for no number. -/
def isNaN (x : Number) : Bool :=
  x.exponentField == 2047 && x.fraction != 0

/-- Whether the word stands for one of the two infinities. -/
def isInfinite (x : Number) : Bool :=
  x.exponentField == 2047 && x.fraction == 0

/-- Whether the word stands for a fraction. -/
def isFinite (x : Number) : Bool :=
  x.exponentField != 2047

/-- Whether the word stands for zero, of either sign. -/
def isZero (x : Number) : Bool :=
  x.exponentField == 0 && x.fraction == 0

/-! ## The fraction that a finite word stands for -/

/-- The significand with its leading bit. -/
def significand (x : Number) : Nat :=
  if x.exponentField = 0 then x.fraction else Nat.pow 2 52 + x.fraction

/-- The power of two that multiplies the significand. -/
def multiplier (x : Number) : Nat :=
  Nat.pow 2 (x.exponentField - 1075)

/-- The power of two that divides the significand. -/
def denominator (x : Number) : Nat :=
  Nat.pow 2 (1075 - max x.exponentField 1)

/-- The numerator of the magnitude. -/
def numerator (x : Number) : Nat :=
  x.significand * x.multiplier

/-- Whether a finite number is a whole number. -/
def isWhole (x : Number) : Bool :=
  x.isFinite && x.numerator % x.denominator == 0

/-- The magnitude of a finite number without its fractional part. -/
def wholePart (x : Number) : Nat :=
  x.numerator / x.denominator

/-- The integer that a whole number is. -/
def toInt (x : Number) : Int :=
  if x.isNegative then -(x.wholePart : Int) else x.wholePart

/-! ## Rounding a fraction -/

/-- Zero with a clear sign bit. -/
def zero : Number := ⟨0⟩

/-- The bits of the positive infinity. -/
def infinityBits : Nat := 2047 * Nat.pow 2 52

/-- The positive infinity. -/
def infinity : Number := ⟨infinityBits.toUInt64⟩

/-- The word with the other sign. -/
def negate (x : Number) : Number :=
  ⟨x.bits ^^^ 0x8000000000000000⟩

end Number

/-- The nearest natural number to a quotient, a half going to the even neighbour. -/
def roundDiv (n d : Nat) : Nat :=
  let q := n / d
  let r := n % d
  if d < 2 * r ∨ (2 * r = d ∧ q % 2 = 1) then q + 1 else q

namespace Number

/-- The exponent field under which a fraction is rounded: the least one, from `1` on, that leaves
a quotient of at most fifty-three bits. -/
def roundingField (num den : Nat) : Nat :=
  let e := max 1 (num.log2 + 1022 - den.log2)
  if Nat.pow 2 53 ≤ num * Nat.pow 2 1075 / (den * Nat.pow 2 e) then e + 1 else e

/-- The nearest number to a fraction with a positive denominator, a half going to the even
significand.  A quotient that rounds up to the next power of two carries into the exponent field,
and a word at or beyond the bits of the infinity is the infinity. -/
def ofRatio (num den : Nat) : Number :=
  let e := roundingField num den
  let q := roundDiv (num * Nat.pow 2 1075) (den * Nat.pow 2 e)
  if num = 0 then zero else ⟨(min ((e - 1) * Nat.pow 2 52 + q) infinityBits).toUInt64⟩

/-- The nearest number to `digits · 10^exponent`.  Exponents so large or so small that the digits
cannot bring the product back into range are answered without computing the power. -/
def ofDecimal (digits : Nat) (exponent : Int) : Number :=
  if digits = 0 then zero
  else if exponent > 400 then infinity
  else if exponent < -(400 + (digits.log2 : Int)) then zero
  else if 0 ≤ exponent then ofRatio (digits * Nat.pow 10 exponent.toNat) 1
  else ofRatio digits (Nat.pow 10 (-exponent).toNat)

end Number

end ScriptTrace
