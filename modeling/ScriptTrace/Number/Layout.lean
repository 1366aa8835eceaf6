import ScriptTrace.Number.Shortest

/-!
# How numbers are written

Three texts of a number: the one that the language shows, the one that a description of a literal
shows, and the one of a JSON document.  All three write the shortest decimal; they differ in where
positional notation ends, in whether a whole number keeps a zero after the point, and in which way a
tie between two shortest decimals goes.

* `Layout`: those decisions.
* `Number.text`: the text that the language shows.
* `Number.literalText`: the text in a description of a literal.
* `Number.jsonText`: the text in a JSON document.
* `toString_inj`: natural numbers, which label objects and count steps, are told apart by their
  texts.
-/

namespace ScriptTrace

/-- The decisions of a way of writing numbers. -/
structure Layout where
  /-- Whether a decimal whose first digit stands at this power of ten is written positionally. -/
  positional : Int → Bool
  /-- Whether a whole number written positionally ends in a point and a zero. -/
  keepsPoint : Bool
  /-- Which of two equally near shortest decimals is written. -/
  tie : Tie

namespace Layout

/-- The language writes positionally from `10^(-6)` to below `10^21`. -/
def shown : Layout :=
  { positional := fun e => -6 ≤ e && e ≤ 20, keepsPoint := false, tie := .up }

/-- A description of a literal is always positional. -/
def literal : Layout :=
  { positional := fun _ => true, keepsPoint := false, tie := .up }

/-- A JSON document writes positionally from `10^(-5)` to below `10^16`, and always with a point. -/
def json : Layout :=
  { positional := fun e => -5 ≤ e && e ≤ 15, keepsPoint := true, tie := .even }

end Layout

namespace Decimal

/-- The digits of a decimal. -/
def digitChars (d : Decimal) : List Char :=
  Nat.toDigits 10 d.digits

/-- The power of ten at which the first digit stands. -/
def leadingExponent (d : Decimal) : Int :=
  d.exponent + d.digitChars.length - 1

/-- The decimal in positional notation. -/
def positionalText (keepsPoint : Bool) (d : Decimal) : String :=
  let digits := d.digitChars
  let lead := d.leadingExponent
  if 0 ≤ d.exponent then
    String.ofList (digits ++ List.replicate d.exponent.toNat '0') ++
      (if keepsPoint then ".0" else "")
  else if 0 ≤ lead then
    String.ofList (digits.take (lead.toNat + 1)) ++ "." ++
      String.ofList (digits.drop (lead.toNat + 1))
  else "0." ++ String.ofList (List.replicate ((-lead).toNat - 1) '0' ++ digits)

/-- The decimal with one digit before the point and a signed exponent. -/
def exponentText (d : Decimal) : String :=
  let lead := d.leadingExponent
  let mantissa := match d.digitChars with
    | [] => ""
    | [c] => c.toString
    | c :: cs => c.toString ++ "." ++ String.ofList cs
  mantissa ++ (if 0 ≤ lead then "e+" else "e-") ++ toString lead.natAbs

/-- The decimal as a layout writes it. -/
def render (layout : Layout) (d : Decimal) : String :=
  if layout.positional d.leadingExponent then d.positionalText layout.keepsPoint
  else d.exponentText

end Decimal

namespace Number

/-- The sign of a number as it is written. -/
def signText (x : Number) : String :=
  if x.isNegative then "-" else ""

/-- A finite number as a layout writes it. -/
def render (layout : Layout) (x : Number) : String :=
  x.signText ++ (if x.isZero then ⟨0, 0⟩ else x.shortest layout.tie : Decimal).render layout

/-- The text that the language shows.  A whole number below `10^21` has all its digits, even those
beyond the shortest decimal, and zero has no sign. -/
def text (x : Number) : String :=
  if x.isNaN then "NaN"
  else if x.isInfinite then x.signText ++ "Infinity"
  else if x.isZero then "0"
  else if x.isWhole && x.wholePart < Nat.pow 10 21 then x.signText ++ toString x.wholePart
  else x.render .shown

/-- The text in a description of a literal. -/
def literalText (x : Number) : String :=
  if x.isNaN then "NaN"
  else if x.isInfinite then x.signText ++ "inf"
  else x.render .literal

/-- The text of a finite number in a JSON document. -/
def jsonText (x : Number) : String :=
  x.render .json

end Number

/-- Different natural numbers have different texts: the digits give the number back. -/
theorem toString_inj {m n : Nat} : toString m = toString n ↔ m = n := by
  -- `Nat.repr_inj` says the same, but no import smaller than that of the whole library reaches it
  refine ⟨fun same => ?_, congrArg toString⟩
  have digits : Nat.toDigits 10 m = Nat.toDigits 10 n := by
    rw [← Nat.toList_repr, ← Nat.toList_repr]
    exact congrArg String.toList same
  calc m = Nat.ofDigitChars 10 (Nat.toDigits 10 m) 0 := Nat.ofDigitChars_ten_toDigits.symm
    _ = Nat.ofDigitChars 10 (Nat.toDigits 10 n) 0 := by rw [digits]
    _ = n := Nat.ofDigitChars_ten_toDigits

end ScriptTrace
