import ScriptTrace.Number.Basic

/-!
# The shortest decimal of a number

Of all decimal fractions that round to a given number, those with the fewest digits are the
multiples of the largest power of ten that has a multiple among them.  The search below goes down
through the powers of ten and stops at the first that has a multiple in the interval of fractions
that round to the number; of two neighbours in the interval the nearer one is taken.

Everything is counted in quarters of the last place of the significand, so that the two ends of the
interval are whole: half a place above, and half a place below, or a quarter below when the number
is the least one with its exponent.  The ends belong to the interval when the significand is even.

* `Decimal`: a decimal fraction.
* `Number.shortest`: the shortest decimal of a finite number other than zero.
-/

namespace ScriptTrace

/-- The decimal fraction `digits · 10^exponent`. -/
structure Decimal where
  digits : Nat
  exponent : Int
  deriving DecidableEq, Repr

/-- Where a value in the middle between two decimals goes. -/
inductive Tie where
  /-- To the greater neighbour. -/
  | up
  /-- To the neighbour with the even last digit. -/
  | even
  deriving DecidableEq, Repr

/-- The interval of fractions that round to a number, with the number in it: all over one
denominator. -/
structure Interval where
  low : Nat
  value : Nat
  high : Nat
  denominator : Nat
  /-- Whether the two ends belong to the interval. -/
  closed : Bool

namespace Interval

/-- Whether `n / denominator` lies in the interval. -/
def contains (i : Interval) (n : Nat) : Bool :=
  if i.closed then i.low ≤ n && n ≤ i.high else i.low < n && n < i.high

/-- The interval with all its fractions divided by a power of ten. -/
def scale (i : Interval) (exponent : Int) : Interval :=
  if 0 ≤ exponent then { i with denominator := i.denominator * Nat.pow 10 exponent.toNat }
  else
    let p := Nat.pow 10 (-exponent).toNat
    { i with low := i.low * p, value := i.value * p, high := i.high * p }

/-- The whole number in the interval that is nearest to the value, if there is one. -/
def nearestWhole? (tie : Tie) (i : Interval) : Option Nat :=
  let below := i.value / i.denominator
  let above := below + 1
  let rest := i.value % i.denominator
  match i.contains (below * i.denominator), i.contains (above * i.denominator) with
  | false, false => none
  | true, false => some below
  | false, true => some above
  | true, true =>
    if 2 * rest < i.denominator then some below
    else if 2 * rest > i.denominator then some above
    else match tie with
      | .up => some above
      | .even => if below % 2 = 0 then some below else some above

/-- The first multiple of a power of ten in the interval, the exponent going down from `exponent`
for at most `steps` powers. -/
def search (tie : Tie) (i : Interval) : Nat → Int → Decimal
  | 0, exponent => ⟨0, exponent⟩
  | steps + 1, exponent =>
    match (i.scale exponent).nearestWhole? tie with
    | some n => ⟨n, exponent⟩
    | none => search tie i steps (exponent - 1)

end Interval

namespace Number

/-- The interval of fractions that round to a finite number. -/
def interval (x : Number) : Interval :=
  let m := x.significand
  let below := if x.fraction = 0 ∧ 1 < x.exponentField then 1 else 2
  { low := (4 * m - below) * x.multiplier
    value := 4 * m * x.multiplier
    high := (4 * m + 2) * x.multiplier
    denominator := 4 * x.denominator
    closed := m % 2 = 0 }

/-- The decimal with the fewest digits that rounds to the magnitude of a finite number other than
zero.  The search starts at a power of ten above the number, since `2^3 < 10`, and the grid of
`10^(-345)` is finer than any interval, so it ends with an answer. -/
def shortest (tie : Tie) (x : Number) : Decimal :=
  let start := x.wholePart.log2 / 3 + 1
  x.interval.search tie (start + 346) start

end Number

end ScriptTrace
