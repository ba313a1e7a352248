import QueryTypes.Json.Basic
import QueryTypes.Number.Numeral

/-!
# JSON number tokens

What a number token is worth. Digits without a point or an exponent are an integer when they fit 64
bits, unsigned or with a minus; negative zero and everything larger is a double.

A double is read in two steps, each rounded: the leading digits that fit an unsigned 64-bit integer
become a double, which is then scaled by a power of ten. Digits beyond those are dropped. A token
beyond the range of doubles is refused.
-/

set_option autoImplicit false

namespace QueryTypes.Json

/-- Append digits to a significand as long as it fits 64 bits; the count of digits appended, and
whether some had to be dropped. -/
def takeSignificand : Nat → List Char → Nat × Nat × Bool
  | significand, [] => (significand, 0, false)
  | significand, c :: rest =>
    let next := significand * 10 + (c.toNat - '0'.toNat)
    if next < Numeral.natBound then
      let (significand, count, dropped) := takeSignificand next rest
      (significand, count + 1, dropped)
    else (significand, 0, true)

/-- Scale a double by a power of ten, at most `10 ^ 308` at a time; none beyond the range of
doubles. -/
def scale (x : Double) (exponent : Int) : Option Double :=
  if exponent.natAbs ≤ 308 then
    if 0 ≤ exponent then
      let y := x.mul (.ofDecimal false 1 exponent)
      if y.isInfinite then none else some y
    else some (x.div (.ofDecimal false 1 (-exponent)))
  else if x.magnitude == 0 then some x
  else if 0 ≤ exponent then none
  else scale (x.div (.ofDecimal false 1 308)) (exponent + 308)
termination_by exponent.natAbs
decreasing_by omega

/-- The double of a token's sign, digits before and after the point, and exponent. -/
def readScaled (negative : Bool) (whole fraction : List Char) (exponent : Int) : Option Double := do
  let (significand, count, _) := takeSignificand 0 whole
  let before : Int := whole.length - count
  let (significand, after, _) := takeSignificand significand fraction
  let x ← scale (.ofNat significand) (before - after + exponent)
  some (if negative then x.neg else x)

/-- The value of a token with neither point nor exponent. -/
def readWhole (negative : Bool) (whole : List Char) : Option Json :=
  let n := Numeral.digitsValue whole
  if negative then
    if 0 < n ∧ n ≤ 0x8000000000000000 then some (.int (-(n : Int)))
    else (readScaled true whole [] 0).map .float
  else if n < Numeral.natBound then some (.int n)
  else (readScaled false whole [] 0).map .float

end QueryTypes.Json
