/-!
# Doubles

A double-precision number as its 64 bits. Every finite double is a whole number of *units*, the
least positive double `2 ^ (-1074)`; so its magnitude is the natural number `units`, and arithmetic
is exact arithmetic on units followed by one rounding, `ofRatio`, which answers the double nearest
to a fraction with ties going to the even significand.

Two doubles are compared by `rank`: an integer that grows with the value, is the same for both
zeros, and puts every not-a-number above infinity and equal to every other. So the order is total
and all questions about it are questions about integers.

The operations are those that bounds and literals need: sums, products, quotients, powers of ten,
and the ways to and from integers.
-/

set_option autoImplicit false

namespace QueryTypes

/-- A double-precision number, given by its bits. -/
structure Double where
  bits : UInt64
  deriving DecidableEq, Hashable

namespace Double

/-! ## Sign, magnitude, units -/

/-- The sign bit, the highest of the 64. -/
def signBit : Nat := 0x8000000000000000

/-- The lowest bit of the exponent, which is also the leading one of a significand of 53 bits. -/
def exponentBit : Nat := 0x10000000000000

/-- The magnitude of infinity, all bits of the exponent; magnitudes above it are not numbers. -/
def infiniteMagnitude : Nat := 0x7FF0000000000000

/-- The sign bit is set. -/
def isNegative (x : Double) : Bool := signBit ≤ x.bits.toNat

/-- The bits without the sign. -/
def magnitude (x : Double) : Nat := x.bits.toNat % signBit

/-- A double from a sign and a magnitude. -/
def pack (negative : Bool) (magnitude : Nat) : Double :=
  ⟨UInt64.ofNat (magnitude + if negative then signBit else 0)⟩

/-- Not a number. -/
def isNaN (x : Double) : Bool := infiniteMagnitude < x.magnitude

/-- One of the two infinities. -/
def isInfinite (x : Double) : Bool := x.magnitude == infiniteMagnitude

/-- A number that is not infinite. -/
def isFinite (x : Double) : Bool := x.magnitude < infiniteMagnitude

/-- The number of units `2 ^ (-1074)` that a finite magnitude stands for: its significand, with the
leading one of a normal number, shifted by its exponent. -/
def unitsOf (magnitude : Nat) : Nat :=
  let exponent := magnitude / exponentBit
  let fraction := magnitude % exponentBit
  if exponent = 0 then fraction else (exponentBit + fraction) <<< (exponent - 1)

/-- The absolute value of a finite double, in units. -/
def units (x : Double) : Nat := unitsOf x.magnitude

/-- The value of a finite double, in units. -/
def signedUnits (x : Double) : Int := if x.isNegative then -(x.units : Int) else x.units

/-- The number of units in one. -/
def unitsPerOne : Nat := 1 <<< 1074

/-! ## Some doubles -/

/-- Positive zero. -/
def zero : Double := pack false 0

/-- Positive infinity. -/
def infinity : Double := pack false infiniteMagnitude

/-- The quiet not-a-number. -/
def nan : Double := pack false 0x7FF8000000000000

instance : Inhabited Double := ⟨zero⟩

/-! ## Order -/

/-- The place of a double in the total order: by value, both zeros together, not-a-number last. -/
def rank (x : Double) : Int :=
  if x.isNaN then 0x10000000000000000
  else if x.isNegative then -(x.magnitude : Int)
  else x.magnitude

/-- The total order: by value, both zeros equal, not-a-number greatest. -/
protected def cmp (x y : Double) : Ordering := compare x.rank y.rank

/-- Equality of values: both zeros are the same, and so are any two not-a-numbers. -/
def same (x y : Double) : Bool := x.rank == y.rank

/-- The smaller of two doubles; of two equal ones the left. -/
protected def min (x y : Double) : Double := if y.rank < x.rank then y else x

/-- The greater of two doubles; of two equal ones the right. -/
protected def max (x y : Double) : Double := if y.rank < x.rank then x else y

/-! ## Rounding -/

/-- The natural number nearest to a quotient, a tie going to the even one. -/
def roundDiv (num den : Nat) : Nat :=
  let quotient := num / den
  let twice := 2 * (num % den)
  if den < twice || (twice == den && quotient % 2 == 1) then quotient + 1 else quotient

/-- The double nearest to `num / den`, a tie going to the even significand. The fraction is cut to
53 significant bits, or at one unit when it is small; a significand that rounds up to `2 ^ 53`
carries into the exponent by itself, and what reaches the magnitude of infinity is infinite. -/
def ofRatio (negative : Bool) (num den : Nat) : Double :=
  let scaled := num * unitsPerOne
  let shift := (scaled / den).log2 + 1 - 53
  let significand := roundDiv scaled (den <<< shift)
  pack negative (min (significand + shift * exponentBit) infiniteMagnitude)

/-- The double nearest to an integer. -/
def ofInt (n : Int) : Double := ofRatio (n < 0) n.natAbs 1

/-- The double nearest to a natural number. -/
def ofNat (n : Nat) : Double := ofRatio false n 1

/-- One. -/
def one : Double := ofNat 1

/-- Ten. -/
def ten : Double := ofNat 10

/-- The double nearest to `digits · 10 ^ exponent`. Exponents that leave the range of doubles are
answered without computing the power. -/
def ofDecimal (negative : Bool) (digits : Nat) (exponent : Int) : Double :=
  if digits = 0 then pack negative 0
  else if 400 < exponent then pack negative infiniteMagnitude
  else if exponent + (digits.log2 : Int) < -1200 then pack negative 0
  else if 0 ≤ exponent then ofRatio negative (digits * Nat.pow 10 exponent.toNat) 1
  else ofRatio negative digits (Nat.pow 10 (-exponent).toNat)

/-! ## Arithmetic -/

/-- The opposite number. -/
protected def neg (x : Double) : Double := pack (!x.isNegative) x.magnitude

/-- The sum, rounded. -/
protected def add (x y : Double) : Double :=
  if x.isNaN || y.isNaN then nan
  else if x.isInfinite then if y.isInfinite && x.isNegative != y.isNegative then nan else x
  else if y.isInfinite then y
  else
    let sum := x.signedUnits + y.signedUnits
    if sum = 0 then pack (x.isNegative && y.isNegative) 0
    else ofRatio (sum < 0) sum.natAbs unitsPerOne

/-- The difference, rounded. -/
protected def sub (x y : Double) : Double := x.add y.neg

/-- The product, rounded. -/
protected def mul (x y : Double) : Double :=
  let negative := x.isNegative != y.isNegative
  if x.isNaN || y.isNaN then nan
  else if x.isInfinite || y.isInfinite then
    if x.magnitude == 0 || y.magnitude == 0 then nan else pack negative infiniteMagnitude
  else ofRatio negative (x.units * y.units) (unitsPerOne * unitsPerOne)

/-- The quotient, rounded. -/
protected def div (x y : Double) : Double :=
  let negative := x.isNegative != y.isNegative
  if x.isNaN || y.isNaN then nan
  else if x.isInfinite then if y.isInfinite then nan else pack negative infiniteMagnitude
  else if y.isInfinite then pack negative 0
  else if y.magnitude == 0 then
    if x.magnitude == 0 then nan else pack negative infiniteMagnitude
  else ofRatio negative x.units y.units

/-- Multiply an accumulator by a power with a natural exponent, by repeated squaring. -/
def powNatFrom (acc base : Double) (n : Nat) : Double :=
  let acc := if n % 2 = 1 then acc.mul base else acc
  if n / 2 = 0 then acc else powNatFrom acc (base.mul base) (n / 2)
termination_by n
decreasing_by omega

/-- A power of ten by repeated squaring, every product rounded; a negative exponent takes the
reciprocal at the end. -/
def tenPow (n : Int) : Double :=
  let power := powNatFrom one ten n.natAbs
  if n < 0 then one.div power else power

/-! ## To integers -/

/-- The value without its fraction, for a finite double. -/
def truncate (x : Double) : Int := x.signedUnits.tdiv unitsPerOne

/-- The value is finite and has no fraction. -/
def isIntegral (x : Double) : Bool := x.isFinite && x.units % unitsPerOne == 0

/-- The value without its fraction, brought into a range; not-a-number becomes zero. -/
def clampToInt (low high : Int) (x : Double) : Int :=
  if x.isNaN then 0
  else if x.isInfinite then if x.isNegative then low else high
  else max low (min high x.truncate)

/-- The bits as sixteen hexadecimal digits. -/
def hex (x : Double) : String :=
  let digits := Nat.toDigits 16 x.bits.toNat
  String.ofList (List.replicate (16 - digits.length) '0' ++ digits)

/-! ## Laws of the order -/

/-- Doubles are the same exactly when they have one rank. -/
theorem same_iff {x y : Double} : x.same y = true ↔ x.rank = y.rank := by
  simp [same]

@[simp] theorem same_refl (x : Double) : x.same x = true := by simp [same]

/-- The smaller of two doubles is below both. -/
theorem rank_min (x y : Double) : (x.min y).rank = min x.rank y.rank := by
  unfold Double.min
  split <;> omega

/-- The greater of two doubles is above both. -/
theorem rank_max (x y : Double) : (x.max y).rank = max x.rank y.rank := by
  unfold Double.max
  split <;> omega

end Double

end QueryTypes
