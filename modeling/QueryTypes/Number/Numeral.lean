import QueryTypes.Number.Double

/-!
# Numerals

Numbers as text. Reading is strict: ASCII digits only, no blanks, no separators, and a value outside
the range of its type is no numeral of it. A decimal numeral is read to the nearest double.

Writing a double takes the fewest digits that read back, and of those the nearest to the value, an
even last digit deciding between two; a number of at most sixteen integer digits is written
positionally, and so is a fraction with at most four zeros after the point; everything else has an
exponent with its sign.
-/

set_option autoImplicit false

namespace QueryTypes.Numeral

/-! ## Digits -/

/-- The value of a list of decimal digits, read from the left after what was read before. -/
def digitsValueFrom (start : Nat) (cs : List Char) : Nat :=
  cs.foldl (fun acc c => acc * 10 + (c.toNat - '0'.toNat)) start

/-- The value of a list of decimal digits. -/
def digitsValue (cs : List Char) : Nat := digitsValueFrom 0 cs

/-- The longest run of digits in front, and the rest. -/
def takeDigits (cs : List Char) : List Char × List Char :=
  (cs.takeWhile Char.isDigit, cs.dropWhile Char.isDigit)

/-- An optional sign in front: whether it is a minus, and the rest. -/
def takeSign : List Char → Bool × List Char
  | '+' :: rest => (false, rest)
  | '-' :: rest => (true, rest)
  | cs => (false, cs)

/-- At least one digit and nothing else. -/
def allDigits? (cs : List Char) : Option Nat :=
  if cs.isEmpty || !cs.all Char.isDigit then none else some (digitsValue cs)

/-! ## Integers -/

/-- The integers of 64 bits with a sign. -/
def fitsInt64 (n : Int) : Bool := -0x8000000000000000 ≤ n && n < 0x8000000000000000

/-- An integer numeral of 64 bits: an optional sign, then digits, leading zeros allowed. -/
def readInt64? (s : String) : Option Int64 := do
  let (negative, digits) := takeSign s.toList
  let n ← allDigits? digits
  let value : Int := if negative then -(n : Int) else n
  if fitsInt64 value then some (Int64.ofInt value) else none

/-- The least natural number that has no 64-bit numeral. -/
def natBound : Nat := 0x10000000000000000

/-- A natural numeral of 64 bits: an optional plus, then digits, leading zeros allowed. -/
def readNat64? (s : String) : Option Nat := do
  let digits := match s.toList with
    | '+' :: rest => rest
    | cs => cs
  let n ← allDigits? digits
  if n < natBound then some n else none

/-! ## Doubles -/

/-- An exponent mark with its exponent, or nothing at all. -/
def readExponent? : List Char → Option Int
  | [] => some 0
  | mark :: rest =>
    if mark == 'e' || mark == 'E' then do
      let (negative, digits) := takeSign rest
      let n ← allDigits? digits
      some (if negative then -(n : Int) else n)
    else none

/-- An unsigned decimal: digits with an optional point, at least one digit in all, and an optional
exponent. Answers the digits as one number and the power of ten they are scaled by. -/
def readDecimal? (cs : List Char) : Option (Nat × Int) := do
  let (whole, rest) := takeDigits cs
  let (fraction, rest) := match rest with
    | '.' :: rest => takeDigits rest
    | rest => ([], rest)
  if whole.isEmpty && fraction.isEmpty then none
  let exponent ← readExponent? rest
  some (digitsValueFrom (digitsValue whole) fraction, exponent - fraction.length)

/-- A double numeral: an optional sign, then a decimal, `inf`, `infinity` or `nan` in any case. -/
def readDouble? (s : String) : Option Double :=
  let (negative, cs) := takeSign s.toList
  let word := String.ofList (cs.map Char.toLower)
  if word == "inf" || word == "infinity" then some (.pack negative Double.infiniteMagnitude)
  else if word == "nan" then some .nan
  else (readDecimal? cs).map fun (digits, exponent) => .ofDecimal negative digits exponent

/-! ## The fewest digits that read back -/

/-- The power of ten of the leading digit of `num / den`, which is not zero. -/
def leadingPower (num den : Nat) : Int :=
  if den ≤ num then ((Nat.toDigits 10 (num / den)).length : Int) - 1
  else -((Nat.toDigits 10 ((den + num - 1) / num - 1)).length : Int)

/-- The decimal `digits · 10 ^ power` counted in half units, as a fraction. -/
def inHalfUnits (digits : Nat) (power : Int) : Nat × Nat :=
  if 0 ≤ power then (digits * Nat.pow 10 power.toNat * (2 * Double.unitsPerOne), 1)
  else (digits * (2 * Double.unitsPerOne), Nat.pow 10 (-power).toNat)

/-- The decimal `digits · 10 ^ power` reads back as the finite magnitude: it lies between the
midpoints to the neighbouring magnitudes, ends included when the magnitude is even. -/
def readsBack (magnitude digits : Nat) (power : Int) : Bool :=
  let (num, den) := inHalfUnits digits power
  let low := (Double.unitsOf (magnitude - 1) + Double.unitsOf magnitude) * den
  let high := (Double.unitsOf magnitude + Double.unitsOf (magnitude + 1)) * den
  if magnitude % 2 == 0 then low ≤ num && num ≤ high else low < num && num < high

/-- The distance of the decimal to the magnitude, in half units over the common denominator. -/
def distance (magnitude digits : Nat) (power : Int) : Nat :=
  let (num, den) := inHalfUnits digits power
  let exact := 2 * Double.unitsOf magnitude * den
  if exact ≤ num then num - exact else exact - num

/-- Of two neighbouring decimals the nearer to the magnitude; of two equally near the even one. -/
def nearer (magnitude d e : Nat) (power : Int) : Nat :=
  match compare (distance magnitude d power) (distance magnitude e power) with
  | .lt => d
  | .gt => e
  | .eq => if d % 2 = 0 then d else e

/-- The decimal of a given number of digits that reads back as the magnitude, the nearer of the two
grid points around it, if one of them does. -/
def withDigits? (magnitude : Nat) (leading : Int) (count : Nat) : Option (Nat × Int) :=
  let power := leading - (count : Int) + 1
  let units := Double.unitsOf magnitude
  let below :=
    if 0 ≤ power then units / (Double.unitsPerOne * Nat.pow 10 power.toNat)
    else units * Nat.pow 10 (-power).toNat / Double.unitsPerOne
  let candidates := [below, below + 1].filter fun d => d != 0 && readsBack magnitude d power
  match candidates with
  | [] => none
  | [d] => some (d, power)
  | d :: e :: _ => some (nearer magnitude d e power, power)

/-- The shortest decimal that reads back as a finite magnitude other than zero: the fewest digits,
and of those the nearest. Seventeen digits always suffice. -/
def shortest (magnitude : Nat) : Nat × Int :=
  let leading := leadingPower (Double.unitsOf magnitude) Double.unitsPerOne
  ((List.range 17).findSome? fun n => withDigits? magnitude leading (n + 1)).getD (0, 0)

/-- Drop the zeros at the end of the digits, which only scale the power. -/
def dropZeros : Nat → Nat → Int → Nat × Int
  | 0, digits, power => (digits, power)
  | fuel + 1, digits, power =>
    if digits != 0 && digits % 10 == 0 then dropZeros fuel (digits / 10) (power + 1)
    else (digits, power)

/-- An exponent with its mark and its sign. -/
def exponentText (n : Int) : String :=
  "e" ++ (if n < 0 then "-" else "+") ++ toString n.natAbs

/-- The layout of a decimal with the point after its first `point` digits. -/
def layout (digits : List Char) (point : Int) : String :=
  let count : Int := digits.length
  if count ≤ point ∧ point ≤ 16 then
    String.ofList (digits ++ List.replicate (point - count).toNat '0') ++ ".0"
  else if 0 < point ∧ point ≤ 16 then
    String.ofList (digits.take point.toNat ++ '.' :: digits.drop point.toNat)
  else if -5 < point ∧ point ≤ 0 then
    "0." ++ String.ofList (List.replicate (-point).toNat '0' ++ digits)
  else
    let exponent := exponentText (point - 1)
    match digits with
    | [] => "0" ++ exponent
    | [d] => String.ofList [d] ++ exponent
    | d :: rest => String.ofList (d :: '.' :: rest) ++ exponent

/-- The text of a finite double. -/
def writeDouble (x : Double) : String :=
  let sign := if x.isNegative then "-" else ""
  if x.magnitude == 0 then sign ++ "0.0"
  else
    let (digits, power) := shortest x.magnitude
    let (digits, power) := dropZeros 17 digits power
    let text := Nat.toDigits 10 digits
    sign ++ layout text (text.length + power)

end QueryTypes.Numeral
