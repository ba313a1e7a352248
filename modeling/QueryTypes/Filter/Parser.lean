import QueryTypes.Filter.Basic
import QueryTypes.Text.Blank

/-!
# The text of filters

A filter is written as a path of members and elements (`.a.b[0]`, `.a[]`), a string or a number, an
array or an object of filters, or one of the functions `empty`, `length` and `map`; filters are
joined by commas and, binding less, by bars.
-/

set_option autoImplicit false

namespace QueryTypes.Filter

/-! ## Tokens -/

/-- A token of a filter. -/
inductive Token where
  /-- A dot with a member name. -/
  | field (name : String)
  | dot
  | name (s : String)
  | string (s : String)
  | number (digits : List Char)
  | punct (c : Char)
  deriving DecidableEq

/-- What may start a name. -/
def startsName (c : Char) : Bool := c.isAlpha || c == '_'

/-- What may continue a name. -/
def continuesName (c : Char) : Bool := c.isAlphanum || c == '_'

/-- The characters that are tokens of their own. -/
def isPunct (c : Char) : Bool := "[]\x7b\x7d(),|:-".toList.contains c

/-- The character with four hexadecimal digits as its code, which is no half of a pair. -/
def codeChar? (digits : List Char) : Option Char := do
  let values ← digits.mapM Json.Reader.hexDigit?
  let code := values.foldl (fun code d => code * 16 + d) 0
  if 0xD800 ≤ code && code ≤ 0xDFFF then none else some (Char.ofNat code)

/-- The text of a string after its opening quote, and the rest after the closing one. Every
character but the quote and the backslash stands for itself. -/
def takeString : List Char → Option (List Char × List Char)
  | [] => none
  | '"' :: rest => some ([], rest)
  | '\\' :: 'u' :: a :: b :: c :: d :: rest => do
    let first ← codeChar? [a, b, c, d]
    let (text, rest) ← takeString rest
    return (first :: text, rest)
  | '\\' :: letter :: rest => do
    let first ← Json.Reader.shortEscape? letter
    let (text, rest) ← takeString rest
    return (first :: text, rest)
  | c :: rest =>
    if c == '\\' then none
    else do
      let (text, rest) ← takeString rest
      return (c :: text, rest)

/-- A fraction in front of a text, which may be missing, and the rest. -/
def takeFraction : List Char → List Char × List Char
  | '.' :: rest => ('.' :: rest.takeWhile Char.isDigit, rest.dropWhile Char.isDigit)
  | cs => ([], cs)

/-- An exponent in front of a text, which may be missing, and the rest. -/
def takeExponent : List Char → List Char × List Char
  | mark :: rest =>
    if mark == 'e' || mark == 'E' then
      let (sign, rest) := match rest with
        | '+' :: rest => (['+'], rest)
        | '-' :: rest => (['-'], rest)
        | rest => ([], rest)
      (mark :: sign ++ rest.takeWhile Char.isDigit, rest.dropWhile Char.isDigit)
    else ([], mark :: rest)
  | [] => ([], [])

/-- A number in front of a text that starts with a digit, and the rest. -/
def takeNumber (cs : List Char) : List Char × List Char :=
  let (whole, rest) := Numeral.takeDigits cs
  let (fraction, rest) := takeFraction rest
  let (exponent, rest) := takeExponent rest
  (whole ++ fraction ++ exponent, rest)

/-- A token in front of a text without leading blanks, and the rest. -/
def takeToken : List Char → Option (Token × List Char)
  | [] => none
  | '.' :: c :: rest =>
    if startsName c then
      some (.field (String.ofList (c :: rest.takeWhile continuesName)),
        rest.dropWhile continuesName)
    else some (.dot, c :: rest)
  | ['.'] => some (.dot, [])
  | '"' :: rest => (takeString rest).map fun (text, rest) => (.string (String.ofList text), rest)
  | c :: rest =>
    if startsName c then
      some (.name (String.ofList (c :: rest.takeWhile continuesName)), rest.dropWhile continuesName)
    else if c.isDigit then
      let (digits, rest) := takeNumber (c :: rest)
      some (.number digits, rest)
    else if isPunct c then some (.punct c, rest)
    else none

/-- The tokens of a text of at most a given length. -/
def tokensTo : Nat → List Char → Option (List Token)
  | 0, cs => if cs.isEmpty then some [] else none
  | n + 1, cs =>
    match Text.dropBlanks cs with
    | [] => some []
    | cs => do
      let (token, rest) ← takeToken cs
      let tokens ← tokensTo n rest
      return token :: tokens

/-- The tokens of a text. -/
def tokens? (s : String) : Option (List Token) := tokensTo s.length s.toList

/-! ## Constants -/

/-- The value of a number: an integer of 64 bits if it is one, otherwise what its text is as a
document. -/
def numberValue? (digits : List Char) : Option Json :=
  match Numeral.readInt64? (String.ofList digits) with
  | some n => some (.int n.toInt)
  | none => Json.read? (String.ofList digits)

/-- The opposite of a number; one that is no integer of 64 bits is a double. -/
def negativeValue? (digits : List Char) : Option Json :=
  match Numeral.readInt64? (String.ofList digits) with
  | some n => some (.int (-n.toInt))
  | none => (Numeral.readDouble? (String.ofList digits)).map fun x => .float x.neg

/-- A number with its sign or a string in front. -/
def takeConstant? : List Token → Option (Json × List Token)
  | .number digits :: rest => (numberValue? digits).map fun value => (value, rest)
  | .punct '-' :: .number digits :: rest => (negativeValue? digits).map fun value => (value, rest)
  | .string s :: rest => some (.str s, rest)
  | _ => none

/-- The token in front, which is dropped. -/
def expect (c : Char) : List Token → Option (List Token)
  | .punct d :: rest => if d = c then some rest else none
  | _ => none

/-! ## Suffixes -/

/-- A suffix in front: a member, an entry or all of them. -/
def takeSuffix : List Token → Option (Filter × List Token)
  | .field name :: rest => some (.field name, rest)
  | .dot :: .string name :: rest => some (.field name, rest)
  | .punct '[' :: .punct ']' :: rest => some (.iterate, rest)
  | .punct '[' :: rest => do
    let (key, rest) ← takeConstant? rest
    let rest ← expect ']' rest
    return (.entry key, rest)
  | _ => none

/-- A filter followed by at most a given number of suffixes. -/
def withSuffixes : Nat → Filter → List Token → Filter × List Token
  | 0, f, ts => (f, ts)
  | n + 1, f, ts =>
    match takeSuffix ts with
    | some (g, rest) => withSuffixes n (.pipe f g) rest
    | none => (f, ts)

/-! ## Filters -/

mutual

/-- Filters joined by bars; inside an object they are not joined by commas. -/
def takePipe : Nat → Bool → List Token → Option (Filter × List Token)
  | 0, _, _ => none
  | n + 1, commas, ts => do
    let (f, ts) ← takeBoth n commas ts
    match ts with
    | .punct '|' :: rest => do
      let (g, rest) ← takePipe n commas rest
      return (.pipe f g, rest)
    | _ => return (f, ts)

/-- Filters joined by commas. -/
def takeBoth : Nat → Bool → List Token → Option (Filter × List Token)
  | 0, _, _ => none
  | n + 1, commas, ts => do
    let (f, ts) ← takeAtom n ts
    let (f, ts) := withSuffixes ts.length f ts
    match commas, ts with
    | true, .punct ',' :: rest => do
      let (g, rest) ← takeBoth n commas rest
      return (.both f g, rest)
    | _, _ => return (f, ts)

/-- A filter without suffixes. -/
def takeAtom : Nat → List Token → Option (Filter × List Token)
  | 0, _ => none
  | n + 1, ts =>
    match ts with
    | .dot :: .string name :: rest => some (.field name, rest)
    | .dot :: rest => some (.identity, rest)
    | .field name :: rest => some (.field name, rest)
    | .punct '[' :: .punct ']' :: rest => some (.constant (.arr []), rest)
    | .punct '[' :: rest => do
      let (f, rest) ← takePipe n true rest
      let rest ← expect ']' rest
      return (.collect f, rest)
    | .punct '(' :: rest => do
      let (f, rest) ← takePipe n true rest
      let rest ← expect ')' rest
      return (f, rest)
    | .punct '\x7b' :: .punct '\x7d' :: rest => some (.constant (.obj []), rest)
    | .punct '\x7b' :: rest => do
      let (entries, rest) ← takeEntries n rest
      return (.construct entries, rest)
    | .name "empty" :: rest => some (.empty, rest)
    | .name "length" :: rest => some (.length, rest)
    | .name "null" :: rest => some (.constant .null, rest)
    | .name "true" :: rest => some (.constant (.bool true), rest)
    | .name "false" :: rest => some (.constant (.bool false), rest)
    | .name "map" :: .punct '(' :: rest => do
      let (f, rest) ← takePipe n true rest
      let rest ← expect ')' rest
      return (map f, rest)
    | ts => (takeConstant? ts).map fun (value, rest) => (.constant value, rest)

/-- The entries of an object up to its closing brace, before which a comma may stand. -/
def takeEntries : Nat → List Token → Option (List (Filter × Filter) × List Token)
  | 0, _ => none
  | n + 1, ts => do
    let (first, ts) ← takeEntry n ts
    match ts with
    | .punct '\x7d' :: rest | .punct ',' :: .punct '\x7d' :: rest => return ([first], rest)
    | .punct ',' :: rest => do
      let (entries, rest) ← takeEntries n rest
      return (first :: entries, rest)
    | _ => none

/-- An entry of an object: a key with a value, or a key that is also the member it takes. -/
def takeEntry : Nat → List Token → Option ((Filter × Filter) × List Token)
  | 0, _ => none
  | n + 1, ts =>
    match ts with
    | .name key :: .punct ':' :: rest | .string key :: .punct ':' :: rest => do
      let (value, rest) ← takePipe n false rest
      return ((.constant (.str key), value), rest)
    | .name key :: rest | .string key :: rest =>
      some ((.constant (.str key), .field key), rest)
    | .punct '(' :: rest => do
      let (key, rest) ← takePipe n true rest
      let rest ← expect ')' rest
      let rest ← expect ':' rest
      let (value, rest) ← takePipe n false rest
      return ((key, value), rest)
    | _ => none

end

/-- The filter of a text. -/
def ofString? (s : String) : Option Filter := do
  let ts ← tokens? s
  let (f, rest) ← takePipe (4 * ts.length + 4) true ts
  if rest.isEmpty then some f else none

end QueryTypes.Filter
