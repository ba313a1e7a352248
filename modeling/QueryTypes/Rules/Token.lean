import QueryTypes.Number.Numeral
import QueryTypes.Text.Blank
import QueryTypes.Ty.Literals

/-!
# Rule tokens

A rule as it is written: a string of named rules separated by bars, or a rule object. A named rule
has a name and, after a colon, parameters. The parameter of `regex` and `not_regex` takes the rest
of the string, bars included.
-/

set_option autoImplicit false

namespace QueryTypes.Rules

/-! ## Named rules -/

/-- A rule by name, and what stands after its first colon. -/
structure NamedRule where
  name : String
  raw : String
  deriving DecidableEq

namespace NamedRule

/-- The rule of a text. -/
def ofChars (cs : List Char) : NamedRule :=
  let (name, raw) := (Text.cutAt ':' cs).getD (cs, [])
  ⟨Text.lowerAscii (String.ofList (Text.trimChars name)), String.ofList raw⟩

/-- The parameters, separated by commas. -/
def params (r : NamedRule) : List String :=
  if r.raw.isEmpty then [] else (Text.splitOn ',' r.raw).map Text.trim

/-- A parameter as a number. -/
def number (r : NamedRule) (i : Nat) : Option Double := r.params[i]?.bind Numeral.readDouble?

end NamedRule

/-- The text starts with a word, in any case. -/
def startsWithWord (word : String) (cs : List Char) : Bool :=
  word.toList.isPrefixOf (cs.map Char.toLower)

/-- The rule whose parameter takes the rest of the string. -/
def takesRest (piece : List Char) : Bool :=
  let piece := Text.dropBlanks piece
  startsWithWord "regex:" piece || startsWithWord "not_regex:" piece

/-- The text of pieces with bars between them. -/
def joinBars : List (List Char) → List Char
  | [] => []
  | [piece] => piece
  | piece :: rest => piece ++ '|' :: joinBars rest

/-- The rules of pieces between bars. -/
def rulesOfPieces : List (List Char) → List NamedRule
  | [] => []
  | piece :: rest =>
    if takesRest piece then [.ofChars (Text.trimChars (joinBars (piece :: rest)))]
    else
      let text := Text.trimChars piece
      if text.isEmpty then rulesOfPieces rest else .ofChars text :: rulesOfPieces rest

/-- The rules of a string. -/
def splitRules (s : String) : List NamedRule := rulesOfPieces (Text.splitChars '|' s.toList)

/-! ## Rule objects -/

/-- The kinds of rule objects. -/
inductive RuleClass where
  /-- The value is one of the arguments. -/
  | inclusion
  /-- The value is none of the arguments. -/
  | exclusion
  /-- The value belongs to an enumeration. -/
  | enumeration (name : String)
  | password
  | email
  /-- A rule that says nothing about the type. -/
  | other (name : String)
  deriving DecidableEq

/-- A rule object with its typed arguments. -/
structure RuleObject where
  class_ : RuleClass
  args : List Ty := []

/-- A rule as it is written. -/
inductive RuleToken where
  | text (s : String)
  | object (o : RuleObject)

/-- The literals of a rule object's arguments, if all are known. -/
def RuleObject.literals? (o : RuleObject) : Option (List Literal) :=
  (o.args.mapM Ty.literals?).map List.flatten

/-! ## Types by rule -/

/-- The type that a named rule determines. -/
def baseType? : String → Option Ty
  | "array" | "list" => some (.list .unknown)
  | "boolean" | "bool" | "accepted" | "declined" => some .boolean
  | "integer" | "int" | "digits" | "digits_between" => some .integer
  | "numeric" | "decimal" => some .float
  | "string" | "alpha" | "alpha_dash" | "alpha_num" | "json" | "timezone" => some .string
  | "email" => some (.formatted .string "email")
  | "uuid" => some (.formatted .string "uuid")
  | "ulid" => some (.formatted .string "ulid")
  | "url" | "active_url" => some (.formatted .string "uri")
  | "ip" | "ipv4" => some (.formatted .string "ipv4")
  | "ipv6" => some (.formatted .string "ipv6")
  | "date" | "date_format" | "before" | "after" | "before_or_equal" | "after_or_equal" =>
    some (.formatted .string "date")
  | "password" | "current_password" => some (.formatted .string "password")
  | "file" | "image" | "mimes" | "mimetypes" => some (.formatted .string "binary")
  | "object" => some (.object [] none)
  | _ => none

/-- The type that a rule object determines. -/
def RuleClass.baseType? : RuleClass → Option Ty
  | .password => Rules.baseType? "password"
  | .email => Rules.baseType? "email"
  | _ => none

/-! ## Parameters -/

/-- The number of digits as a whole number of 32 bits. -/
def digitCount (n : Double) : Int := n.clampToInt (-0x80000000) 0x7FFFFFFF

/-- The smallest number written with a number of digits; a single digit may be zero. -/
def smallestWithDigits (n : Double) : Double :=
  if n.isNaN || Double.cmp n .one == .gt then .tenPow (digitCount n - 1) else .zero

/-- The largest number written with a number of digits. -/
def largestWithDigits (n : Double) : Double := (Double.tenPow (digitCount n)).sub .one

/-- The list without its last occurrence of a character and what follows; `none` if there is
none. -/
def beforeLast? (c : Char) : List Char → Option (List Char)
  | [] => none
  | d :: rest =>
    match beforeLast? c rest with
    | some init => some (d :: init)
    | none => if d == c then some [] else none

/-- A pattern without the slashes around it and the flags after them; a text without them is
itself. -/
def stripDelimiters (s : String) : String :=
  let text := Text.trimChars s.toList
  let body? := match text with
    | '/' :: body => beforeLast? '/' body
    | _ => none
  String.ofList (body?.getD text)

end QueryTypes.Rules
