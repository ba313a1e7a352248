import QueryTypes.Json.Basic
import QueryTypes.Number.Numeral

/-!
# Writing JSON

The text of a document, in one line (`render`) or over several lines with two blanks per level
(`pretty`). Only the quote, the backslash and control characters are escaped. An empty array or
object takes no line of its own.
-/

set_option autoImplicit false

namespace QueryTypes.Json

/-! ## Strings and numbers -/

/-- Two hexadecimal digits of a control character. -/
def hexPair (n : Nat) : List Char := [Nat.digitChar (n / 16), Nat.digitChar (n % 16)]

/-- A character inside quotes. -/
def escapeChar (c : Char) : List Char :=
  if c == '"' then ['\\', '"']
  else if c == '\\' then ['\\', '\\']
  else if c == '\n' then ['\\', 'n']
  else if c == '\r' then ['\\', 'r']
  else if c == '\t' then ['\\', 't']
  else if c.toNat == 0x8 then ['\\', 'b']
  else if c.toNat == 0xC then ['\\', 'f']
  else if c.toNat < 0x20 then ['\\', 'u', '0', '0'] ++ hexPair c.toNat
  else [c]

/-- A string in quotes. -/
def quote (s : String) : String :=
  String.ofList ('"' :: s.toList.flatMap escapeChar ++ ['"'])

/-- A double; one that is not finite is null. -/
def writeFloat (x : Double) : String := if x.isFinite then Numeral.writeDouble x else "null"

/-! ## One line -/

mutual

/-- The value in one line, without blanks. -/
def render : Json → String
  | .null => "null"
  | .bool b => if b then "true" else "false"
  | .int n => toString n
  | .float x => writeFloat x
  | .str s => quote s
  | .arr elems => "[" ++ ",".intercalate (renderList elems) ++ "]"
  | .obj members => "\x7b" ++ ",".intercalate (renderMembers members) ++ "\x7d"

/-- The texts of an array's elements. -/
def renderList : List Json → List String
  | [] => []
  | j :: rest => j.render :: renderList rest

/-- The texts of an object's members. -/
def renderMembers : List (String × Json) → List String
  | [] => []
  | (k, j) :: rest => (quote k ++ ":" ++ j.render) :: renderMembers rest

end

/-! ## Several lines -/

/-- The blanks in front of a line at a level. -/
def indent (level : Nat) : String := String.ofList (List.replicate (2 * level) ' ')

/-- Items between brackets, one a line, indented one level deeper than the brackets. -/
def block (level : Nat) (opening closing : String) (items : List String) : String :=
  if items.isEmpty then opening ++ closing
  else
    let lines := items.map fun item => "\n" ++ indent (level + 1) ++ item
    opening ++ ",".intercalate lines ++ "\n" ++ indent level ++ closing

mutual

/-- The value over several lines, when it starts on a line of the given level. -/
def prettyAt (level : Nat) : Json → String
  | .null => "null"
  | .bool b => if b then "true" else "false"
  | .int n => toString n
  | .float x => writeFloat x
  | .str s => quote s
  | .arr elems => block level "[" "]" (prettyList (level + 1) elems)
  | .obj members => block level "\x7b" "\x7d" (prettyMembers (level + 1) members)

/-- The elements of an array, each over several lines. -/
def prettyList (level : Nat) : List Json → List String
  | [] => []
  | j :: rest => prettyAt level j :: prettyList level rest

/-- The members of an object, each over several lines. -/
def prettyMembers (level : Nat) : List (String × Json) → List String
  | [] => []
  | (k, j) :: rest => (quote k ++ ": " ++ prettyAt level j) :: prettyMembers level rest

end

/-- The value over several lines. -/
def pretty (j : Json) : String := prettyAt 0 j

end QueryTypes.Json
