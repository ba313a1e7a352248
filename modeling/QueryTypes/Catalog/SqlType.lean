import QueryTypes.Text.Blank
import QueryTypes.Text.Word
import QueryTypes.Ty.Basic

/-!
# Column types by name

The type of a column from the name its database gives it: a type name, optional parameters in
parentheses and an optional `unsigned`, in any case and with blanks around every part.
-/

set_option autoImplicit false

namespace QueryTypes.SqlType

/-! ## Reading the text -/

/-- The characters of a type name. -/
def isNameChar (c : Char) : Bool := Text.isLatinLetter c || c == '_' || c == ' '

/-- Parameters in parentheses, without the blanks around them, and the rest. -/
def takeParameters (cs : List Char) : Option (List Char) × List Char :=
  match cs with
  | '(' :: inner =>
    match Text.cutAt ')' inner with
    | some (params, rest) => (some (Text.trimChars params), rest)
    | none => (none, cs)
  | _ => (none, cs)

/-- What may follow a type name up to the end of the text: parameters, `unsigned`, blanks. The
answer is the parameters. -/
def decoration? (cs : List Char) : Option (Option (List Char)) :=
  let (params, rest) := takeParameters (Text.dropBlanks cs)
  let rest := Text.dropBlanks rest
  let rest := (Text.dropWordFolded "unsigned".toList rest).getD rest
  if (Text.dropBlanks rest).isEmpty then some params else none

/-- The shortest type name that is followed by a decoration, continuing what was read, and the
parameters. -/
def splitFrom? (read : List Char) : List Char → Option (List Char × Option (List Char))
  | [] => none
  | c :: rest =>
    if isNameChar c then
      match decoration? rest with
      | some params => some (read ++ [c], params)
      | none => splitFrom? (read ++ [c]) rest
    else none

/-- A type name in small letters and its parameters. -/
def split? (s : String) : Option (String × Option String) :=
  (splitFrom? [] (Text.dropBlanks s.toList)).map fun (name, params) =>
    (Text.lowerAscii (Text.trim (String.ofList name)), params.map String.ofList)

/-! ## Type names -/

/-- The type of a type name in small letters. -/
def ofName? : String → Option Ty
  | "int" | "integer" | "tinyint" | "smallint" | "mediumint" | "bigint" | "serial" | "bigserial"
  | "year" => some .integer
  | "decimal" | "numeric" | "float" | "double" | "double precision" | "real" | "number" =>
    some .float
  | "bool" | "boolean" => some .boolean
  | "date" => some (.formatted .string "date")
  | "datetime" | "timestamp" | "timestamptz" | "timestamp with time zone" =>
    some (.formatted .string "date-time")
  | "time" => some (.formatted .string "time")
  | "uuid" => some (.formatted .string "uuid")
  | "char" | "varchar" | "character varying" | "text" | "tinytext" | "mediumtext" | "longtext"
  | "string" | "enum" | "set" => some .string
  | "json" | "jsonb" => some .unknown
  | _ => none

/-- The type of a column; a `tinyint` of one digit is a truth value. -/
def type? (s : String) : Option Ty :=
  match split? s with
  | some ("tinyint", some "1") => some .boolean
  | some (name, _) => ofName? name
  | none => none

end QueryTypes.SqlType
