import QueryTypes.Text.Blank
import QueryTypes.Text.Word

/-!
# Column references

The text of a selected column: `[table.]column [as alias]` with blanks around, where the column may
be `*`. Any other text is a raw expression; it still gives the row a name when it ends in an alias.
-/

set_option autoImplicit false

namespace QueryTypes

/-- A selected column. -/
inductive ColumnRef where
  /-- A column, or `*` for all of them, of an optional table. -/
  | column (table : Option String) (name : String) (label : Option String)
  /-- An expression that is not a plain column. -/
  | raw (text : String) (label : Option String)
  deriving DecidableEq

namespace ColumnRef

/-! ## Reading -/

/-- At least one blank in front, and the rest after all of them. -/
def dropSomeBlanks : List Char → Option (List Char)
  | [] => none
  | c :: rest => if Text.isBlank c then some (Text.dropBlanks rest) else none

/-- An alias in front: blanks, `as` in any case, blanks, an identifier. -/
def takeAlias (cs : List Char) : Option (List Char × List Char) := do
  let cs ← dropSomeBlanks cs
  let cs ← Text.dropWordFolded "as".toList cs
  let cs ← dropSomeBlanks cs
  Text.takeIdent cs

/-- A column in front: `*` or an identifier. -/
def takeColumn : List Char → Option (List Char × List Char)
  | '*' :: rest => some (['*'], rest)
  | cs => Text.takeIdent cs

/-- A table with its dot in front. -/
def takeTable (cs : List Char) : Option (List Char × List Char) :=
  match Text.takeIdent cs with
  | some (table, '.' :: rest) => some (table, rest)
  | _ => none

/-- What follows the column: an alias or nothing, up to blanks. -/
def aliasAtEnd? (cs : List Char) : Option (Option String) :=
  if (Text.dropBlanks cs).isEmpty then some none
  else
    match takeAlias cs with
    | some (ident, rest) =>
      if (Text.dropBlanks rest).isEmpty then some (some (String.ofList ident)) else none
    | none => none

/-- A column after its optional table, up to the end of the text. -/
def columnOf? (table : Option String) (cs : List Char) : Option ColumnRef := do
  let (name, rest) ← takeColumn cs
  let label ← aliasAtEnd? rest
  return .column table (String.ofList name) label

/-- The plain column reference that a text is. -/
def plain? (s : String) : Option ColumnRef :=
  let cs := Text.dropBlanks s.toList
  match takeTable cs with
  | some (table, rest) => columnOf? (some (String.ofList table)) rest
  | none => columnOf? none cs

/-- The text is one identifier. -/
def isIdent : List Char → Bool
  | [] => false
  | c :: rest => Text.isIdentStart c && rest.all Text.isWordChar

/-- The alias at the end of an expression, read from the end: blanks, an identifier, blanks, `as`,
blanks, and before them no line feed. -/
def rawAlias? (s : String) : Option String := do
  let back := Text.dropBlanks s.toList.reverse
  let ident := (back.takeWhile fun c => !Text.isBlank c).reverse
  let back ← dropSomeBlanks (back.dropWhile fun c => !Text.isBlank c)
  let back ← Text.dropWordFolded "sa".toList back
  let back ← dropSomeBlanks back
  if isIdent ident && !back.contains '\n' then return String.ofList ident else none

/-- The column reference of a text. -/
def ofString (s : String) : ColumnRef :=
  (plain? s).getD (.raw (Text.trim s) (rawAlias? s))

/-! ## Parts -/

/-- The table in front. -/
def table? : ColumnRef → Option String
  | .column table _ _ => table
  | .raw .. => none

/-- The column, or the text of an expression. -/
def text : ColumnRef → String
  | .column _ name _ => name
  | .raw text _ => text

/-- The alias. -/
def alias? : ColumnRef → Option String
  | .column _ _ label => label
  | .raw _ label => label

/-- An expression that is not a plain column. -/
def isRaw : ColumnRef → Bool
  | .column .. => false
  | .raw .. => true

/-- All columns. -/
def isWildcard : ColumnRef → Bool
  | .column _ name _ => name == "*"
  | .raw .. => false

/-- The name in the row: the alias if there is one. -/
def outputName (c : ColumnRef) : String := c.alias?.getD c.text

/-- The column belongs to an entity with the given table: it names no table or that one. -/
def isLocal (own : Option String) : ColumnRef → Bool
  | .column none _ _ => true
  | .column (some table) _ _ => own == some table
  | .raw .. => false

end ColumnRef

end QueryTypes
