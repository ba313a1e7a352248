import QueryTypes.Folder

/-!
# Globs

Patterns for paths: `*` stands for any text inside a component of a path, `?` for one character,
`[ab]` for one of several and `[!ab]` for one of the others, where `a-z` is a range, and the
component `**` for any number of directories. Every other character stands for itself.

Paths come out in alphabetical order, directory by directory, a directory before what it holds. A
pattern that starts with a dot also stands for `..` and `.`, which come first.
-/

set_option autoImplicit false

namespace QueryTypes

/-! ## Patterns -/

namespace Glob

/-- A piece of a pattern for one component of a path. -/
inductive Piece where
  | char (c : Char)
  /-- Any one character. -/
  | anyChar
  /-- Any text. -/
  | anyText
  /-- One of the characters in these ranges. -/
  | oneOf (ranges : List (Char × Char))
  /-- One character in none of these ranges. -/
  | noneOf (ranges : List (Char × Char))
  deriving DecidableEq

/-- The pattern of one component of a path. -/
inductive Component where
  /-- Any number of directories. -/
  | anyDepth
  | name (pieces : List Piece)
  deriving DecidableEq

/-- The ranges of a class; a single character is a range of its own. -/
def ranges : List Char → List (Char × Char)
  | low :: '-' :: high :: rest => (low, high) :: ranges rest
  | c :: rest => (c, c) :: ranges rest
  | [] => []

/-- A class after its opening bracket: at least one character, then as far as the next closing
bracket. -/
def takeClass? : List Char → Option (Piece × List Char)
  | '!' :: c :: rest =>
    (Text.cutAt ']' rest).map fun (cs, after) => (.noneOf (ranges (c :: cs)), after)
  | ['!'] => none
  | c :: rest => (Text.cutAt ']' rest).map fun (cs, after) => (.oneOf (ranges (c :: cs)), after)
  | [] => none

/-- The pieces of a component of at most a given length; `none` if a class is not closed or stars
stand together. -/
def piecesTo : Nat → List Char → Option (List Piece)
  | _, [] => some []
  | 0, _ => none
  | n + 1, c :: rest =>
    match c with
    | '?' => (piecesTo n rest).map (.anyChar :: ·)
    | '*' => if rest.head? = some '*' then none else (piecesTo n rest).map (.anyText :: ·)
    | '[' => do
      let (piece, rest) ← takeClass? rest
      let pieces ← piecesTo n rest
      return piece :: pieces
    | c => (piecesTo n rest).map (.char c :: ·)

/-- The pattern of a component. -/
def component? (cs : List Char) : Option Component :=
  if cs = ['*', '*'] then some .anyDepth else (piecesTo cs.length cs).map .name

/-- The character that a piece stands for, if it is only one. -/
def Piece.char? : Piece → Option Char
  | .char c => some c
  | _ => none

/-- The name that a component without patterns is. -/
def Component.plain? : Component → Option String
  | .anyDepth => none
  | .name pieces =>
    (pieces.mapM Piece.char?).map String.ofList

/-- All ends of a list, the longest first. -/
def suffixes : List Char → List (List Char)
  | [] => [[]]
  | c :: rest => (c :: rest) :: suffixes rest

/-- The character lies in one of the ranges. -/
def inRanges (rs : List (Char × Char)) (c : Char) : Bool :=
  rs.any fun (low, high) => low ≤ c && c ≤ high

/-- The name matches the pieces. -/
def Piece.matches : List Piece → List Char → Bool
  | [], cs => cs.isEmpty
  | .anyText :: ps, cs => (suffixes cs).any (Piece.matches ps)
  | p :: ps, c :: cs =>
    (match p with
      | .char d => c == d
      | .anyChar | .anyText => true
      | .oneOf rs => inRanges rs c
      | .noneOf rs => !inRanges rs c) && Piece.matches ps cs
  | _ :: _, [] => false

/-- A name matches the pattern of its component. -/
def Component.matches (name : String) : Component → Bool
  | .anyDepth => true
  | .name pieces => Piece.matches pieces name.toList

/-- Those of `..` and `.` that match a pattern, which has to start with a dot. -/
def Component.dotNames : Component → List String
  | .name (.char '.' :: pieces) =>
    ["..", "."].filter fun s => Piece.matches (.char '.' :: pieces) s.toList
  | _ => []

end Glob

/-! ## Globs -/

/-- A glob: where to start, and the components of what to look for from there. -/
structure Glob where
  start : String
  components : List Glob.Component
  /-- Only directories are looked for. -/
  dirsOnly : Bool

namespace Glob

/-! ## Reading -/

/-- The text calls for matching. -/
def isPattern (s : String) : Bool :=
  s.toList.any fun c => c == '*' || c == '?' || c == '[' || c == '\x7b'

/-- The components of a path; a slash at the end adds none. -/
def componentTexts (cs : List Char) : List (List Char) :=
  match (Text.splitChars '/' cs).reverse with
  | [] :: rest => rest.reverse
  | texts => texts.reverse

/-- Components with one `**` for several in a row. -/
def collapse : List Component → List Component
  | .anyDepth :: .anyDepth :: rest => collapse (.anyDepth :: rest)
  | c :: rest => c :: collapse rest
  | [] => []

/-- The glob of a text, if its patterns are well formed. -/
def ofString? (s : String) : Option Glob := do
  let (start, path) := match s.toList with
    | '/' :: rest => ("/", rest)
    | cs => (".", cs)
  let components ← (componentTexts path).mapM component?
  return ⟨start, collapse components, path.getLast? == some '/'⟩

/-! ## Paths -/

/-- The path of a name in a directory. -/
def join (dir name : String) : String :=
  if dir.endsWith "/" then dir ++ name else dir ++ "/" ++ name

/-- The path is the current directory. -/
def isHere (path : String) : Bool :=
  match Text.splitOn '/' path with
  | "." :: names => names.all FileTree.stays
  | _ => false

/-- The path of a name in a directory, where the current directory is not written. -/
def shortJoin (dir name : String) : String := if isHere dir then name else join dir name

/-! ## Expansion -/

section

variable {m : Type → Type} [Monad m] (list : String → m (Option Listing))

/-- How many directories can lie inside each other: a path has at most 4096 bytes. -/
def maxNesting : Nat := 2048

/-- A path that is there, as a list; if only directories are looked for it must be one. -/
def present (dirsOnly : Bool) (path : String) : m (List String) := do
  match ← list path with
  | some (.dir _) => return [path]
  | some .file => return if dirsOnly then [] else [path]
  | none => return []

/-- What a step gives for the names and paths at all places below a directory, down to a depth. -/
def below (step : String → String → m (List String)) : Nat → String → m (List String)
  | 0, _ => return []
  | depth + 1, dir => do
    match ← list dir with
    | some (.dir names) =>
      names.flatMapM fun name => do
        let path := shortJoin dir name
        let here ← step name path
        let inside ← below step depth path
        return here ++ inside
    | _ => return []

/-- The paths from a place on that match components. After a last `**` every directory matches. An
empty name in the current directory is no path. -/
def found (dirsOnly : Bool) : List Component → String → m (List String)
  | [], path => present list dirsOnly path
  | [.anyDepth], path => below list (fun _ => present list true) maxNesting path
  | .anyDepth :: c :: rest, path =>
    below list (fun name path => if c.matches name then found dirsOnly rest path else return [])
      maxNesting path
  | c :: rest, path =>
    match c.plain? with
    | some name =>
      if isHere path && name.isEmpty then return [] else found dirsOnly rest (shortJoin path name)
    | none => do
      match ← list path with
      | some (.dir names) =>
        let matching := names.filter fun name => c.matches name
        (c.dotNames.map (join path) ++ matching.map (shortJoin path)).flatMapM (found dirsOnly rest)
      | _ => return []

/-- The paths that a glob stands for. -/
def expand (g : Glob) : m (List String) := found list g.dirsOnly g.components g.start

end

end Glob

end QueryTypes
