import QueryTypes.Inference.Basic

/-!
# Rule paths

The key of a rule map is a path: fields separated by dots, where `*` stands for every entry of a
list and `\.` for a dot inside a field.
-/

set_option autoImplicit false

namespace QueryTypes.Rules

/-- A step of a path. -/
inductive Segment where
  | field (name : String)
  /-- Every entry of a list. -/
  | wildcard
  deriving DecidableEq

/-- The first piece of a path and the pieces after it, escaped dots replaced by dots. -/
def pieces : List Char → List Char × List (List Char)
  | [] => ([], [])
  | '\\' :: '.' :: rest =>
    let (piece, more) := pieces rest
    ('.' :: piece, more)
  | '.' :: rest =>
    let (piece, more) := pieces rest
    ([], piece :: more)
  | c :: rest =>
    let (piece, more) := pieces rest
    (c :: piece, more)

/-- The segment that a piece is; an empty piece is none. -/
def Segment.ofPiece? : List Char → Option Segment
  | [] => none
  | ['*'] => some .wildcard
  | piece => some (.field (String.ofList piece))

/-- The segments of a path. It must not start with a wildcard and have no empty piece. -/
def parsePath (path : String) : Except InferError (List Segment) :=
  let (first, more) := pieces path.toList
  if first = ['*'] then .error (.wildcardRoot path)
  else
    match (first :: more).mapM Segment.ofPiece? with
    | some segments => .ok segments
    | none => .error (.emptySegment path)

end QueryTypes.Rules
