import QueryTypes.Number.Numeral
import QueryTypes.Text.Blank
import QueryTypes.Ty.Literals

/-!
# Relations to load

The relations that a chain loads with its rows, as a tree of names: the path `posts.author:id,name`
loads the posts and the author of each.
-/

set_option autoImplicit false

namespace QueryTypes

/-- Relations to load, each with the relations to load from its target. -/
inductive RelationTree where
  | node (children : List (String × RelationTree))

namespace RelationTree

/-- Nothing to load. -/
def empty : RelationTree := .node []

instance : Inhabited RelationTree := ⟨empty⟩

/-- The relations at the top. -/
def children : RelationTree → List (String × RelationTree)
  | .node children => children

/-- Change the tree under a name, which is added at the end if it is not there. -/
def change (name : String) (f : RelationTree → RelationTree) :
    List (String × RelationTree) → List (String × RelationTree)
  | [] => [(name, f empty)]
  | (n, t) :: rest => if n = name then (n, f t) :: rest else (n, t) :: change name f rest

/-- The tree with a path of names. -/
def insert : List String → RelationTree → RelationTree
  | [], t => t
  | name :: names, t => .node (change name (insert names) t.children)

/-- The relation name of a piece of a path: what stands before a colon, without blanks. -/
def relationName (piece : String) : String :=
  Text.trim (String.ofList (piece.toList.takeWhile fun c => c != ':'))

/-- The relation names of a path, up to the first empty one. -/
def pathNames (path : String) : List String :=
  ((Text.splitOn '.' path).map relationName).takeWhile fun name => !name.isEmpty

/-- The tree with a path. -/
def insertPath (t : RelationTree) (path : String) : RelationTree := t.insert (pathNames path)

/-- The paths that an argument names: its strings, or the keys of an array that holds other values,
other than positions. -/
def argumentPaths (arg : Ty) : List String :=
  let alternatives := arg.alternatives
  if alternatives.isEmpty then
    match arg.shape? with
    | some shape => (Entries.keys shape).filter fun key => (Numeral.readNat64? key).isNone
    | none => []
  else alternatives.flatten

/-- The tree with the paths of arguments. -/
def addArguments (t : RelationTree) (args : List Ty) : RelationTree :=
  (args.flatMap argumentPaths).foldl insertPath t

end RelationTree

end QueryTypes
