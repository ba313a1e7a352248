import QueryTypes.Rules.Leaf
import QueryTypes.Rules.Tree

/-!
# Rule maps

The type of a form from the rules of its fields: every path leads to the type of its field, and a
field that has to be confirmed has a second one beside it.
-/

set_option autoImplicit false

namespace QueryTypes.Rules

/-- The path of the field that confirms a field. -/
def confirmationPath? : List Segment → Option (List Segment)
  | [] => none
  | [.field name] => some [.field (name ++ "_confirmation")]
  | [.wildcard] => none
  | segment :: rest => (confirmationPath? rest).map (segment :: ·)

/-- The tree with the field of a path and, if it has to be confirmed, the field that does. -/
def insertLeaf (root : Ty) (path : List Segment) (leaf : Ty) (confirmed : Bool) : Ty :=
  let root :=
    match confirmed, confirmationPath? path with
    | true, some sibling => insert leaf sibling root
    | _, _ => root
  insert leaf path root

/-- The tree with the field of one entry of a rule map. -/
def addEntry (cx : Context) (root : Ty) (entry : String × RuleSet) : Infer Ty := do
  let path ← liftM (parsePath entry.1)
  let (leaf, confirmed) ← leafType cx entry.1 entry.2
  return insertLeaf root path leaf confirmed

/-- The type of a form. -/
def formType (cx : Context) (rules : Entries RuleSet) : Infer Ty :=
  rules.foldlM (addEntry cx) (.object [] none)

end QueryTypes.Rules
