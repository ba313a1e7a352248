import QueryTypes.Rules.Path

/-!
# Trees of fields

The type of a form is a tree that grows by one leaf at a time. A field turns the node it is inserted
into into an object and a wildcard turns it into a list, unless the node is one already; the place
of the node is kept. A leaf that arrives at a node with children leaves them and only gives the node
its place.
-/

set_option autoImplicit false

namespace QueryTypes.Rules

/-- An array or an object. -/
def isContainer (t : Ty) : Bool :=
  match t.kind with
  | .array .. | .object .. => true
  | _ => false

mutual

/-- The type has properties or a known item, or one of its members does. -/
def hasChildren : Ty → Bool
  | .mk (.object properties _) _ => !properties.isEmpty
  | .mk (.array (some item) _ _ _) _ => !item.isUnknown
  | .mk (.union members) _ => anyHasChildren members
  | _ => false

/-- One of the types has children. -/
def anyHasChildren : List Ty → Bool
  | [] => false
  | t :: rest => hasChildren t || anyHasChildren rest

end

@[simp] theorem anyHasChildren_eq_any (ts : List Ty) : anyHasChildren ts = ts.any hasChildren := by
  induction ts with
  | nil => simp [anyHasChildren]
  | cons t rest ih => simp [anyHasChildren, ih]

/-- Null is one of the values. -/
def allowsNull (t : Ty) : Bool := t.members.any Ty.isNull

/-- The node after a leaf has arrived at it. -/
def settleLeaf (leaf node : Ty) : Ty :=
  if hasChildren node then
    let node := if allowsNull leaf && !allowsNull node then node.nullable else node
    .mk node.kind
      { required := leaf.required
        description := leaf.description.or node.description
        examples := if leaf.examples.isEmpty then node.examples else leaf.examples }
  else leaf

/-- The item of a list, unknown if the type is none. -/
def itemOf (t : Ty) : Ty :=
  match t.kind with
  | .array (some item) _ none _ => item
  | _ => .unknown

/-- The properties and the origin of an object, none if the type is none. -/
def objectOf (t : Ty) : Entries Ty × Option String :=
  match t.kind with
  | .object properties origin => (properties, origin)
  | _ => ([], none)

/-- Change what a segment of a path leads to. -/
def descend (segment : Segment) (change : Ty → Ty) (t : Ty) : Ty :=
  match segment with
  | .wildcard => t.withKind (.array (some (change (itemOf t))) none none none)
  | .field name =>
    let (properties, origin) := objectOf t
    t.withKind
      (.object (properties.put name (change ((properties.get? name).getD .unknown))) origin)

/-- Change the first element with a property; `none` if there is no such element. -/
def changeFirst? (p : Ty → Bool) (change : Ty → Ty) : List Ty → Option (List Ty)
  | [] => none
  | t :: rest =>
    if p t then some (change t :: rest) else (changeFirst? p change rest).map (t :: ·)

/-- Change the container that a node is: in a union, its first member that is one. -/
def onContainer (change : Ty → Ty) (node : Ty) : Ty :=
  match node.kind with
  | .union members =>
    match changeFirst? isContainer change members with
    | some members => node.withKind (.union members)
    | none => change node
  | _ => change node

/-- The tree with a leaf at the end of a path. -/
def insert (leaf : Ty) : List Segment → Ty → Ty
  | [], node => settleLeaf leaf node
  | segment :: rest, node => onContainer (descend segment (insert leaf rest)) node

end QueryTypes.Rules
