import QueryTypes.Inference.Basic
import QueryTypes.Query.Projection
import QueryTypes.Query.Relations

/-!
# Rows

The row of an entity: an object with the columns that a projection selects and the entity shows. A
column whose type refers to an entity holds a row of it, one level deeper; below the last level it
is unknown, so that entities may refer to each other in circles.

The row of a whole entity at full depth is kept (`entityRow`). Relations are loaded into a row along
a tree of names (`attachRelations`).
-/

set_option autoImplicit false

namespace QueryTypes

/-- The columns of an entity. If they cannot be read there are none, or the inference fails under a
strict policy. -/
def catalogColumns (cx : Context) (entity : String) : Infer (List Column) :=
  match cx.catalog.columns entity with
  | .ok columns => return columns
  | .error source =>
    if cx.config.strict then throw (.catalog entity source)
    else do
      note (some entity) (.catalogUnavailable source)
      return []

namespace Row

/-! ## Columns -/

mutual

/-- A type with references to entities replaced by their rows, at the top and in the members of
unions. The row keeps the place of the reference. -/
def expand (row : String → Infer Ty) : Ty → Infer Ty
  | .mk (.object [] (some target)) slot => do
    let t ← row target
    return .mk t.kind { t.slot with required := slot.required, description := slot.description }
  | .mk (.union members) slot => do
    let ts ← expandList row members
    return (Ty.union ts).withRequired slot.required
  | t => return t

/-- Types with references replaced, from left to right. -/
def expandList (row : String → Infer Ty) : List Ty → Infer (List Ty)
  | [] => return []
  | t :: rest => do
    let first ← expand row t
    let others ← expandList row rest
    return first :: others

end

/-- The type of a column in a row. -/
def columnType (row : String → Infer Ty) (c : Column) : Infer Ty := do
  let t ← expand row c.ty
  return (if c.nullable then t.nullable else t).withRequired true

/-- The type of a selected column: unknown for an expression, for another table's column and for a
column that the entity does not have. -/
def refType (row : String → Infer Ty) (columns : List Column) (table : Option String)
    (ref : ColumnRef) : Infer Ty :=
  if ref.isLocal table then
    match columns.find? fun c => c.name == ref.text with
    | some c => columnType row c
    | none => return .unknown
  else return .unknown

/-! ## Projecting -/

/-- What an entity shows of a row, and its table. -/
structure Frame where
  visibility : Visibility
  table : Option String
  columns : List Column

/-- What a catalog says about an entity, with its columns. -/
def Frame.of (catalog : Catalog) (entity : String) (columns : List Column) : Frame where
  visibility := catalog.visibility entity
  table := catalog.table? entity
  columns := columns

/-- Put a column into a row. -/
def putColumn (row : String → Infer Ty) (props : Entries Ty) (c : Column) : Infer (Entries Ty) := do
  let t ← columnType row c
  return props.put c.name t

/-- Put all columns that are shown into a row. -/
def putAll (row : String → Infer Ty) (frame : Frame) (props : Entries Ty) : Infer (Entries Ty) :=
  (frame.columns.filter fun c => frame.visibility.allows c.name).foldlM (putColumn row) props

/-- Put a selected column into a row, or all of them for a wildcard. -/
def putRef (row : String → Infer Ty) (frame : Frame) (props : Entries Ty) (ref : ColumnRef) :
    Infer (Entries Ty) :=
  if ref.isWildcard then
    if ref.isLocal frame.table then putAll row frame props else return props
  else if frame.visibility.allows ref.outputName then do
    let t ← refType row frame.columns frame.table ref
    return props.put ref.outputName (t.withRequired true)
  else return props

/-- The row that a projection shows of an entity. -/
def project (row : String → Infer Ty) (frame : Frame) (entity : String) (p : Projection) :
    Infer Ty := do
  let props ← if p.all then putAll row frame [] else pure []
  let props ← p.columns.foldlM (putRef row frame) props
  return .object props (some entity)

end Row

/-! ## Rows of entities -/

/-- The row of a whole entity to a depth. -/
def rowAt (cx : Context) : Nat → String → Infer Ty
  | 0, _ => return .unknown
  | depth + 1, entity => do
    let columns ← catalogColumns cx entity
    Row.project (rowAt cx depth) (.of cx.catalog entity columns) entity .everything

/-- The row of a whole entity to the full depth, computed once. -/
def entityRow (cx : Context) (entity : String) : Infer Ty :=
  if cx.config.maxDepth = 0 then return .unknown
  else do
    let key := cx.rowKey entity
    match (← get).rows.find? key with
    | some row => return row
    | none => do
      let row ← rowAt cx cx.config.maxDepth entity
      modify fun p => { p with rows := p.rows ++ [(key, row)] }
      return row

/-- Rows one level below the full depth, for the columns of a row at full depth. -/
def innerRow (cx : Context) : String → Infer Ty := rowAt cx (cx.config.maxDepth - 1)

/-! ## Relations -/

/-- The type of a loaded relation. -/
def Relation.loaded (r : Relation) (target : Ty) : Ty :=
  (if r.many then (Ty.list target).withOrigin (some collectionOrigin)
    else target.nullable).withRequired
    true

/-- Put a property into an object type. -/
def Ty.putProperty (t : Ty) (name : String) (value : Ty) : Ty :=
  match t.kind with
  | .object properties origin => t.withKind (.object (Entries.put properties name value) origin)
  | _ => t

/-- Object types. -/
def Ty.isObject (t : Ty) : Bool :=
  match t.kind with
  | .object .. => true
  | _ => false

mutual

/-- A row of an entity with relations loaded, to a depth. -/
def attachRelations (cx : Context) (entity : String) (depth : Nat) : RelationTree → Ty → Infer Ty
  | .node children, row =>
    if depth = 0 || !row.isObject then return row
    else attachList cx entity (depth - 1) children row

/-- A row with each of the relations loaded whose name is shown. The targets go to the given
depth. -/
def attachList (cx : Context) (entity : String) (depth : Nat) :
    List (String × RelationTree) → Ty → Infer Ty
  | [], row => return row
  | (name, nested) :: rest, row =>
    if !(cx.catalog.visibility entity).allows name then attachList cx entity depth rest row
    else
      match cx.catalog.relation? entity name with
      | none => do
        note (some entity) (.unknownRelation name)
        attachList cx entity depth rest row
      | some relation => do
        let target ← rowAt cx depth relation.target
        let target ← attachRelations cx relation.target depth nested target
        attachList cx entity depth rest (row.putProperty name (relation.loaded target))

end

end QueryTypes
