import QueryTypes.Catalog.SqlType

/-!
# Catalogs

What is known about entities and enumerations: the columns of an entity with their types, which
names it shows, its table, its relations to other entities, and the values of an enumeration.
-/

set_option autoImplicit false

namespace QueryTypes

/-! ## Data -/

/-- The type of a column as declared: by its name in the database, or as a type. -/
inductive ColumnType where
  | sql (name : String)
  | resolved (ty : Ty)

/-- A column as declared. -/
structure ColumnDecl where
  name : String
  type : ColumnType
  nullable : Bool := false

/-- A column with its type. -/
structure Column where
  name : String
  ty : Ty
  nullable : Bool

/-- A relation to one or many rows of an entity. -/
structure Relation where
  target : String
  many : Bool := false
  deriving DecidableEq

/-- An entity. -/
structure Entity where
  table : Option String := none
  columns : List ColumnDecl := []
  hidden : NameSet := .empty
  visible : NameSet := .empty
  relations : Entries Relation := []

/-- An enumeration: the kind of its values, and the values. -/
structure Enumeration where
  backing : ScalarKind
  values : List Literal

/-- Entities and enumerations by name. -/
structure Catalog where
  entities : Entries Entity := []
  enums : Entries Enumeration := []

instance : Inhabited Catalog := ⟨{}⟩

/-- Which names of an entity are shown. -/
structure Visibility where
  visible : NameSet := .empty
  hidden : NameSet := .empty

/-- A failure to read from a catalog. -/
inductive CatalogError where
  | unknownEntity (name : String)
  | unknownEnum (name : String)
  | unsupportedColumn (column sql : String)
  deriving DecidableEq

/-- The text of a failure. -/
def CatalogError.message : CatalogError → String
  | .unknownEntity name => "unknown entity `" ++ name ++ "`"
  | .unknownEnum name => "unknown enumeration `" ++ name ++ "`"
  | .unsupportedColumn column sql =>
    "unsupported column type `" ++ sql ++ "` for `" ++ column ++ "`"

/-! ## Reading -/

/-- A name is shown: it is not hidden, and it is listed if any names are. -/
def Visibility.allows (v : Visibility) (name : String) : Bool :=
  !v.hidden.contains name && (v.visible.isEmpty || v.visible.contains name)

/-- The column with its type. -/
def ColumnDecl.resolve (c : ColumnDecl) : Except CatalogError Column :=
  match c.type with
  | .resolved ty => .ok ⟨c.name, ty, c.nullable⟩
  | .sql sql =>
    match SqlType.type? sql with
    | some ty => .ok ⟨c.name, ty, c.nullable⟩
    | none => .error (.unsupportedColumn c.name sql)

namespace Catalog

/-- An entity by name. -/
def entity? (c : Catalog) (name : String) : Option Entity := Entries.get? c.entities name

/-- The columns of an entity, if all of them can be read. -/
def columns (c : Catalog) (name : String) : Except CatalogError (List Column) :=
  match c.entity? name with
  | some entity => entity.columns.mapM ColumnDecl.resolve
  | none => .error (.unknownEntity name)

/-- Which names of an entity are shown; all of them when it is unknown. -/
def visibility (c : Catalog) (name : String) : Visibility :=
  match c.entity? name with
  | some entity => { visible := entity.visible, hidden := entity.hidden }
  | none => {}

/-- The table of an entity. -/
def table? (c : Catalog) (name : String) : Option String := (c.entity? name).bind Entity.table

/-- A relation of an entity. -/
def relation? (c : Catalog) (name relation : String) : Option Relation :=
  (c.entity? name).bind fun entity => Entries.get? entity.relations relation

/-- An enumeration by name. -/
def enumeration (c : Catalog) (name : String) : Except CatalogError Enumeration :=
  match Entries.get? c.enums name with
  | some enumeration => .ok enumeration
  | none => .error (.unknownEnum name)

end Catalog

end QueryTypes
