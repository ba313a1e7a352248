import QueryTypes.Catalog.Basic
import QueryTypes.Config
import QueryTypes.Document.Ty
import QueryTypes.Query.Method

/-!
# Documents of catalogs, policies and contracts
-/

set_option autoImplicit false

namespace QueryTypes

/-- The document of named things. -/
def Json.ofEntries {α : Type} (write : α → Json) (es : Entries α) : Json :=
  .obj (es.map fun e => (e.1, write e.2))

/-- Read a set of names. -/
def Decode.nameSet (j : Json) : Decode NameSet :=
  (Decode.list Decode.string j).map SortedSet.ofList

/-! ## Columns and entities -/

/-- The document of a column type. -/
def ColumnType.toJson : ColumnType → Json
  | .sql name => .str name
  | .resolved ty => ty.toJson

/-- Read a column type: a name or a type, whose faults are faults of the whole. -/
def ColumnType.decode : Json → Decode ColumnType
  | .str s => .ok (.sql s)
  | j => (Ty.decode j).whole.map .resolved

/-- The document of a declared column. -/
def ColumnDecl.toJson (c : ColumnDecl) : Json :=
  .obj [("name", .str c.name), ("type", c.type.toJson), ("nullable", .bool c.nullable)]

/-- Read a declared column. -/
def ColumnDecl.decode : Json → Decode ColumnDecl :=
  Record.read 3 (ColumnDecl.mk <$> .required 0 "name" Decode.string <*>
    .required 1 "type" ColumnType.decode <*> .optional 2 "nullable" false Decode.bool)

/-- The document of a column. -/
def Column.toJson (c : Column) : Json :=
  .obj [("name", .str c.name), ("type", c.ty.toJson), ("nullable", .bool c.nullable)]

/-- The document of a relation. -/
def Relation.toJson (r : Relation) : Json :=
  .obj [("target", .str r.target), ("many", .bool r.many)]

/-- Read a relation. -/
def Relation.decode : Json → Decode Relation :=
  Record.read 2 (Relation.mk <$> .required 0 "target" Decode.string <*>
    .optional 1 "many" false Decode.bool)

/-- The document of an entity. -/
def Entity.toJson (e : Entity) : Json :=
  .obj [("table", .ofOption .str e.table), ("columns", .arr (e.columns.map ColumnDecl.toJson)),
    ("hidden", .strings e.hidden.toList), ("visible", .strings e.visible.toList),
    ("relations", .ofEntries Relation.toJson e.relations)]

/-- Read an entity. -/
def Entity.decode : Json → Decode Entity :=
  Record.read 5 (Entity.mk <$> .optional 0 "table" none (Decode.nullable Decode.string) <*>
    .optional 1 "columns" [] (Decode.list ColumnDecl.decode) <*>
    .optional 2 "hidden" .empty Decode.nameSet <*> .optional 3 "visible" .empty Decode.nameSet <*>
    .optional 4 "relations" [] (Decode.entries Relation.decode))

/-- The document of an enumeration. -/
def Enumeration.toJson (e : Enumeration) : Json :=
  .obj [("backing", .str e.backing.name), ("values", .arr (e.values.map Literal.toJson))]

/-- Read an enumeration. -/
def Enumeration.decode : Json → Decode Enumeration :=
  Record.read 2 (Enumeration.mk <$> .required 0 "backing" (ScalarKind.decode false) <*>
    .required 1 "values" (Decode.list Literal.decode))

/-! ## Catalogs -/

/-- The document of a catalog. -/
def Catalog.toJson (c : Catalog) : Json :=
  .obj [("entities", .ofEntries Entity.toJson c.entities),
    ("enums", .ofEntries Enumeration.toJson c.enums)]

/-- Read a catalog. -/
def Catalog.decode : Json → Decode Catalog :=
  Record.read 2 (Catalog.mk <$> .optional 0 "entities" [] (Decode.entries Entity.decode) <*>
    .optional 1 "enums" [] (Decode.entries Enumeration.decode))

/-! ## Policies and contracts -/

/-- The document of a policy. -/
def Config.toJson (c : Config) : Json :=
  .obj [("max_depth", .nat c.maxDepth), ("verify_builder_methods", .bool c.verifyMethods),
    ("strict", .bool c.strict), ("default_rule_type", .str c.defaultRuleKind.name)]

/-- Read a policy. -/
def Config.decode : Json → Decode Config :=
  Record.read 4 (Config.mk <$> .optional 0 "max_depth" defaultDepth Decode.nat64 <*>
    .optional 1 "verify_builder_methods" false Decode.bool <*>
    .optional 2 "strict" false Decode.bool <*>
    .optional 3 "default_rule_type" .string (ScalarKind.decode false))

/-- Read the name of a contract. -/
def Contract.decode : Json → Decode Contract := Decode.oneOf Contract.ofName? false

end QueryTypes
