import QueryTypes.Ty.Literals
import QueryTypes.Ty.Merge

/-!
# Schemas

A schema is what a type looks like from outside: a document with the keywords `type`, `enum`,
`properties` and so on. `Ty.schema` gives the schema of a type, `Schema.toJson` its document.

A shape whose names are the positions `0, 1, …` is a tuple, any other shape a record. A map names
its keys only when their schema has an enumeration or a format. Bounds are written as integers where
they are integers of 64 bits.
-/

set_option autoImplicit false

namespace QueryTypes

/-! ## Data -/

/-- A bound as it is written: an integer or a double. -/
inductive Bound where
  | int (n : Int)
  | double (x : Double)
  deriving DecidableEq

namespace Bound

/-- The least integer of 64 bits. -/
def least : Int := -0x8000000000000000

/-- The greatest integer of 64 bits. -/
def greatest : Int := 0x7FFFFFFFFFFFFFFF

/-- A double as a bound: an integer when it is one between `-2 ^ 63` and `2 ^ 63`, of which the last
is written as the greatest integer of 64 bits. -/
def ofDouble (x : Double) : Bound :=
  if x.isIntegral && Double.cmp (.ofInt least) x != .gt &&
    Double.cmp x (.ofInt (greatest + 1)) != .gt then
    .int (x.clampToInt least greatest)
  else .double x

/-- The document of a bound. -/
def toJson : Bound → Json
  | .int n => .int n
  | .double x => .ofDouble x

end Bound

mutual

/-- A schema: its form and its annotations. -/
inductive Schema where
  | mk (form : Form) (description : Option String) (examples : List String)

/-- What a schema demands. -/
inductive Form where
  /-- Anything. -/
  | any
  /-- A scalar, of the listed literals if there are any. -/
  | scalar (kind : ScalarKind) (enum : List Literal) (format : Option String)
      (minimum maximum : Option Bound) (pattern : Option String)
  /-- A list whose first items have these schemas, with bounds on its length. -/
  | tuple (items : List Schema) (minItems maxItems : Nat)
  /-- A list of items. -/
  | list (items : Schema)
  /-- An object of values under names. -/
  | map (values : Schema) (names : Option Schema)
  /-- An object with properties, of which some must be there. -/
  | record (properties : List (String × Schema)) (required : List String) (title : Option String)
  /-- Exactly one of several schemas. -/
  | oneOf (options : List Schema)

end

/-! ## The schema of a type -/

namespace Schema

/-- The form of a schema. -/
def form : Schema → Form
  | .mk form _ _ => form

/-- The schema says something about names of members: it lists them or gives their format. -/
def restrictsNames (s : Schema) : Bool :=
  match s.form with
  | .scalar _ enum format _ _ _ => !enum.isEmpty || format.isSome
  | _ => false

/-- The form of a scalar type. -/
def ofScalar (s : Scalar) : Form :=
  .scalar s.kind s.literals.toList s.format (s.minimum.map .ofDouble)
    (s.maximum.map .ofDouble) s.pattern

/-- The names of the entries that must be there. -/
def requiredNames (entries : Entries Ty) : List String :=
  (entries.filter fun e => e.2.required).map Prod.fst

/-- The form of a shape, given the schemas of its entries. -/
def ofShape (shape : Entries Ty) (schemas : Entries Schema) : Form :=
  if Ty.arePositions 0 (Entries.keys shape) && !shape.isEmpty then
    .tuple (Entries.values schemas) (requiredNames shape).length shape.length
  else .record schemas (requiredNames shape) none

end Schema

mutual

/-- The schema of a type. -/
def Ty.schema : Ty → Schema
  | .mk kind slot => .mk kind.form slot.description slot.examples

/-- The form of a kind. -/
def Kind.form : Kind → Form
  | .unknown => .any
  | .scalar s => Schema.ofScalar s
  | .array _ _ (some shape) _ => Schema.ofShape shape (Ty.schemaEntries shape)
  | .array item none none _ => .list (Ty.schemaItem item)
  | .array item (some key) none _ =>
    let names := key.schema
    .map (Ty.schemaItem item) (if names.restrictsNames then some names else none)
  | .object properties origin =>
    .record (Ty.schemaEntries properties) (Schema.requiredNames properties) origin
  | .union members => .oneOf (Ty.schemaList members)

/-- The schema of an item, anything when nothing is said about it. -/
def Ty.schemaItem : Option Ty → Schema
  | none => .mk .any none []
  | some t => t.schema

/-- The schemas of named types. -/
def Ty.schemaEntries : List (String × Ty) → List (String × Schema)
  | [] => []
  | (name, t) :: rest => (name, t.schema) :: Ty.schemaEntries rest

/-- The schemas of types. -/
def Ty.schemaList : List Ty → List Schema
  | [] => []
  | t :: rest => t.schema :: Ty.schemaList rest

end

@[simp] theorem Ty.schemaList_eq_map (ts : List Ty) : Ty.schemaList ts = ts.map Ty.schema := by
  induction ts with
  | nil => simp [Ty.schemaList]
  | cons t ts ih => simp [Ty.schemaList, ih]

@[simp] theorem Ty.schemaEntries_eq_map (es : Entries Ty) :
    Ty.schemaEntries es = es.map fun e => (e.1, e.2.schema) := by
  induction es with
  | nil => simp [Ty.schemaEntries]
  | cons e es ih => simp [Ty.schemaEntries, ih]

/-! ## The document of a schema -/

/-- The word for a kind in a schema. -/
def ScalarKind.schemaName : ScalarKind → String
  | .string => "string"
  | .integer => "integer"
  | .float => "number"
  | .bool => "boolean"
  | .null => "null"

namespace Schema

mutual

/-- The document of a schema: the keywords of its form, then the annotations. -/
def toJson : Schema → Json
  | .mk form description examples =>
    .obj (formMembers form ++ Json.memberOption "description" .str description ++
      Json.memberList "examples" .str examples)

/-- The keywords of a form. -/
def formMembers : Form → List (String × Json)
  | .any => []
  | .scalar kind enum format minimum maximum pattern =>
    ("type", .str kind.schemaName) :: Json.memberList "enum" Literal.toJson enum ++
      Json.memberOption "format" .str format ++ Json.memberOption "minimum" Bound.toJson minimum ++
      Json.memberOption "maximum" Bound.toJson maximum ++ Json.memberOption "pattern" .str pattern
  | .tuple items minItems maxItems =>
    [("type", .str "array"), ("prefixItems", .arr (toJsonList items)), ("minItems", .int minItems),
      ("maxItems", .int maxItems)]
  | .list items => [("type", .str "array"), ("items", toJson items)]
  | .map values names =>
    [("type", .str "object"), ("additionalProperties", toJson values)] ++
      (match names with
        | none => []
        | some names => [("propertyNames", toJson names)])
  | .record properties required title =>
    [("type", .str "object"), ("properties", .obj (toJsonEntries properties))] ++
      Json.memberList "required" .str required ++ Json.memberOption "title" .str title
  | .oneOf options => [("oneOf", .arr (toJsonList options))]

/-- The documents of schemas. -/
def toJsonList : List Schema → List Json
  | [] => []
  | s :: rest => toJson s :: toJsonList rest

/-- The documents of named schemas. -/
def toJsonEntries : List (String × Schema) → List (String × Json)
  | [] => []
  | (name, s) :: rest => (name, toJson s) :: toJsonEntries rest

end

end Schema

end QueryTypes
