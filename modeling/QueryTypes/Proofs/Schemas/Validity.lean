import QueryTypes.Schema

/-!
# What a schema document demands

A schema is a document, and what it demands of a value is said keyword by keyword (`Keyword.holds`):
a value is valid if every keyword of the document holds of it (`Json.validates`). Words that are no
keywords, such as `title` or `description`, demand nothing. Formats and patterns are left to a
vocabulary.

Numbers are compared by value, whether they are written as integers or as doubles, and a double
without a fraction is an integer. A keyword about lists holds of every value that is not a list, one
about objects of every value that is not an object; it is `type` that rules those out.

The last part goes through the forms of schemas and says what the document of each of them demands.
-/

set_option autoImplicit false

namespace QueryTypes

/-! ## Values -/

namespace Json

/-- The value of a number, counted in units of `2 ^ (-1074)`. -/
def units? : Json → Option Int
  | .int n => some (n * Double.unitsPerOne)
  | .float x => if x.isFinite then some x.signedUnits else none
  | _ => none

/-- Two numbers of the same value. -/
def equalNumbers (v w : Json) : Bool :=
  match v.units?, w.units? with
  | some m, some n => m == n
  | _, _ => false

mutual

/-- Equality of values: numbers by value, members in any order. -/
def equals : Json → Json → Bool
  | .null, .null => true
  | .bool a, .bool b => a == b
  | .str s, .str t => s == t
  | .arr xs, .arr ys => equalsList xs ys
  | .obj ms, .obj ns => ms.length == ns.length && equalsMembers ms ns
  | .int n, w => equalNumbers (.int n) w
  | .float x, w => equalNumbers (.float x) w
  | _, _ => false

/-- Equality of lists, place by place. -/
def equalsList : List Json → List Json → Bool
  | [], [] => true
  | x :: xs, y :: ys => x.equals y && equalsList xs ys
  | _, _ => false

/-- Every member on the left has an equal one of its name on the right. -/
def equalsMembers : List (String × Json) → List (String × Json) → Bool
  | [], _ => true
  | (name, x) :: rest, ns =>
    (match Entries.get? ns name with
      | some y => x.equals y
      | none => false) && equalsMembers rest ns

end

/-- The kinds of values that schemas tell apart. -/
inductive Genus where
  | null
  | boolean
  | number
  | string
  | array
  | object
  deriving DecidableEq

/-- The kind of a value. -/
def genus : Json → Genus
  | .null => .null
  | .bool _ => .boolean
  | .int _ => .number
  | .float _ => .number
  | .str _ => .string
  | .arr _ => .array
  | .obj _ => .object

/-- A number without a fraction. -/
def isWhole (v : Json) : Bool :=
  match v.units? with
  | some n => n % Double.unitsPerOne == 0
  | none => false

/-- The value has the type of this name. -/
def hasType (v : Json) : String → Bool
  | "null" => v.genus == .null
  | "boolean" => v.genus == .boolean
  | "integer" => v.isWhole
  | "number" => v.genus == .number
  | "string" => v.genus == .string
  | "array" => v.genus == .array
  | "object" => v.genus == .object
  | _ => false

end Json

/-! ## Keywords -/

/-- What formats and patterns mean. -/
structure Vocabulary where
  /-- The value is in the format of this name. -/
  format : String → Json → Bool
  /-- The text matches the pattern. -/
  pattern : String → String → Bool

namespace Keyword

/-- What stands behind a keyword: a document, what it demands as a schema, what its elements demand,
and what its members demand. -/
structure Operand where
  document : Json
  schema : Json → Bool
  elements : List (Json → Bool)
  members : Entries (Json → Bool)

/-- The number of items that `prefixItems` is about. -/
def itemsBefore (siblings : Entries Json) : Nat :=
  match Entries.get? siblings "prefixItems" with
  | some (.arr schemas) => schemas.length
  | _ => 0

/-- The names that `properties` is about. -/
def namesBeside (siblings : Entries Json) : List String :=
  match Entries.get? siblings "properties" with
  | some (.obj schemas) => Entries.keys schemas
  | _ => []

/-- A bound on a value, if both are numbers. -/
def bounds (le : Int → Int → Bool) (bound v : Json) : Bool :=
  match bound.units?, v.units? with
  | some b, some n => le b n
  | _, _ => true

/-- A bound on a count. -/
def boundsCount (le : Int → Int → Bool) (bound : Json) (count : Nat) : Bool :=
  match bound with
  | .int b => le b count
  | _ => true

/-- A demand on a text. -/
def ofText (v : Json) (demand : String → Bool) : Bool :=
  match v with
  | .str s => demand s
  | _ => true

/-- A demand on the items of a list. -/
def ofItems (v : Json) (demand : List Json → Bool) : Bool :=
  match v with
  | .arr xs => demand xs
  | _ => true

/-- A demand on the members of an object. -/
def ofMembers (v : Json) (demand : Entries Json → Bool) : Bool :=
  match v with
  | .obj ms => demand ms
  | _ => true

/-- The strings of a list. -/
def strings : Json → List String
  | .arr js => js.filterMap fun
    | .str s => some s
    | _ => none
  | _ => []

/-- A keyword holds of a value. The other keywords of the schema are given, for `items` and
`additionalProperties` are about what they leave over. -/
def holds (V : Vocabulary) (siblings : Entries Json) (name : String) (arg : Operand) (v : Json) :
    Bool :=
  match name with
  | "type" =>
    match arg.document with
    | .str type => v.hasType type
    | _ => false
  | "enum" =>
    match arg.document with
    | .arr options => options.any v.equals
    | _ => false
  | "minimum" => bounds (fun b n => b ≤ n) arg.document v
  | "maximum" => bounds (fun b n => n ≤ b) arg.document v
  | "format" =>
    match arg.document with
    | .str format => V.format format v
    | _ => true
  | "pattern" =>
    match arg.document with
    | .str pattern => ofText v (V.pattern pattern)
    | _ => true
  | "prefixItems" => ofItems v fun xs => (arg.elements.zip xs).all fun p => p.1 p.2
  | "items" => ofItems v fun xs => (xs.drop (itemsBefore siblings)).all arg.schema
  | "minItems" => ofItems v fun xs => boundsCount (fun b n => b ≤ n) arg.document xs.length
  | "maxItems" => ofItems v fun xs => boundsCount (fun b n => n ≤ b) arg.document xs.length
  | "properties" => ofMembers v fun ms => arg.members.all fun p => (Entries.get? ms p.1).all p.2
  | "required" =>
    ofMembers v fun ms => (strings arg.document).all fun s => (Entries.get? ms s).isSome
  | "additionalProperties" =>
    ofMembers v fun ms => ms.all fun m => (namesBeside siblings).contains m.1 || arg.schema m.2
  | "propertyNames" => ofMembers v fun ms => ms.all fun m => arg.schema (.str m.1)
  | "oneOf" => arg.elements.countP (fun option => option v) == 1
  | _ => true

end Keyword

/-! ## Validity -/

namespace Json

section Validity

variable (V : Vocabulary)

mutual

/-- The value is valid under a schema document. -/
def validates : Json → Json → Bool
  | .bool b, _ => b
  | .obj keywords, v => validatesAll keywords keywords v
  | _, _ => false

/-- Keywords of a schema hold of the value. -/
def validatesAll (siblings : List (String × Json)) : List (String × Json) → Json → Bool
  | [], _ => true
  | (name, j) :: rest, v =>
    Keyword.holds V siblings name ⟨j, validates j, elementSchemas j, memberSchemas j⟩ v &&
      validatesAll siblings rest v

/-- What the elements of a document demand. -/
def elementSchemas : Json → List (Json → Bool)
  | .arr js => validatesEach js
  | _ => []

/-- What each of several documents demands. -/
def validatesEach : List Json → List (Json → Bool)
  | [] => []
  | j :: rest => validates j :: validatesEach rest

/-- What the members of a document demand. -/
def memberSchemas : Json → List (String × (Json → Bool))
  | .obj ms => validatesNamed ms
  | _ => []

/-- What each of several named documents demands. -/
def validatesNamed : List (String × Json) → List (String × (Json → Bool))
  | [] => []
  | (name, j) :: rest => (name, validates j) :: validatesNamed rest

end

/-- A document behind a keyword. -/
def operand (j : Json) : Keyword.Operand :=
  ⟨j, validates V j, elementSchemas V j, memberSchemas V j⟩

variable {V}

@[simp] theorem validatesEach_eq_map (js : List Json) :
    validatesEach V js = js.map (validates V) := by
  induction js with
  | nil => simp [validatesEach]
  | cons j rest ih => simp [validatesEach, ih]

@[simp] theorem validatesNamed_eq_map (ms : Entries Json) :
    validatesNamed V ms = ms.map fun m => (m.1, validates V m.2) := by
  induction ms with
  | nil => simp [validatesNamed]
  | cons m rest ih => simp [validatesNamed, ih]

theorem validatesAll_iff {siblings ks : Entries Json} {v : Json} :
    validatesAll V siblings ks v = true ↔
      ∀ k ∈ ks, Keyword.holds V siblings k.1 (operand V k.2) v = true := by
  induction ks with
  | nil => simp [validatesAll]
  | cons k rest ih => simp [validatesAll, operand, ih]

theorem validates_obj_iff {ks : Entries Json} {v : Json} :
    (Json.obj ks).validates V v = true ↔
      ∀ k ∈ ks, Keyword.holds V ks k.1 (operand V k.2) v = true := by
  rw [validates, validatesAll_iff]

end Validity

end Json

/-! ## Keyword by keyword -/

namespace Keyword

variable {V : Vocabulary} {siblings : Entries Json} {v : Json}

@[simp] theorem holds_type (type : String) :
    holds V siblings "type" (Json.operand V (.str type)) v = v.hasType type := rfl

@[simp] theorem holds_enum (options : List Json) :
    holds V siblings "enum" (Json.operand V (.arr options)) v = options.any v.equals := rfl

@[simp] theorem holds_minimum (j : Json) :
    holds V siblings "minimum" (Json.operand V j) v = bounds (fun b n => b ≤ n) j v := rfl

@[simp] theorem holds_maximum (j : Json) :
    holds V siblings "maximum" (Json.operand V j) v = bounds (fun b n => n ≤ b) j v := rfl

@[simp] theorem holds_format (format : String) :
    holds V siblings "format" (Json.operand V (.str format)) v = V.format format v := rfl

@[simp] theorem holds_pattern (pattern : String) :
    holds V siblings "pattern" (Json.operand V (.str pattern)) v =
      ofText v (V.pattern pattern) := rfl

@[simp] theorem holds_minItems (n : Nat) :
    holds V siblings "minItems" (Json.operand V (.int n)) v = ofItems v fun xs =>
      n ≤ xs.length := by
  have h : holds V siblings "minItems" (Json.operand V (.int n)) v =
      ofItems v fun xs => (n : Int) ≤ (xs.length : Int) := rfl
  simp [h]

@[simp] theorem holds_maxItems (n : Nat) :
    holds V siblings "maxItems" (Json.operand V (.int n)) v = ofItems v fun xs =>
      xs.length ≤ n := by
  have h : holds V siblings "maxItems" (Json.operand V (.int n)) v =
      ofItems v fun xs => (xs.length : Int) ≤ (n : Int) := rfl
  simp [h]

@[simp] theorem holds_prefixItems (schemas : List Json) :
    holds V siblings "prefixItems" (Json.operand V (.arr schemas)) v =
      ofItems v fun xs => (schemas.zip xs).all fun p => p.1.validates V p.2 := by
  have h : holds V siblings "prefixItems" (Json.operand V (.arr schemas)) v =
      ofItems v fun xs => ((Json.validatesEach V schemas).zip xs).all fun p => p.1 p.2 := rfl
  simp [h, List.zip_map_left, List.all_map, Function.comp_def]

@[simp] theorem holds_properties (schemas : Entries Json) :
    holds V siblings "properties" (Json.operand V (.obj schemas)) v =
      ofMembers v fun ms => schemas.all fun p => (Entries.get? ms p.1).all (p.2.validates V) := by
  have h : holds V siblings "properties" (Json.operand V (.obj schemas)) v =
      ofMembers v fun ms => (Json.validatesNamed V schemas).all fun p =>
        (Entries.get? ms p.1).all p.2 := rfl
  simp [h, List.all_map, Function.comp_def]

@[simp] theorem holds_required (names : List String) :
    holds V siblings "required" (Json.operand V (.arr (names.map .str))) v =
      ofMembers v fun ms => names.all fun name => (Entries.get? ms name).isSome := by
  have h : holds V siblings "required" (Json.operand V (.arr (names.map .str))) v =
      ofMembers v fun ms => (strings (.arr (names.map .str))).all fun s =>
        (Entries.get? ms s).isSome := rfl
  simp [h, strings, List.filterMap_map]

@[simp] theorem holds_oneOf (options : List Json) :
    holds V siblings "oneOf" (Json.operand V (.arr options)) v =
      (options.countP (fun s => s.validates V v) == 1) := by
  have h : holds V siblings "oneOf" (Json.operand V (.arr options)) v =
      ((Json.validatesEach V options).countP (fun option => option v) == 1) := rfl
  simp [h, List.countP_map, Function.comp_def]

@[simp] theorem holds_title (arg : Operand) : holds V siblings "title" arg v = true := rfl

@[simp] theorem holds_description (arg : Operand) :
    holds V siblings "description" arg v = true := rfl

@[simp] theorem holds_examples (arg : Operand) : holds V siblings "examples" arg v = true := rfl

end Keyword

/-! ## Form by form -/

section Members

variable {α : Type} {P : String × Json → Prop}

theorem Json.forall_mem_memberOption {name : String} {write : α → Json} {o : Option α} :
    (∀ k ∈ Json.memberOption name write o, P k) ↔ ∀ a, o = some a → P (name, write a) := by
  cases o <;> simp [Json.memberOption]

theorem Json.forall_mem_memberList {name : String} {write : α → Json} {as : List α} :
    (∀ k ∈ Json.memberList name write as, P k) ↔ (as ≠ [] → P (name, .arr (as.map write))) := by
  cases as <;> simp [Json.memberList]

end Members

namespace Schema

@[simp] theorem toJsonList_eq_map (ss : List Schema) : toJsonList ss = ss.map toJson := by
  induction ss with
  | nil => simp [toJsonList]
  | cons s rest ih => simp [toJsonList, ih]

@[simp] theorem toJsonEntries_eq_map (es : Entries Schema) :
    toJsonEntries es = es.map fun e => (e.1, e.2.toJson) := by
  induction es with
  | nil => simp [toJsonEntries]
  | cons e rest ih => simp [toJsonEntries, ih]

variable {V : Vocabulary} {v : Json} {description : Option String} {examples : List String}

/-- A schema demands what the keywords of its form do: the annotations demand nothing. -/
theorem validates_toJson_iff {form : Form} :
    (Schema.mk form description examples).toJson.validates V v = true ↔
      ∀ k ∈ formMembers form,
        Keyword.holds V (formMembers form ++ Json.memberOption "description" .str description ++
          Json.memberList "examples" .str examples) k.1 (Json.operand V k.2) v = true := by
  rw [toJson, Json.validates_obj_iff]
  simp only [List.forall_mem_append, Json.forall_mem_memberOption, Json.forall_mem_memberList,
    Keyword.holds_description, Keyword.holds_examples, implies_true, and_true]

theorem validates_scalar_iff {kind : ScalarKind} {enum : List Literal} {format : Option String}
    {minimum maximum : Option Bound} {pattern : Option String} :
    (Schema.mk (.scalar kind enum format minimum maximum pattern) description
      examples).toJson.validates V v =
        true ↔
      v.hasType kind.schemaName = true ∧ (enum ≠ [] → ∃ l ∈ enum, v.equals l.toJson = true) ∧
        (∀ f, format = some f → V.format f v = true) ∧
        (∀ b, minimum = some b → Keyword.bounds (fun b n => b ≤ n) b.toJson v = true) ∧
        (∀ b, maximum = some b → Keyword.bounds (fun b n => n ≤ b) b.toJson v = true) ∧
        ∀ p, pattern = some p → Keyword.ofText v (V.pattern p) = true := by
  rw [validates_toJson_iff]
  simp only [formMembers, List.forall_mem_append, List.forall_mem_cons,
    Json.forall_mem_memberOption, Json.forall_mem_memberList]
  simp [and_assoc]

/-- A tuple is a list of a length between the bounds whose items have the schemas in their
places. -/
theorem validates_tuple_iff {items : List Schema} {least greatest : Nat} :
    (Schema.mk (.tuple items least greatest) description examples).toJson.validates V v = true ↔
      ∃ xs, v = .arr xs ∧ (∀ p ∈ items.zip xs, p.1.toJson.validates V p.2 = true) ∧
        least ≤ xs.length ∧ xs.length ≤ greatest := by
  rw [validates_toJson_iff]
  cases v <;> simp [formMembers, Json.hasType, Json.genus, Keyword.ofItems, List.zip_map_left]

theorem validates_record_iff {properties : Entries Schema} {required : List String}
    {title : Option String} :
    (Schema.mk (.record properties required title) description examples).toJson.validates V v =
      true ↔
      ∃ ms, v = .obj ms ∧
        (∀ p ∈ properties, ∀ w, Entries.get? ms p.1 = some w → p.2.toJson.validates V w = true) ∧
        ∀ name ∈ required, name ∈ Entries.keys ms := by
  rw [validates_toJson_iff]
  simp only [formMembers, List.forall_mem_append, List.forall_mem_cons,
    Json.forall_mem_memberOption, Json.forall_mem_memberList]
  cases v with
  | obj ms =>
    -- an empty list of required names is not written, and demands nothing either
    have hnames : (required ≠ [] → ∀ name ∈ required, name ∈ Entries.keys ms) ↔
        ∀ name ∈ required, name ∈ Entries.keys ms :=
      ⟨fun h name hname => h (List.ne_nil_of_mem hname) name hname, fun h _ => h⟩
    simpa [Json.hasType, Json.genus, Keyword.ofMembers, Entries.isSome_get?_iff, Option.all_eq_true]
      using fun _ => hnames
  | null | bool | int | float | str | arr => simp [Json.hasType, Json.genus]

theorem validates_oneOf_iff {options : List Schema} :
    (Schema.mk (.oneOf options) description examples).toJson.validates V v = true ↔
      (options.countP fun s => s.toJson.validates V v) = 1 := by
  rw [validates_toJson_iff]
  simp [formMembers, List.countP_map, Function.comp_def]

end Schema

/-! ## Types -/

/-- A shape with positions for names is a tuple. -/
theorem Schema.ofShape_of_positions {es : Entries Ty} (hne : es ≠ [])
    (hnames : Ty.arePositions 0 (Entries.keys es) = true) :
    ofShape es (Ty.schemaEntries es) =
      .tuple (es.map fun e => e.2.schema) (requiredNames es).length es.length := by
  simp [ofShape, hnames, hne, Entries.values]

/-- A shape with other names is a record. -/
theorem Schema.ofShape_of_names {es : Entries Ty}
    (hnames : ¬ (es ≠ [] ∧ Ty.arePositions 0 (Entries.keys es) = true)) :
    ofShape es (Ty.schemaEntries es) = .record (Ty.schemaEntries es) (requiredNames es) none := by
  rw [ofShape, if_neg]
  simpa [and_comm] using hnames

namespace Ty

/-- The schema of the type validates the value. -/
def validates (V : Vocabulary) (t : Ty) (v : Json) : Bool := t.schema.toJson.validates V v

variable {V : Vocabulary} {v : Json} {es : Entries Ty}

theorem validates_tuple_iff (hne : es ≠ []) (hnames : arePositions 0 (Entries.keys es) = true) :
    (shape es).validates V v = true ↔
      ∃ xs, v = .arr xs ∧ (∀ p ∈ (es.map fun e => e.2.schema).zip xs,
        p.1.toJson.validates V p.2 = true) ∧
        (Schema.requiredNames es).length ≤ xs.length ∧ xs.length ≤ es.length := by
  rw [validates, shape, ofKind, schema, Kind.form, Schema.ofShape_of_positions hne hnames,
    Schema.validates_tuple_iff]

theorem validates_record_iff (hnames : ¬ (es ≠ [] ∧ arePositions 0 (Entries.keys es) = true)) :
    (shape es).validates V v = true ↔
      ∃ ms, v = .obj ms ∧
        (∀ e ∈ es, ∀ w, Entries.get? ms e.1 = some w → e.2.validates V w = true) ∧
        ∀ name ∈ Schema.requiredNames es, name ∈ Entries.keys ms := by
  rw [validates, shape, ofKind, schema, Kind.form, Schema.ofShape_of_names hnames,
    Schema.validates_record_iff]
  simp only [schemaEntries_eq_map, List.forall_mem_map, validates]

end Ty

end QueryTypes
