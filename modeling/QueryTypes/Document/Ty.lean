import QueryTypes.Document.Decode
import QueryTypes.Ty.Literals

/-!
# Documents of types

How types are written, and read back. The members of a kind stand beside those of the place: a type
is one object with a tag `kind`, and members that say nothing are left out.

A fault in the place of a type lies at its member; a fault in its kind is a fault of the whole type.
-/

set_option autoImplicit false

namespace QueryTypes

/-! ## Scalars -/

/-- Read a literal: an integer of 64 bits if it is one, otherwise any number. -/
def Literal.decode : Json → Decode Literal
  | .bool b => .ok (.bool b)
  | .int n => .ok (.ofInt n)
  | .float x => .ok (.float x)
  | .str s => .ok (.str s)
  | _ => Decode.fault

/-- Read a kind of scalar, inside a larger whole or by itself. -/
def ScalarKind.decode (inside : Bool) : Json → Decode ScalarKind :=
  Decode.oneOf ScalarKind.ofName? inside

namespace Scalar

/-- The members of a scalar type. -/
def toMembers (s : Scalar) : List (String × Json) :=
  ("scalar", .str s.kind.name) :: Json.memberList "literals" Literal.toJson s.literals.toList ++
    Json.memberOption "format" .str s.format ++ Json.memberOption "minimum" .ofDouble s.minimum ++
    Json.memberOption "maximum" .ofDouble s.maximum ++ Json.memberOption "pattern" .str s.pattern

/-- Read the members of a scalar type. -/
def record : Record Scalar :=
  Scalar.mk <$> .required 0 "scalar" (ScalarKind.decode true) <*>
    .optional 1 "literals" .empty (fun j => (Decode.list Literal.decode j).map SortedSet.ofList) <*>
    .optional 2 "format" none (Decode.nullable Decode.string) <*>
    .optional 3 "minimum" none (Decode.nullable Decode.double) <*>
    .optional 4 "maximum" none (Decode.nullable Decode.double) <*>
    .optional 5 "pattern" none (Decode.nullable Decode.string)

end Scalar

/-! ## Types -/

/-- The members of a place. -/
def Slot.toMembers (s : Slot) : List (String × Json) :=
  (if s.required then [("required", .bool true)] else []) ++
    Json.memberOption "description" .str s.description ++ Json.memberList "examples" .str s.examples

mutual

/-- The document of a type. -/
def Ty.toJson : Ty → Json
  | .mk kind slot => .obj (kind.toMembers ++ slot.toMembers)

/-- The members of a kind. -/
def Kind.toMembers : Kind → List (String × Json)
  | .unknown => [("kind", .str "unknown")]
  | .scalar s => ("kind", .str "scalar") :: s.toMembers
  | .array item key shape origin =>
    ("kind", .str "array") :: Ty.memberOf "item" item ++ Ty.memberOf "key" key ++
      (match shape with
        | none => []
        | some entries => [("shape", .obj (Ty.toJsonEntries entries))]) ++
      Json.memberOption "origin" .str origin
  | .object properties origin =>
    [("kind", .str "object"), ("properties", .obj (Ty.toJsonEntries properties))] ++
      Json.memberOption "origin" .str origin
  | .union members => [("kind", .str "union"), ("members", .arr (Ty.toJsonList members))]

/-- The member of an optional type. -/
def Ty.memberOf (name : String) : Option Ty → List (String × Json)
  | none => []
  | some t => [(name, t.toJson)]

/-- The documents of named types. -/
def Ty.toJsonEntries : List (String × Ty) → List (String × Json)
  | [] => []
  | (name, t) :: rest => (name, t.toJson) :: Ty.toJsonEntries rest

/-- The documents of types. -/
def Ty.toJsonList : List Ty → List Json
  | [] => []
  | t :: rest => t.toJson :: Ty.toJsonList rest

end

namespace Kind

/-- The tags of kinds. -/
def tags : List String := ["unknown", "scalar", "array", "object", "union"]

/-- Read a kind, given how the types in it are read. -/
def decodeWith (ty : Json → Decode Ty) (s : Source) : Decode Kind := do
  let (tag, s) ← Tag.split tags "kind" true s
  match tag with
  | "scalar" => Record.readFrom 6 (Kind.scalar <$> Scalar.record) s
  | "array" =>
    Record.readFrom 4 (Kind.array <$> .optional 0 "item" none (Decode.nullable ty) <*>
      .optional 1 "key" none (Decode.nullable ty) <*>
      .optional 2 "shape" none (Decode.nullable (Decode.entries ty)) <*>
      .optional 3 "origin" none (Decode.nullable Decode.string)) s
  | "object" =>
    Record.readFrom 2 (Kind.object <$> .optional 0 "properties" [] (Decode.entries ty) <*>
      .optional 1 "origin" none (Decode.nullable Decode.string)) s
  | "union" => Record.readFrom 1 (Kind.union <$> .required 0 "members" (Decode.list ty)) s
  | _ => return .unknown

end Kind

namespace Ty

/-- Read a place. -/
def slotRecord : Record Slot :=
  Slot.mk <$> .optional 0 "required" false Decode.bool <*>
    .optional 1 "description" none (Decode.nullable Decode.string) <*>
    .optional 2 "examples" [] (Decode.list Decode.string)

/-- Read a type, given how the types in it are read. -/
def decodeWith (ty : Json → Decode Ty) : Json → Decode Ty :=
  Record.readObject (Ty.mk <$> .atEnd (Kind.decodeWith ty) <*> slotRecord)

/-- Read a type nested to a depth. -/
def decodeTo : Nat → Json → Decode Ty
  | 0, _ => Decode.fault
  | depth + 1, j => decodeWith (decodeTo depth) j

/-- Read a type. No type is nested deeper than its document. -/
def decode (j : Json) : Decode Ty := decodeTo j.depth j

end Ty

end QueryTypes
