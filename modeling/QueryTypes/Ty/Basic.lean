import QueryTypes.Entries
import QueryTypes.Ty.Scalar

/-!
# Types

A type is a kind of value together with what is known about the place it stands in: whether the
place must be filled, a description, and examples.

An array type is one of three things: a *shape* with named entries, a map with a key type, or a
list; an *origin* marks arrays and objects that come from somewhere in particular, such as a fetched
collection or an entity. A type may be read from a document, where an array can carry a shape beside
an item, so nothing here assumes that it does not.

Equality of types (`Ty.same`) does not see the order of properties and of shape entries, and
compares doubles by value.
-/

set_option autoImplicit false

namespace QueryTypes

/-! ## Data -/

/-- What is known about the place of a type. -/
structure Slot where
  required : Bool := false
  description : Option String := none
  examples : List String := []
  deriving DecidableEq, Inhabited

mutual

/-- A type: a kind in a place. -/
inductive Ty where
  | mk (kind : Kind) (slot : Slot)

/-- The kind of values a type describes. -/
inductive Kind where
  /-- Nothing is known. -/
  | unknown
  /-- A scalar. -/
  | scalar (s : Scalar)
  /-- An array: items under keys, or a shape of named entries. -/
  | array (item key : Option Ty) (shape : Option (List (String × Ty))) (origin : Option String)
  /-- An object with named properties. -/
  | object (properties : List (String × Ty)) (origin : Option String)
  /-- One of several types. -/
  | union (members : List Ty)

end

/-- The origin of arrays that hold a fetched collection. -/
def collectionOrigin : String := "collection"

/-- The depth to which types and rows are followed unless a request says otherwise. -/
def defaultDepth : Nat := 20

namespace Ty

/-- The kind of a type. -/
def kind : Ty → Kind
  | .mk kind _ => kind

/-- The place of a type. -/
def slot : Ty → Slot
  | .mk _ slot => slot

@[simp] theorem kind_mk (k : Kind) (s : Slot) : (Ty.mk k s).kind = k := rfl
@[simp] theorem slot_mk (k : Kind) (s : Slot) : (Ty.mk k s).slot = s := rfl
@[simp] theorem mk_kind_slot (t : Ty) : Ty.mk t.kind t.slot = t := by cases t; rfl

/-- A kind in a place about which nothing is known. -/
def ofKind (kind : Kind) : Ty := .mk kind {}

/-- The place must be filled. -/
def required (t : Ty) : Bool := t.slot.required

/-- The description of the place. -/
def description (t : Ty) : Option String := t.slot.description

/-- The examples of the place. -/
def examples (t : Ty) : List String := t.slot.examples

/-- The type with another kind in the same place. -/
def withKind (t : Ty) (kind : Kind) : Ty := .mk kind t.slot

/-- The type in a place that must be filled, or need not be. -/
def withRequired (t : Ty) (required : Bool) : Ty := .mk t.kind { t.slot with required }

/-- The type in a place with another description. -/
def withDescription (t : Ty) (description : Option String) : Ty :=
  .mk t.kind { t.slot with description }

/-- The type in a place with other examples. -/
def withExamples (t : Ty) (examples : List String) : Ty := .mk t.kind { t.slot with examples }

/-- The type with another origin, if its kind has one. -/
def withOrigin (t : Ty) (origin : Option String) : Ty :=
  match t.kind with
  | .array item key shape _ => t.withKind (.array item key shape origin)
  | .object properties _ => t.withKind (.object properties origin)
  | _ => t

/-! ## Building types -/

/-- Nothing is known. -/
def unknown : Ty := ofKind .unknown

instance : Inhabited Ty := ⟨unknown⟩

/-- Any scalar of a kind. -/
def scalar (kind : ScalarKind) : Ty := ofKind (.scalar (.ofKind kind))

/-- Any string. -/
def string : Ty := scalar .string

/-- Any integer. -/
def integer : Ty := scalar .integer

/-- Any number. -/
def float : Ty := scalar .float

/-- Either truth value. -/
def boolean : Ty := scalar .bool

/-- The null value. -/
def null : Ty := scalar .null

/-- Scalars of a kind in a format. -/
def formatted (kind : ScalarKind) (format : String) : Ty :=
  ofKind (.scalar { kind, format := some format })

/-- Exactly these literals; the last of equal ones wins. -/
def literalSet (kind : ScalarKind) (literals : List Literal) : Ty :=
  ofKind (.scalar { kind, literals := .ofListLast literals })

/-- Integers from a least one on. -/
def integerFrom (least : Nat) : Ty :=
  ofKind (.scalar { kind := .integer, minimum := some (.ofNat least) })

/-- A list of items. -/
def list (item : Ty) : Ty := ofKind (.array (some item) none none none)

/-- A map from keys to items; a list when there is no key type. -/
def keyed (key : Option Ty) (item : Ty) : Ty := ofKind (.array (some item) key none none)

/-- An array with exactly these entries. -/
def shape (entries : Entries Ty) : Ty := ofKind (.array none none (some entries) none)

/-- An object. -/
def object (properties : Entries Ty) (origin : Option String) : Ty :=
  ofKind (.object properties origin)

/-! ## Looking at types -/

/-- Nothing is known about the values. -/
def isUnknown (t : Ty) : Bool :=
  match t.kind with
  | .unknown => true
  | _ => false

/-- The kind of a scalar type. -/
def scalarKind? (t : Ty) : Option ScalarKind :=
  match t.kind with
  | .scalar s => some s.kind
  | _ => none

/-- The type of null. -/
def isNull (t : Ty) : Bool := t.scalarKind? == some .null

/-- An array type of any form. -/
def isArray (t : Ty) : Bool :=
  match t.kind with
  | .array .. => true
  | _ => false

/-- The shape of an array type. -/
def shape? (t : Ty) : Option (Entries Ty) :=
  match t.kind with
  | .array _ _ shape _ => shape
  | _ => none

/-- The entity that an object without properties refers to. -/
def entityRef? (t : Ty) : Option String :=
  match t.kind with
  | .object [] origin => origin
  | _ => none

/-- The members of a union; of any other type, the type itself. -/
def members (t : Ty) : List Ty :=
  match t.kind with
  | .union members => members
  | _ => [t]

end Ty

/-! ## Equality -/

mutual

/-- Equality of types: doubles by value, properties and shape entries in any order. -/
def Ty.same : Ty → Ty → Bool
  | .mk k s, .mk k' s' => k.same k' && s == s'

/-- Equality of kinds. -/
def Kind.same : Kind → Kind → Bool
  | .unknown, .unknown => true
  | .scalar s, .scalar s' => s.same s'
  | .array item key shape origin, .array item' key' shape' origin' =>
    Ty.sameOption item item' && Ty.sameOption key key' && Ty.sameShape shape shape' &&
      origin == origin'
  | .object properties origin, .object properties' origin' =>
    properties.length == properties'.length && Ty.sameEntries properties properties' &&
      origin == origin'
  | .union members, .union members' => Ty.sameList members members'
  | _, _ => false

/-- Equality of optional types. -/
def Ty.sameOption : Option Ty → Option Ty → Bool
  | none, none => true
  | some t, some t' => t.same t'
  | _, _ => false

/-- Equality of optional shapes. -/
def Ty.sameShape : Option (List (String × Ty)) → Option (List (String × Ty)) → Bool
  | none, none => true
  | some es, some es' => es.length == es'.length && Ty.sameEntries es es'
  | _, _ => false

/-- Every entry on the left has an equal one of its name on the right. -/
def Ty.sameEntries : List (String × Ty) → List (String × Ty) → Bool
  | [], _ => true
  | (name, t) :: rest, es' =>
    (match Entries.get? es' name with
      | some t' => t.same t'
      | none => false) && Ty.sameEntries rest es'

/-- Equality of lists of types, place by place. -/
def Ty.sameList : List Ty → List Ty → Bool
  | [], [] => true
  | t :: rest, t' :: rest' => t.same t' && Ty.sameList rest rest'
  | _, _ => false

end

instance : BEq Ty := ⟨Ty.same⟩

end QueryTypes
