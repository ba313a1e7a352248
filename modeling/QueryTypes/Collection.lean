import QueryTypes.Inference.Basic
import QueryTypes.Ty.Literals
import QueryTypes.Ty.Merge

/-!
# Collection methods

What a method of collections makes of an array type. Methods with a callback ask the argument what
it returns. There is no answer for a receiver that is no array, for a method that is not listed, and
for a method without the arguments it needs.
-/

set_option autoImplicit false

namespace QueryTypes

namespace Collection

/-- The methods of collections. -/
inductive Method where
  /-- A plain array of the same items. -/
  | toArray
  | values
  | keys
  /-- One item, or a default. -/
  | item
  | count
  /-- Whether there are items. -/
  | test
  | map
  | mapWithKeys
  | pluck
  /-- The same items in another order or number. -/
  | rearrange
  deriving DecidableEq

/-- The methods that keep the type. -/
def rearranging : List String :=
  ["filter", "reject", "flatten", "groupBy", "sortBy", "sortByDesc", "take", "skip",
    "keyBy", "unique", "reverse", "sort", "sortKeys", "slice", "where", "whereIn"]

/-- A method by its name. -/
def Method.ofName? (name : String) : Option Method :=
  match name with
  | "toArray" | "all" => some .toArray
  | "values" => some .values
  | "keys" => some .keys
  | "first" | "last" | "get" => some .item
  | "count" => some .count
  | "isEmpty" | "isNotEmpty" => some .test
  | "map" => some .map
  | "mapWithKeys" => some .mapWithKeys
  | "pluck" => some .pluck
  | _ => if rearranging.contains name then some .rearrange else none

/-- An array type as a collection: the type of its items, of its keys if it has any, and its
origin. -/
structure View where
  item : Ty
  key : Option Ty
  origin : Option String

/-- The collection that a type is, its shape read as a map. -/
def view? (depth : Nat) (t : Ty) : Option View :=
  match (Ty.unwrap depth t).kind with
  | .array item key _ origin => some ⟨(item.getD .unknown).withRequired false, key, origin⟩
  | _ => none

/-- The type of the keys as they are handed to a callback. -/
def View.position (v : View) : Ty := v.key.getD .integer

/-- The type of a field by a path with dots. -/
def fieldAt (t : Ty) (path : String) : Ty :=
  (Text.splitOn '.' path).foldl (fun t name => t.field name) t

/-- The type of the fields that an argument names. -/
def pluckFrom? (item arg : Ty) : Option Ty :=
  match arg.alternatives.flatten with
  | [] => none
  | paths => some (.union (paths.map fun path => (fieldAt item path).withRequired false))

/-- The literal type of a key of a shape: an integer if it is one. -/
def keyLiteral (key : String) : Ty :=
  match Numeral.readInt64? key with
  | some n => .ofLiteral (.int n)
  | none => .ofLiteral (.str key)

/-- An array that a callback returns for one entry, as a map. -/
def entryMap? (depth : Nat) (t : Ty) : Option Ty :=
  match t.kind with
  | .array _ _ (some [(key, value)]) _ =>
    some (.keyed (some (keyLiteral key)) (value.withRequired false))
  | .array .. =>
    match (Ty.unwrap depth t).kind with
    | .array item key _ _ => some (.keyed (some (key.getD .integer)) (item.getD .unknown))
    | _ => none
  | _ => none

/-- What an argument returns when it is called. -/
def call? (arg : Argument) (types : List Ty) : Tracked (Option Ty) :=
  match arg.call? with
  | some call => do
    let t ← call types
    return some t
  | none => return none

/-- The type of a default value, which may be given by a function. -/
def defaultType : Option Argument → Tracked Ty
  | some arg => do
    let t ← call? arg []
    return t.getD arg.ty
  | none => return .null

/-- What a callback returns for an item and its key. -/
def callback? (v : View) : List Argument → Tracked (Option Ty)
  | arg :: _ => call? arg [v.item, v.position]
  | [] => return none

/-- The map that a callback returning one entry per item gives. -/
def gather? (depth : Nat) (v : View) (pairs : Ty) : Option Ty :=
  (pairs.members.mapM fun t => (entryMap? depth t).map fun m => m.withOrigin v.origin).map Ty.union

/-- The values, and perhaps keys, that arguments name. -/
def pluck? (v : View) : List Argument → Option Ty
  | [] => none
  | [value] => (pluckFrom? v.item value.ty).map fun t => (Ty.keyed none t).withOrigin v.origin
  | value :: key :: _ => do
    let t ← pluckFrom? v.item value.ty
    let k ← pluckFrom? v.item key.ty
    return (Ty.keyed (some k) t).withOrigin v.origin

/-- What a method makes of a collection. -/
def resultOf (depth : Nat) (receiver : Ty) (v : View) (args : List Argument) :
    Method → Tracked (Option Ty)
  | .toArray => return some (receiver.withOrigin none)
  | .values => return some ((Ty.keyed none v.item).withOrigin v.origin)
  | .keys => return some ((Ty.list v.position).withOrigin v.origin)
  | .item => do
    let fallback ← defaultType args[1]?
    return some (.union [v.item, fallback])
  | .count => return some (.integerFrom 0)
  | .test => return some .boolean
  | .map => do
    let mapped ← callback? v args
    return mapped.map fun t => (Ty.keyed v.key (t.withRequired false)).withOrigin v.origin
  | .mapWithKeys => do
    let pairs ← callback? v args
    return pairs.bind (gather? depth v)
  | .pluck => return pluck? v args
  | .rearrange => return some receiver

end Collection

/-- What a method makes of a receiver, to a depth. -/
def resolveCollectionMethod (depth : Nat) (method : String) (receiver : Ty) (args : List Argument) :
    Tracked (Option Ty) :=
  match Collection.view? depth receiver, Collection.Method.ofName? method with
  | some v, some m => Collection.resultOf depth receiver v args m
  | _, _ => return none

end QueryTypes
