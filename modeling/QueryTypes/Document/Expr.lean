import QueryTypes.Document.Ty
import QueryTypes.Expr

/-!
# Documents of expressions

How expressions and scopes are written, and read back. A fault anywhere in an expression is a fault
of the whole expression, except for a tag that is not known.
-/

set_option autoImplicit false

namespace QueryTypes

mutual

/-- The document of an expression. -/
def Expr.toJson : Expr → Json
  | .entity name => .obj [("kind", .str "entity"), ("name", .str name)]
  | .var name => .obj [("kind", .str "var"), ("name", .str name)]
  | .call receiver method args =>
    .obj [("kind", .str "call"), ("receiver", receiver.toJson), ("method", .str method),
      ("args", .arr (Expr.toJsonList args))]
  | .staticCall name method args =>
    .obj [("kind", .str "static_call"), ("entity", .str name), ("method", .str method),
      ("args", .arr (Expr.toJsonList args))]
  | .literal value => .obj [("kind", .str "literal"), ("value", value)]
  | .typed ty => .obj [("kind", .str "typed"), ("ty", ty.toJson)]
  | .array items => .obj [("kind", .str "array"), ("items", .arr (Expr.toJsonItems items))]
  | .index target key =>
    .obj [("kind", .str "index"), ("target", target.toJson), ("key", key.toJson)]
  | .property target name =>
    .obj [("kind", .str "property"), ("target", target.toJson), ("name", .str name)]
  | .closure params body =>
    .obj [("kind", .str "closure"), ("params", .strings params), ("body", body.toJson)]
  | .branches arms => .obj [("kind", .str "branches"), ("arms", .arr (Expr.toJsonList arms))]
  | .obscure => .obj [("kind", .str "opaque")]

/-- The documents of expressions. -/
def Expr.toJsonList : List Expr → List Json
  | [] => []
  | e :: rest => e.toJson :: Expr.toJsonList rest

/-- The documents of the entries of an array literal. -/
def Expr.toJsonItems : List Item → List Json
  | [] => []
  | .positional value :: rest => .obj [("value", value.toJson)] :: Expr.toJsonItems rest
  | .keyed key value :: rest =>
    .obj [("key", key.toJson), ("value", value.toJson)] :: Expr.toJsonItems rest

end

/-- An entry of an array literal with an optional key. -/
def Item.ofKey : Option Expr → Expr → Item
  | none, value => .positional value
  | some key, value => .keyed key value

namespace Expr

/-- The tags of expressions. -/
def tags : List String :=
  ["entity", "var", "call", "static_call", "literal", "typed", "array", "index", "property",
    "closure", "branches", "opaque"]

/-- Read an entry of an array literal. -/
def itemRecord (expr : Json → Decode Expr) : Record Item :=
  Item.ofKey <$> .optional 0 "key" none (Decode.nullable expr) <*> .required 1 "value" expr

/-- Read the fields of an expression with a tag, given how the expressions in it are read. -/
def fieldsWith (expr : Json → Decode Expr) (tag : String) (s : Source) : Decode Expr :=
  match tag with
  | "entity" => Record.readFrom 1 (Expr.entity <$> .required 0 "name" Decode.string) s
  | "var" => Record.readFrom 1 (Expr.var <$> .required 0 "name" Decode.string) s
  | "call" =>
    Record.readFrom 3 (Expr.call <$> .required 0 "receiver" expr <*>
      .required 1 "method" Decode.string <*> .optional 2 "args" [] (Decode.list expr)) s
  | "static_call" =>
    Record.readFrom 3 (Expr.staticCall <$> .required 0 "entity" Decode.string <*>
      .required 1 "method" Decode.string <*> .optional 2 "args" [] (Decode.list expr)) s
  | "literal" => Record.readFrom 1 (Expr.literal <$> .required 0 "value" fun j => .ok j.settle) s
  | "typed" => Record.readFrom 1 (Expr.typed <$> .required 0 "ty" Ty.decode) s
  | "array" =>
    Record.readFrom 1 (Expr.array <$>
      .required 0 "items" (Decode.list (Record.read 2 (itemRecord expr)))) s
  | "index" =>
    Record.readFrom 2 (Expr.index <$> .required 0 "target" expr <*> .required 1 "key" expr) s
  | "property" =>
    Record.readFrom 2 (Expr.property <$> .required 0 "target" expr <*>
      .required 1 "name" Decode.string) s
  | "closure" =>
    Record.readFrom 2 (Expr.closure <$> .optional 0 "params" [] (Decode.list Decode.string) <*>
      .required 1 "body" expr) s
  | "branches" => Record.readFrom 1 (Expr.branches <$> .required 0 "arms" (Decode.list expr)) s
  | _ => Record.readFrom 0 (pure .obscure) s

/-- The source of the fields of an expression. -/
def source : Json → Decode Source
  | .obj ms => .ok (.members ms)
  | .arr es => .ok (.elements es)
  | _ => Decode.fault

/-- Read an expression inside another one, nested to a depth. -/
def decodeTo : Nat → Json → Decode Expr
  | 0, _ => Decode.fault
  | depth + 1, j => do
    let s ← source j
    let (tag, s) ← Tag.split tags "kind" true s
    fieldsWith (decodeTo depth) tag s

/-- Read an expression. No expression is nested deeper than its document. -/
def decode (j : Json) : Decode Expr := do
  let s ← source j
  let (tag, s) ← Tag.split tags "kind" false s
  (fieldsWith (decodeTo j.depth) tag s).whole

end Expr

namespace Scope

/-- The document of a scope. -/
def toJson (s : Scope) : Json :=
  .arr (s.map fun a => .obj [("name", .str a.name), ("value", a.value.toJson)])

/-- Read an assignment. -/
def assignmentRecord : Record Assignment :=
  Assignment.mk <$> .required 0 "name" Decode.string <*> .required 1 "value" Expr.decode

/-- Read a scope. -/
def decode : Json → Decode Scope := Decode.list (assignmentRecord.read 2)

end Scope

end QueryTypes
