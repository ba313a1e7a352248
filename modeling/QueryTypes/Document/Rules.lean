import QueryTypes.Document.Ty
import QueryTypes.Rules.Leaf

/-!
# Documents of rules

A rule token is a string or a rule object; an inclusion may list its values in place of typed
arguments. The rules of a field are a string, a list of tokens, or an object with the rules and what
is declared beside them. A fault anywhere in the rules of a field is a fault of the whole.
-/

set_option autoImplicit false

namespace QueryTypes.Rules

/-! ## Rule objects -/

/-- The tags of rule objects. -/
def RuleClass.tags : List String := ["in", "not_in", "enum", "password", "email", "other"]

/-- The members that say what rule an object is. -/
def RuleClass.toMembers : RuleClass → List (String × Json)
  | .inclusion => [("rule", .str "in")]
  | .exclusion => [("rule", .str "not_in")]
  | .enumeration name => [("rule", .str "enum"), ("name", .str name)]
  | .password => [("rule", .str "password")]
  | .email => [("rule", .str "email")]
  | .other name => [("rule", .str "other"), ("name", .str name)]

/-- Read what rule an object is. -/
def RuleClass.decode (s : Source) : Decode RuleClass := do
  let (tag, s) ← Tag.split tags "rule" true s
  match tag with
  | "in" => return .inclusion
  | "not_in" => return .exclusion
  | "enum" => Record.readFrom 1 (RuleClass.enumeration <$> .required 0 "name" Decode.string) s
  | "password" => return .password
  | "email" => return .email
  | _ => Record.readFrom 1 (RuleClass.other <$> .required 0 "name" Decode.string) s

/-- Read a rule object with typed arguments. -/
def RuleObject.decode : Json → Decode RuleObject :=
  Record.readObject (RuleObject.mk <$> .atEnd RuleClass.decode <*>
    .optional 1 "args" [] (Decode.list Ty.decode))

/-- The rule object with listed values. -/
def RuleObject.ofValues (c : RuleClass) (values : List Json) : RuleObject :=
  ⟨c, [.ofJson (.arr values)]⟩

/-- Read a rule object with listed values. -/
def RuleObject.decodeValues : Json → Decode RuleObject :=
  Record.readObject (RuleObject.ofValues <$> .atEnd RuleClass.decode <*>
    .required 1 "values" (Decode.list fun j => .ok j.settle))

/-! ## Tokens -/

/-- The document of a token. -/
def RuleToken.toJson : RuleToken → Json
  | .text s => .str s
  | .object o => .obj (o.class_.toMembers ++ [("args", .arr (o.args.map Ty.toJson))])

/-- Read a token with typed arguments. -/
def RuleToken.decodeTyped : Json → Decode RuleToken
  | .str s => .ok (.text s)
  | j => (RuleObject.decode j).map .object

/-- Read a token; listed values are tried before typed arguments. -/
def RuleToken.decode : Json → Decode RuleToken
  | .str s => .ok (.text s)
  | j => ((RuleObject.decodeValues j).orElse (RuleObject.decode j)).map .object

/-- Read tokens: a string or a list. -/
def RuleToken.decodeAll : Json → Decode (List RuleToken)
  | .str s => .ok [.text s]
  | j => Decode.list RuleToken.decode j

/-! ## Rules of a field -/

/-- Read rules with what is declared beside them. -/
def RuleSet.decodeDetailed : Json → Decode RuleSet :=
  Record.readObject (RuleSet.mk <$> .required 0 "rules" RuleToken.decodeAll <*>
    .optional 1 "type" none (Decode.nullable Ty.decode) <*>
    .optional 2 "description" none (Decode.nullable Decode.string) <*>
    .optional 3 "examples" [] (Decode.list Decode.string))

/-- Read the rules of a field. -/
def RuleSet.decode (j : Json) : Decode RuleSet :=
  match RuleToken.decodeAll j with
  | .ok tokens => .ok { tokens }
  | .error _ => (RuleSet.decodeDetailed j).whole

end QueryTypes.Rules
