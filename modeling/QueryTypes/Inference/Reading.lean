import QueryTypes.Number.Numeral
import QueryTypes.Term
import QueryTypes.Ty.Union

/-!
# Reading types off expressions

How the type of an array literal or of an indexed expression comes from the types of its parts. The
parts are typed by a computation in any monad, so that an inference with notes and a plain reading
share these rules.

Entries of an array literal go under literal keys, and entries without a key under the next free
position: one more than the last integer key before it. As soon as a key is not literal the array is
a map.
-/

set_option autoImplicit false

namespace QueryTypes

/-- The types of the parameters in reach, the innermost first. -/
abbrev Env := List (String × Ty)

namespace Env

/-- The type of a parameter. -/
def type (env : Env) (name : String) : Ty := (env.lookup name).getD .unknown

/-- Bind parameters to types from left to right; a parameter without a type is unknown. -/
def bind (env : Env) : List String → List Ty → Env
  | [], _ => env
  | p :: ps, [] => bind ((p, .unknown) :: env) ps []
  | p :: ps, t :: ts => bind ((p, t) :: env) ps ts

end Env

namespace Reading

/-! ## Keys -/

/-- The name under which a literal type is a key: it is one integer or one string. -/
def singleLiteral? (t : Ty) : Option Literal :=
  match t.literals? with
  | some [.int n] => some (.int n)
  | some [.str s] => some (.str s)
  | _ => none

/-- The name of the field that a type selects. -/
def fieldName? (t : Ty) : Option String :=
  match singleLiteral? t with
  | some (.int n) => some (toString n.toInt)
  | some (.str s) => some s
  | _ => none

/-! ## Array literals -/

/-- What has been read of an array literal. -/
structure ArrayState where
  /-- The next free position. -/
  next : Int64 := 0
  /-- The entries under literal keys. -/
  shape : Entries Ty := []
  /-- The types of the other keys. -/
  openKeys : List Ty := []
  /-- The types of all values. -/
  values : List Ty := []

namespace ArrayState

/-- Remember the type of a value. -/
def addValue (st : ArrayState) (value : Ty) : ArrayState :=
  { st with values := st.values ++ [value.withRequired false] }

/-- Put a value under an integer key. -/
def putAt (st : ArrayState) (n : Int64) (value : Ty) : ArrayState :=
  { st with next := n + 1, shape := st.shape.put (toString n.toInt) (value.withRequired true) }

/-- Put a value under a string key. -/
def putNamed (st : ArrayState) (name : String) (value : Ty) : ArrayState :=
  { st with shape := st.shape.put name (value.withRequired true) }

/-- Put a value under a key that is not literal. -/
def putOpen (st : ArrayState) (key : Ty) : ArrayState :=
  { st with openKeys := st.openKeys ++ [key.withRequired false] }

/-- The type of a key of a shape. -/
def keyType (name : String) : Ty :=
  if (Numeral.readInt64? name).isSome then .integer else .string

/-- The type of the array literal. -/
def type (st : ArrayState) : Ty :=
  if st.openKeys.isEmpty then .shape st.shape
  else .keyed (some (.union (st.openKeys ++ st.shape.keys.map keyType))) (.union st.values)

end ArrayState

variable {m : Type → Type} [Monad m]

/-- Read an entry without a key. -/
def positional (st : ArrayState) (value : m Ty) : m ArrayState := do
  let v ← value
  return (st.addValue v).putAt st.next v

/-- Read an entry with a key. A key that is not literal is typed once more for the type of the
keys. -/
def keyed (st : ArrayState) (key value : m Ty) : m ArrayState := do
  let v ← value
  let k ← key
  let st := st.addValue v
  match singleLiteral? k with
  | some (.int n) => return st.putAt n v
  | some (.str s) => return st.putNamed s v
  | _ => do
    let k ← key
    return st.putOpen k

/-! ## Access -/

/-- The type of an entry under a key. -/
def entry (target key : Ty) : Ty :=
  match fieldName? key with
  | some name => target.field name
  | none =>
    match target.kind with
    | .array item _ none _ => item.getD .unknown
    | _ => .unknown

/-- Read an entry under a key. -/
def index (target key : m Ty) : m Ty := do
  let t ← target
  let k ← key
  return entry t k

/-- Read a property. -/
def property (target : m Ty) (name : String) : m Ty := do
  let t ← target
  return t.field name

end Reading

/-! ## Reading without a catalog -/

mutual

/-- The type that can be read off a term alone: calls and entities are unknown. -/
def Term.read : Term → Env → Ty
  | .known ty, _ => ty
  | .param name, env => env.type name
  | .array items, env => (Term.readItems items env {}).type
  | .index target key, env => Reading.index (m := Id) (target.read env) (key.read env)
  | .property target name, env => Reading.property (m := Id) (target.read env) name
  | .branches arms, env => .union (Term.readList arms env)
  | .unknown, _ | .entity _, _ | .call .., _ | .closure .., _ => .unknown

/-- The types of terms. -/
def Term.readList : List Term → Env → List Ty
  | [], _ => []
  | t :: rest, env => t.read env :: Term.readList rest env

/-- The entries of an array literal. -/
def Term.readItems : List TermItem → Env → Reading.ArrayState → Reading.ArrayState
  | [], _, st => st
  | .positional value :: rest, env, st =>
    Term.readItems rest env (Reading.positional (m := Id) st (value.read env))
  | .keyed key value :: rest, env, st =>
    Term.readItems rest env (Reading.keyed (m := Id) st (key.read env) (value.read env))

end

/-- What a function returns for argument types, as far as it can be read off the term. -/
def Term.readCall? (types : List Ty) : Term → Option Ty
  | .closure params body => some (body.read (Env.bind [] params types))
  | _ => none

end QueryTypes
