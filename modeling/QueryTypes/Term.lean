import QueryTypes.Expr
import QueryTypes.Ty.Literals

/-!
# Terms

A term is an expression with its variables resolved: a variable of the scope is replaced by the term
of its definition, a parameter of a surrounding closure keeps its name, and an unbound variable is
unknown. Literal values and expressions of known type are their types, and a method called on an
entity's name is a call on the entity.

`Expr.link` resolves an expression against the definitions of a scope (`Scope.definitions`), which
are linked one after the other, each against those before it. Everything that follows an expression
to its definition is therefore structural recursion on terms.
-/

set_option autoImplicit false

namespace QueryTypes

/-! ## Data -/

mutual

/-- An expression without variables of the scope. -/
inductive Term where
  /-- Nothing is known. -/
  | unknown
  /-- A value of a known type. -/
  | known (ty : Ty)
  /-- An entity. -/
  | entity (name : String)
  /-- A parameter of a surrounding closure. -/
  | param (name : String)
  /-- A method called on a receiver. -/
  | call (receiver : Term) (method : String) (args : List Term)
  /-- An array literal. -/
  | array (items : List TermItem)
  /-- An entry of an array. -/
  | index (target key : Term)
  /-- A property of an object. -/
  | property (target : Term) (name : String)
  /-- A function. -/
  | closure (params : List String) (body : Term)
  /-- One of several values. -/
  | branches (arms : List Term)

/-- An entry of an array literal. -/
inductive TermItem where
  /-- A value under the next free position. -/
  | positional (value : Term)
  /-- A value under a key. -/
  | keyed (key value : Term)

end

instance : Inhabited Term := ⟨.unknown⟩

/-- Terms under names, the latest definition first. -/
abbrev Definitions := List (String × Term)

/-! ## Linking -/

mutual

/-- The term of an expression under definitions and inside closures with the given parameters. -/
def Expr.link (defs : Definitions) (params : List String) : Expr → Term
  | .entity name => .entity name
  | .var name => if name ∈ params then .param name else (defs.lookup name).getD .unknown
  | .call receiver method args =>
    .call (receiver.link defs params) method (Expr.linkList defs params args)
  | .staticCall name method args => .call (.entity name) method (Expr.linkList defs params args)
  | .literal value => .known (.ofJson value)
  | .typed ty => .known ty
  | .array items => .array (Expr.linkItems defs params items)
  | .index target key => .index (target.link defs params) (key.link defs params)
  | .property target name => .property (target.link defs params) name
  | .closure own body => .closure own (body.link defs (own ++ params))
  | .branches arms => .branches (Expr.linkList defs params arms)
  | .obscure => .unknown

/-- The terms of expressions. -/
def Expr.linkList (defs : Definitions) (params : List String) : List Expr → List Term
  | [] => []
  | e :: rest => e.link defs params :: Expr.linkList defs params rest

/-- The terms of the entries of an array literal. -/
def Expr.linkItems (defs : Definitions) (params : List String) : List Item → List TermItem
  | [] => []
  | .positional value :: rest =>
    .positional (value.link defs params) :: Expr.linkItems defs params rest
  | .keyed key value :: rest =>
    .keyed (key.link defs params) (value.link defs params) :: Expr.linkItems defs params rest

end

@[simp] theorem Expr.linkList_eq_map (defs : Definitions) (params : List String) (es : List Expr) :
    Expr.linkList defs params es = es.map (Expr.link defs params) := by
  induction es with
  | nil => simp [Expr.linkList]
  | cons e rest ih => simp [Expr.linkList, ih]

namespace Scope

/-- The definitions of a scope, each linked against those before it. -/
def definitions (s : Scope) : Definitions :=
  s.foldl (fun defs a => (a.name, a.value.link defs []) :: defs) []

/-- The term of an expression at the end of a scope. -/
def term (s : Scope) (e : Expr) : Term := e.link s.definitions []

@[simp] theorem definitions_nil : definitions [] = [] := rfl

@[simp] theorem definitions_assign (s : Scope) (name : String) (e : Expr) :
    (s.assign name e).definitions = (name, s.term e) :: s.definitions := by
  simp [definitions, assign, term]

end Scope

/-! ## How far each call of a chain sees -/

/-- The number of assignments that the arguments of each call of a chain see, first call first,
given those of the variables that may start it. -/
def Expr.reach (starts : List (String × List Nat)) (visible : Nat) : Expr → List Nat
  | .call receiver _ _ => receiver.reach starts visible ++ [visible]
  | .staticCall .. => [visible]
  | .var name => (starts.lookup name).getD []
  | _ => []

/-- The numbers of assignments seen by the chains assigned in a scope, the latest first. -/
def Scope.reaches (s : Scope) : List (String × List Nat) :=
  (s.foldl (fun (starts, visible) a =>
    ((a.name, a.value.reach starts visible) :: starts, visible + 1))
    ([], 0)).1

end QueryTypes
