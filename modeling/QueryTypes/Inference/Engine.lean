import QueryTypes.Collection
import QueryTypes.Inference.Reading
import QueryTypes.Query.Result

/-!
# Inferring the type of a term

Calls are inferred along their chain. A chain that starts at an entity is a query up to the first
method that runs it; the calls after that are collection methods. A chain that does not is a
collection method on the type of its receiver. Everything else is read off its parts.

Parts of a term are inferred anew at full depth, and their failure is only noted. Depth is spent on
branches alone. The recursion is structural: receivers, arguments, entries, arms and bodies are all
parts of the term, and a callback is a function that was made when its argument was typed.
-/

set_option autoImplicit false

namespace QueryTypes

/-- Apply a collection method to the result of a query. -/
def applyStep (cx : Context) (receiver : Ty) (step : Step) : Infer Ty := do
  match ← resolveCollectionMethod cx.config.maxDepth step.name receiver step.args with
  | some t => return t
  | none => do
    let t ← unresolved cx none (.collectionMethod step.name)
    return t.getD .unknown

/-- The calls up to the first that runs a query, which is included, and the calls after it. -/
def splitAtFinisher : List Step → List Step × List Step
  | [] => ([], [])
  | s :: rest =>
    if isFinisher s.name then ([s], rest)
    else
      let (query, after) := splitAtFinisher rest
      (s :: query, after)

/-- The type of a chain that starts at an entity. -/
def resolveChain (cx : Context) (chain : Chain) : Infer Ty := do
  let (query, after) := splitAtFinisher chain.steps
  match ← resolveResult cx { chain with steps := query } with
  | some t => after.foldlM (applyStep cx) t
  | none => return .unknown

mutual

/-- The type of a term to a depth. -/
def Term.infer (cx : Context) : Term → Env → Nat → Infer Ty
  | _, _, 0 => return .unknown
  | .known ty, _, _ + 1 => return ty
  | .param name, env, _ + 1 => return env.type name
  | .array items, env, _ + 1 => do
    let st ← Term.inferItems cx items env {}
    return st.type
  | .index target key, env, _ + 1 =>
    liftM (Reading.index (degrade (target.infer cx env cx.config.maxDepth))
      (degrade (key.infer cx env cx.config.maxDepth)))
  | .property target name, env, _ + 1 =>
    liftM (Reading.property (degrade (target.infer cx env cx.config.maxDepth)) name)
  | .branches arms, env, depth + 1 => do
    let ts ← Term.inferArms cx arms env depth
    return .union ts
  | .call receiver method args, env, depth + 1 => do
    let own ← Term.arguments cx args env
    let chain ← receiver.chain cx env
    let chain := { chain with steps := chain.steps ++ [⟨method, own⟩] }
    if chain.root.isSome then resolveChain cx chain
    else do
      let t ← receiver.infer cx env (depth + 1)
      let again ← Term.arguments cx args env
      let result ← resolveCollectionMethod cx.config.maxDepth method t again
      return result.getD .unknown
  | .unknown, _, _ + 1 | .entity _, _, _ + 1 | .closure .., _, _ + 1 => return .unknown

/-- The types of the arms of a branch, up to the first failure. -/
def Term.inferArms (cx : Context) : List Term → Env → Nat → Infer (List Ty)
  | [], _, _ => return []
  | t :: rest, env, depth => do
    let first ← t.infer cx env depth
    let others ← Term.inferArms cx rest env depth
    return first :: others

/-- The entries of an array literal. -/
def Term.inferItems (cx : Context) :
    List TermItem → Env → Reading.ArrayState → Tracked Reading.ArrayState
  | [], _, st => return st
  | .positional value :: rest, env, st => do
    let st ← Reading.positional st (degrade (value.infer cx env cx.config.maxDepth))
    Term.inferItems cx rest env st
  | .keyed key value :: rest, env, st => do
    let st ← Reading.keyed st (degrade (key.infer cx env cx.config.maxDepth))
      (degrade (value.infer cx env cx.config.maxDepth))
    Term.inferItems cx rest env st

/-- The arguments of a call, typed from left to right. -/
def Term.arguments (cx : Context) : List Term → Env → Tracked (List Argument)
  | [], _ => return []
  | t :: rest, env => do
    let ty ← degrade (t.infer cx env cx.config.maxDepth)
    let others ← Term.arguments cx rest env
    return ⟨ty, t.callable? cx env⟩ :: others

/-- What a function returns for the types of its arguments. -/
def Term.callable? (cx : Context) : Term → Env → Option (List Ty → Tracked Ty)
  | .closure params body, env =>
    some fun types => degrade (body.infer cx (env.bind params types) cx.config.maxDepth)
  | _, _ => none

/-- The chain of calls that a term is. The arguments of the last call are typed first. -/
def Term.chain (cx : Context) : Term → Env → Tracked Chain
  | .call receiver method args, env => do
    let own ← Term.arguments cx args env
    let chain ← receiver.chain cx env
    return { chain with steps := chain.steps ++ [⟨method, own⟩] }
  | .entity name, _ => return ⟨some name, []⟩
  | _, _ => return ⟨none, []⟩

end

@[simp] theorem Term.infer_zero (cx : Context) (t : Term) (env : Env) :
    t.infer cx env 0 = pure .unknown := by
  cases t <;> rfl

/-- The type of an expression at the end of a scope. -/
def infer (cx : Context) (scope : Scope) (e : Expr) : Infer Ty :=
  (scope.term e).infer cx [] cx.config.maxDepth

/-- The chain of calls that an expression is at the end of a scope. -/
def walk (cx : Context) (scope : Scope) (e : Expr) : Tracked Chain := (scope.term e).chain cx []

/-- Arguments at the end of a scope. -/
def typeArguments (cx : Context) (scope : Scope) (es : List Expr) : Tracked (List Argument) :=
  Term.arguments cx (es.map scope.term) []

end QueryTypes
