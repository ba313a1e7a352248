import QueryTypes.Query.Method
import QueryTypes.Query.Row

/-!
# Results of query chains

The row of a chain of calls on an entity (`resolveRow`), and what its last call makes of it
(`resolveResult`).
-/

set_option autoImplicit false

namespace QueryTypes

/-! ## The row of a chain -/

/-- What a chain selects and loads. -/
structure Selection where
  variants : List Projection := [.everything]
  relations : RelationTree := .empty

/-- The selection after a call. -/
def Selection.step (s : Selection) (call : Step) : Selection :=
  match call.name with
  | "select" => { s with variants := Projection.select call.argTypes }
  | "addSelect" => { s with variants := Projection.addSelect s.variants call.argTypes }
  | "get" | "first" =>
    match call.argTypes with
    | [] => s
    | columns :: _ => { s with variants := Projection.select [columns] }
  | "with" => { s with relations := s.relations.addArguments call.argTypes }
  | _ => s

/-- The selection of calls in order. -/
def Selection.ofSteps (steps : List Step) : Selection := steps.foldl Selection.step {}

/-- The rows of an entity, one for each variant of a projection. -/
def projectedRows (cx : Context) (entity : String) (variants : List Projection) : Infer (List Ty) :=
  if variants = [.everything] then do
    let row ← entityRow cx entity
    return [row]
  else do
    let columns ← catalogColumns cx entity
    variants.mapM (Row.project (innerRow cx) (.of cx.catalog entity columns) entity)

/-- What keeps the calls on an entity from having a row: a finisher before the end, or a method that
is not declared when that is asked for. -/
def misuse? (cx : Context) (steps : List Step) : Option Subject :=
  match steps.dropLast.find? fun s => isFinisher s.name with
  | some s => some (.earlyFinisher s.name)
  | none =>
    if cx.config.verifyMethods then
      (steps.find? fun s => !Contract.anyHas s.name).map fun s => .notBuilderMethod s.name
    else none

/-- The row of a chain, if it is a query on an entity. -/
def resolveRow (cx : Context) (chain : Chain) : Infer (Option Ty) :=
  match chain.root with
  | none => unresolved cx none .noRoot
  | some entity =>
    match misuse? cx chain.steps with
    | some what => unresolved cx (some entity) what
    | none => do
      let selection := Selection.ofSteps chain.steps
      let rows ← projectedRows cx entity selection.variants
      let rows ← rows.mapM (attachRelations cx entity cx.config.maxDepth selection.relations)
      return some (.union rows)

/-! ## The result of a chain -/

/-- The type of the columns that an argument names; `none` when it is not known to be literal. -/
def pluckedColumns (cx : Context) (entity : String) (columns : List Column) (arg : Ty) :
    Infer (Option Ty) :=
  match arg.alternatives.flatten with
  | [] => do
    note (some entity) .pluckNotLiteral
    return none
  | names => do
    let ts ← names.mapM fun name => do
      let t ← Row.refType (innerRow cx) columns (cx.catalog.table? entity) (.ofString name)
      return t.withRequired false
    return some (.union ts)

/-- The column of an optional argument. -/
def pluckedArgument (cx : Context) (entity : String) (columns : List Column) :
    Option Ty → Infer (Option Ty)
  | some arg => pluckedColumns cx entity columns arg
  | none => return none

/-- What the last call of a chain makes of its row. -/
def finish (cx : Context) (entity : String) (last : Step) (row : Ty) : Infer (Option Ty) :=
  match Ending.ofMethod last.name with
  | .rows => return some ((Ty.list row).withOrigin (some collectionOrigin))
  | .pluck => do
    let columns ← catalogColumns cx entity
    let value ← pluckedArgument cx entity columns last.argTypes[0]?
    let key ← pluckedArgument cx entity columns last.argTypes[1]?
    return some ((Ty.keyed key (value.getD .unknown)).withOrigin (some collectionOrigin))
  | .rowOrNull => return some row.nullable
  | .row => return some row
  | .value => do
    let columns ← catalogColumns cx entity
    match last.argTypes[0]? with
    | some arg => do
      let value ← pluckedColumns cx entity columns arg
      return some (value.getD .unknown).nullable
    | none => return some .unknown
  | .count => return some (.integerFrom 0)
  | .test => return some .boolean
  | .page kind => return some (kind.envelope row)
  | .declared =>
    match Contract.declaredReturn? last.name with
    | some t => return some t
    | none => unresolved cx (some entity) (.builderMethod last.name)

/-- The result of a chain, by its last call. -/
def resolveResult (cx : Context) (chain : Chain) : Infer (Option Ty) :=
  match chain.steps.getLast? with
  | none => unresolved cx chain.root .bareEntity
  | some last => do
    match ← resolveRow cx chain with
    | none => return none
    | some row => finish cx (chain.root.getD "") last row

end QueryTypes
