import QueryTypes.Query.Page

/-!
# Methods of query chains

Which methods run a query, which methods the two contracts of a query builder declare and what those
return, and what a method makes of a row when it ends a chain.
-/

set_option autoImplicit false

namespace QueryTypes

/-! ## Finishers -/

/-- The methods that run a query. -/
def finishers : List String :=
  ["get", "all", "cursor", "lazy", "lazyById", "chunk", "chunkById", "each",
    "first", "firstOrFail", "firstOrNew", "firstOrCreate", "firstWhere", "sole",
    "find", "findOrFail", "findOrNew", "findMany", "value", "pluck",
    "count", "sum", "avg", "average", "min", "max", "exists", "doesntExist",
    "paginate", "simplePaginate", "cursorPaginate",
    "insert", "insertGetId", "insertOrIgnore", "update", "updateOrCreate", "upsert",
    "delete", "forceDelete", "create", "forceCreate", "increment", "decrement",
    "toSql", "dd", "dump"]

/-- The method runs the query. -/
def isFinisher (method : String) : Bool := finishers.contains method

/-! ## Contracts -/

/-- A set of declared methods. -/
inductive Contract where
  /-- The builder for rows of an entity. -/
  | model
  /-- The plain query builder. -/
  | query
  deriving DecidableEq

namespace Contract

/-- The contracts in the order in which they are asked. -/
def inOrder : List Contract := [.model, .query]

/-- The name of a contract in documents. -/
def name : Contract → String
  | .model => "eloquent"
  | .query => "query"

/-- The contract with this name in documents. -/
def ofName? (s : String) : Option Contract := inOrder.find? fun c => c.name == s

/-- The methods a contract declares. -/
def methods : Contract → List String
  | .model =>
    ["query", "newQuery", "newModelQuery", "on",
      "with", "without", "withOnly", "withCount", "withSum", "withAvg", "withExists",
      "has", "orHas", "doesntHave", "whereHas", "orWhereHas", "whereDoesntHave",
      "whereRelation", "whereBelongsTo", "latest", "oldest", "scopes", "withTrashed",
      "onlyTrashed", "withoutTrashed", "withGlobalScope", "withoutGlobalScopes",
      "find", "findOrFail", "findOrNew", "findMany", "first", "firstOrFail",
      "firstOrNew", "firstOrCreate", "firstWhere", "sole", "create", "forceCreate",
      "updateOrCreate", "get", "all", "cursor", "lazy", "lazyById", "chunk", "chunkById",
      "each", "pluck", "value", "paginate", "simplePaginate", "cursorPaginate",
      "update", "delete", "forceDelete", "increment", "decrement", "toSql", "dd", "dump"]
  | .query =>
    ["select", "addSelect", "selectRaw", "distinct", "from", "join", "leftJoin",
      "rightJoin", "crossJoin", "where", "orWhere", "whereNot", "whereIn", "whereNotIn",
      "whereNull", "whereNotNull", "whereBetween", "whereNotBetween", "whereDate",
      "whereColumn", "whereRaw", "whereExists", "whereJsonContains", "groupBy",
      "having", "havingRaw", "orderBy", "orderByDesc", "orderByRaw", "inRandomOrder",
      "reorder", "limit", "offset", "take", "skip", "forPage", "when", "unless", "tap",
      "lockForUpdate", "sharedLock", "get", "first", "find", "value", "pluck", "count",
      "sum", "avg", "average", "min", "max", "exists", "doesntExist", "paginate",
      "simplePaginate", "cursorPaginate", "insert", "insertGetId", "insertOrIgnore",
      "update", "upsert", "delete", "increment", "decrement", "cursor", "lazy",
      "chunk", "each", "toSql", "dd", "dump"]

/-- The contract declares a method. -/
def has (c : Contract) (method : String) : Bool := c.methods.contains method

/-- The declared return type of a method; unknown for one that goes on building or only prints. -/
def returnOf : String → Ty
  | "toSql" => .string
  | "sum" => .union [.integer, .float]
  | "avg" | "average" => Ty.float.nullable
  | "min" | "max" => .union [.integer, .float, .string, .null]
  | "insert" | "chunk" | "chunkById" | "each" => .boolean
  | "insertOrIgnore" | "update" | "upsert" | "delete" | "forceDelete" | "increment" | "decrement"
  | "insertGetId" => .integer
  | _ => .unknown

/-- What a method returns, if the contract declares it. -/
def returns? (c : Contract) (method : String) : Option Ty :=
  if c.has method then some (returnOf method) else none

/-- One of the contracts declares the method. -/
def anyHas (method : String) : Bool := inOrder.any (·.has method)

/-- What a method returns by the first contract that declares it. -/
def declaredReturn? (method : String) : Option Ty := inOrder.findSome? (·.returns? method)

end Contract

/-! ## Endings -/

/-- What the last method of a chain makes of its rows. -/
inductive Ending where
  /-- All rows. -/
  | rows
  /-- One column of all rows. -/
  | pluck
  /-- A row or null. -/
  | rowOrNull
  /-- A row. -/
  | row
  /-- One column of a row. -/
  | value
  /-- The number of rows. -/
  | count
  /-- Whether there are rows. -/
  | test
  /-- A page of rows. -/
  | page (kind : PageKind)
  /-- What a contract declares. -/
  | declared
  deriving DecidableEq

/-- The text ends in a suffix. -/
def endsIn (suffix text : String) : Bool := suffix.toList.isSuffixOf text.toList

/-- What a method makes of the rows when it ends a chain. -/
def Ending.ofMethod (method : String) : Ending :=
  match method with
  | "get" | "all" | "cursor" | "lazy" | "lazyById" | "findMany" => .rows
  | "pluck" => .pluck
  | "first" | "firstWhere" | "find" | "latest" | "oldest" => .rowOrNull
  | "sole" | "create" | "forceCreate" | "updateOrCreate" => .row
  | "value" => .value
  | "count" => .count
  | "exists" | "doesntExist" => .test
  | _ =>
    if ["OrFail", "OrNew", "OrCreate"].any fun suffix => endsIn suffix method then .row
    else
      match PageKind.ofMethod? method with
      | some kind => .page kind
      | none => .declared

end QueryTypes
