import QueryTypes.Catalog.Basic
import QueryTypes.Config
import QueryTypes.Ty.Union

/-!
# Inferences

An inference reads a catalog under a policy. It keeps the rows it has computed for whole entities,
records notes about what it could not resolve, and may fail. A failure does not undo what was kept
and recorded before it, so the state lies below the errors.
-/

set_option autoImplicit false

namespace QueryTypes

/-! ## Failures and notes -/

/-- What could not be resolved. -/
inductive Subject where
  /-- A chain that does not start at an entity. -/
  | noRoot
  /-- A chain with a method after one that runs the query. -/
  | earlyFinisher (method : String)
  /-- A method that no contract declares. -/
  | notBuilderMethod (method : String)
  /-- An entity without a method. -/
  | bareEntity
  /-- A last method without a declared return. -/
  | builderMethod (method : String)
  /-- A method of collections. -/
  | collectionMethod (method : String)
  deriving DecidableEq

/-- A name between backticks. -/
def quoted (name : String) : String := "`" ++ name ++ "`"

/-- The words for what could not be resolved. -/
def Subject.text : Subject → String
  | .noRoot => "builder chain without a known root entity"
  | .earlyFinisher method => "chain finished early by " ++ quoted method
  | .notBuilderMethod method => quoted method ++ " is not a builder method"
  | .bareEntity => "bare entity reference"
  | .builderMethod method => "builder method " ++ quoted method
  | .collectionMethod method => "collection method " ++ quoted method

/-- Why an inference fails. -/
inductive InferError where
  /-- A rule path that starts with a wildcard. -/
  | wildcardRoot (path : String)
  /-- A rule path with an empty segment. -/
  | emptySegment (path : String)
  /-- A catalog that could not be read, under a strict policy. -/
  | catalog (entity : String) (source : CatalogError)
  /-- Something that could not be resolved, under a strict policy. -/
  | unresolvable (what : Subject) (entity : Option String)
  deriving DecidableEq

/-- The text of a failure. -/
def InferError.message : InferError → String
  | .wildcardRoot path => "rule path " ++ quoted path ++ " starts with a wildcard segment"
  | .emptySegment path => "rule path " ++ quoted path ++ " contains an empty segment"
  | .catalog entity source =>
    "catalog for entity " ++ quoted entity ++ " could not be read: " ++ source.message
  | .unresolvable what none => "cannot resolve " ++ what.text
  | .unresolvable what (some entity) =>
    "cannot resolve " ++ what.text ++ " (entity " ++ quoted entity ++ ")"

/-- What a note says. -/
inductive Cause where
  /-- The columns of an entity could not be read. -/
  | catalogUnavailable (source : CatalogError)
  /-- Something could not be resolved. -/
  | unresolved (what : Subject)
  /-- A relation that the entity does not have. -/
  | unknownRelation (name : String)
  /-- A column argument whose value is not known. -/
  | pluckNotLiteral
  /-- An inclusion rule whose values are not known. -/
  | inclusionWithoutValues (key : String)
  /-- An enumeration could not be read. -/
  | enumUnavailable (key : String) (source : CatalogError)
  /-- The inference of a part failed. -/
  | failure (error : InferError)
  deriving DecidableEq

/-- The text of a note. -/
def Cause.message : Cause → String
  | .catalogUnavailable source => "catalog unavailable: " ++ source.message
  | .unresolved what => "cannot resolve " ++ what.text
  | .unknownRelation name => "unknown relation " ++ quoted name
  | .pluckNotLiteral => "pluck argument is not a literal column name"
  | .inclusionWithoutValues key => quoted key ++ ": inclusion rule without literal values"
  | .enumUnavailable key source => quoted key ++ ": " ++ source.message
  | .failure error => error.message

/-- A note about something that was given up, and the entity it concerns. -/
structure Note where
  entity : Option String
  cause : Cause
  deriving DecidableEq

/-- The text of a note. -/
def Note.message (n : Note) : String := n.cause.message

/-- The text of a note with its entity in front. -/
def Note.line (n : Note) : String :=
  match n.entity with
  | some entity => entity ++ ": " ++ n.message
  | none => n.message

/-! ## State -/

/-- What a row depends on: the entity and the policy. -/
structure RowKey where
  entity : String
  maxDepth : Nat
  strict : Bool
  deriving DecidableEq

/-- Rows of whole entities. -/
abbrev RowCache := List (RowKey × Ty)

/-- The row of a key. -/
def RowCache.find? (rows : RowCache) (key : RowKey) : Option Ty := rows.lookup key

/-- What an inference keeps: computed rows, and notes in the order in which they were recorded. -/
structure Progress where
  rows : RowCache := []
  notes : List Note := []

/-- What an inference reads: a policy and a catalog. -/
structure Context where
  config : Config
  catalog : Catalog

/-- The key of an entity's row under the policy. -/
def Context.rowKey (cx : Context) (entity : String) : RowKey :=
  ⟨entity, cx.config.maxDepth, cx.config.strict⟩

/-- Inferences that cannot fail. -/
abbrev Tracked := StateM Progress

/-- Inferences that may fail, keeping their state. -/
abbrev Infer := ExceptT InferError Tracked

/-- Record a note. -/
def note (entity : Option String) (cause : Cause) : Tracked Unit :=
  modify fun p => { p with notes := p.notes ++ [⟨entity, cause⟩] }

/-- Give up on something: a failure under a strict policy, otherwise a note. -/
def unresolved {α : Type} (cx : Context) (entity : Option String) (what : Subject) :
    Infer (Option α) :=
  if cx.config.strict then throw (.unresolvable what entity)
  else do
    note entity (.unresolved what)
    return none

/-- Run an inference; its failure becomes a note and an unknown type. -/
def degrade (x : Infer Ty) : Tracked Ty := do
  match ← x.run with
  | .ok t => return t
  | .error error => do
    note none (.failure error)
    return .unknown

/-! ## Chains -/

/-- A typed argument. An argument that can be called answers for the types of its own arguments. -/
structure Argument where
  ty : Ty
  call? : Option (List Ty → Tracked Ty) := none

/-- A call of a chain. -/
structure Step where
  name : String
  args : List Argument

/-- The types of the arguments of a call. -/
def Step.argTypes (s : Step) : List Ty := s.args.map Argument.ty

/-- Calls in the order in which they apply, and the entity they start from. -/
structure Chain where
  root : Option String
  steps : List Step

/-- The chain up to a step, which is included. -/
def Chain.through (c : Chain) (n : Nat) : Chain := { c with steps := c.steps.take (n + 1) }

end QueryTypes
