import QueryTypes.Inference.Engine
import QueryTypes.Proofs.Structure

/-!
# The questions of an inference

An inference in a scope is a conversation of questions: what is the type of an expression, where
does a chain of calls start, what does a function return, what is the row of an entity. A variable
is followed to its assignment and read in the scope as it stood there, a callback is read in a scope
that is longer by its typed parameters, and every argument, entry and callback is typed anew at full
depth.

This module says how each question is answered from the answers to others (`reply`), without any
recursion: the answers to the questions it asks are a parameter. Which questions it asks is the
relation `Asks`.
-/

set_option autoImplicit false

namespace QueryTypes

/-! ## Chains as they stand -/

/-- An argument of a call: the expression, the scope it stands in, and its type. -/
structure Operand where
  expr : Expr
  scope : Scope
  ty : Ty

/-- A call of a chain with its arguments. -/
structure Call where
  method : String
  operands : List Operand

/-- Arguments that stand in one scope, with their types. -/
def operands (s : Scope) (args : List Expr) (types : List Ty) : List Operand :=
  List.zipWith (fun a t => ⟨a, s, t⟩) args types

theorem scope_expr_of_mem_operands {s : Scope} {args : List Expr} {types : List Ty} {o : Operand}
    (h : o ∈ operands s args types) : o.scope = s ∧ o.expr ∈ args := by
  induction args generalizing types with
  | nil => exact absurd h List.not_mem_nil
  | cons a rest ih =>
    cases types with
    | nil => exact absurd h List.not_mem_nil
    | cons t types =>
      rcases List.mem_cons.1 h with rfl | h
      · exact ⟨rfl, List.mem_cons_self⟩
      · obtain ⟨hscope, hexpr⟩ := ih h
        exact ⟨hscope, List.mem_cons_of_mem _ hexpr⟩

/-- A call stands in the chain that an expression is, followed through variables. -/
inductive Along : Expr → Scope → Call → Prop
  | last {receiver : Expr} {method : String} {args : List Expr} {s : Scope} {ops : List Operand}
      (h : ∀ o ∈ ops, o.scope = s ∧ o.expr ∈ args) :
      Along (.call receiver method args) s ⟨method, ops⟩
  | receiver {receiver : Expr} {method : String} {args : List Expr} {s : Scope} {c : Call}
      (h : Along receiver s c) : Along (.call receiver method args) s c
  | start {entity method : String} {args : List Expr} {s : Scope} {ops : List Operand}
      (h : ∀ o ∈ ops, o.scope = s ∧ o.expr ∈ args) :
      Along (.staticCall entity method args) s ⟨method, ops⟩
  | var {name : String} {s : Scope} {pos : Nat} {value : Expr} {c : Call}
      (hfound : s.lookup? name s.endPos = some (pos, value)) (h : Along value (s.upTo pos) c) :
      Along (.var name) s c

/-- The chain of calls that an expression is: where it starts, and its calls in the order in which
they apply. -/
structure Trail (e : Expr) (s : Scope) where
  root : Option String
  calls : List Call
  along : ∀ c ∈ calls, Along e s c

namespace Trail

/-- A chain without calls. -/
def bare {e : Expr} {s : Scope} (root : Option String) : Trail e s :=
  ⟨root, [], fun _ hc => absurd hc List.not_mem_nil⟩

/-- A chain with one more call. -/
def call {receiver : Expr} {s : Scope} (t : Trail receiver s) (method : String) (args : List Expr)
    (types : List Ty) : Trail (.call receiver method args) s where
  root := t.root
  calls := t.calls ++ [⟨method, operands s args types⟩]
  along := List.forall_mem_append.2 ⟨fun c hc => .receiver (t.along c hc),
    List.forall_mem_singleton.2 (.last fun _ => scope_expr_of_mem_operands)⟩

/-- A chain that starts with a method called on an entity. -/
def start (s : Scope) (entity method : String) (args : List Expr) (types : List Ty) :
    Trail (.staticCall entity method args) s where
  root := some entity
  calls := [⟨method, operands s args types⟩]
  along := List.forall_mem_singleton.2 (.start fun _ => scope_expr_of_mem_operands)

/-- The chain that was assigned to a variable. -/
def follow {s : Scope} {name : String} {pos : Nat} {value : Expr}
    (hfound : s.lookup? name s.endPos = some (pos, value)) (t : Trail value (s.upTo pos)) :
    Trail (.var name) s where
  root := t.root
  calls := t.calls
  along c hc := .var hfound (t.along c hc)

variable {e : Expr} {s : Scope}

/-- The number of calls up to the first that runs a query, which is included. -/
def cut (t : Trail e s) : Nat := (t.calls.takeWhile fun c => !isFinisher c.method).length + 1

/-- The query of a chain. It reads the types of the arguments alone. -/
def query (t : Trail e s) : Chain where
  root := t.root
  steps := (t.calls.take t.cut).map fun c => ⟨c.method, c.operands.map fun o => ⟨o.ty, none⟩⟩

/-- The calls after the query of a chain. -/
def after (t : Trail e s) : List Call := t.calls.drop t.cut

end Trail

/-- The scope with parameters assigned to types from left to right; a parameter without a type is
unknown. -/
def Scope.bindParams (s : Scope) : List String → List Ty → Scope
  | [], _ => s
  | p :: ps, types => (s.assign p (.typed (types.headD .unknown))).bindParams ps types.tail

/-! ## Types off parts -/

/-- Read an entry of an array literal off the types of its parts. -/
def Item.readOff (type : Expr → Tracked Ty) (st : Reading.ArrayState) :
    Item → Tracked Reading.ArrayState
  | .positional value => Reading.positional st (type value)
  | .keyed key value => Reading.keyed st (type key) (type value)

/-- Read the type of an expression off the types of its parts. -/
def Expr.readOff (type : Expr → Scope → Tracked Ty) (s : Scope) : Expr → Tracked Ty
  | .literal value => return .ofJson value
  | .typed ty => return ty
  | .var name =>
    match s.lookup? name s.endPos with
    | some (pos, value) => type value (s.upTo pos)
    | none => return .unknown
  | .array items => do
    let st ← items.foldlM (Item.readOff fun a => type a s) {}
    return st.type
  | .index target key => Reading.index (type target s) (type key s)
  | .property target name => Reading.property (type target s) name
  | .branches arms => do
    let ts ← arms.mapM fun a => type a s
    return .union ts
  | _ => return .unknown

/-! ## Questions and answers -/

/-- What may be asked in the course of an inference. -/
inductive Question where
  /-- The type of an expression. -/
  | infer (e : Expr) (s : Scope)
  /-- The type of an expression within a budget for nested branches. -/
  | within (e : Expr) (s : Scope) (budget : Nat)
  /-- The type of a chain of calls within a budget. -/
  | chain (e : Expr) (s : Scope) (budget : Nat)
  /-- The chain of calls that an expression is. -/
  | walk (e : Expr) (s : Scope)
  /-- The type of an expression, unknown if it cannot be inferred. -/
  | type (e : Expr) (s : Scope)
  /-- The type that is read off the parts of an expression. -/
  | read (e : Expr) (s : Scope)
  /-- What a collection method makes of a receiver. -/
  | method (name : String) (receiver : Ty) (args : List Operand)
  /-- What a function returns. -/
  | returns (e : Expr) (s : Scope)
  /-- The result of a query. -/
  | result (chain : Chain)
  /-- The row of a query. -/
  | queryRow (chain : Chain)
  /-- The row of an entity at full depth. -/
  | wholeRow (entity : String)
  /-- The row of an entity to a depth. -/
  | row (entity : String) (depth : Nat)
  /-- A row of an entity with relations loaded, to a depth. -/
  | relations (entity : String) (depth : Nat) (tree : RelationTree) (row : Ty)

/-- What a question is answered with: a computation, as it may record notes and keep rows. -/
abbrev Answer : Question → Type
  | .infer .. | .within .. | .chain .. => Infer Ty
  | .walk e s => Tracked (Trail e s)
  | .type .. | .read .. => Tracked Ty
  | .method .. => Tracked (Option Ty)
  | .returns .. => Option (List Ty → Tracked Ty)
  | .result .. | .queryRow .. => Infer (Option Ty)
  | .wholeRow .. | .row .. | .relations .. => Infer Ty

/-- An answer to every question. -/
abbrev Answers := (q : Question) → Answer q

namespace Answers

variable (cx : Context) (f : Answers)

/-- The types of arguments, from left to right. -/
def types (s : Scope) (args : List Expr) : Tracked (List Ty) := args.mapM fun a => f (.type a s)

/-! ## Expressions -/

/-- Only branches spend the budget. Calls are inferred along their chain, variables where they were
assigned, and all else is read off its parts. -/
def replyWithin (e : Expr) (s : Scope) : Nat → Infer Ty
  | 0 => return .unknown
  | budget + 1 =>
    match e with
    | .call .. | .staticCall .. => f (.chain e s (budget + 1))
    | .var name =>
      match s.lookup? name s.endPos with
      | some (pos, value) => f (.within value (s.upTo pos) (budget + 1))
      | none => liftM (m := Tracked) (f (.read e s))
    | .branches arms => do
      let ts ← arms.mapM fun a => (f (.within a s budget) : Infer Ty)
      return .union ts
    | _ => liftM (m := Tracked) (f (.read e s))

/-- Apply a collection method to the result of a query. -/
def applyCall (receiver : Ty) (c : Call) : Infer Ty := do
  match ← liftM (m := Tracked) (f (.method c.method receiver c.operands)) with
  | some t => return t
  | none => do
    let t ← unresolved cx none (.collectionMethod c.method)
    return t.getD .unknown

/-- A chain that starts at an entity is a query with collection methods after it; one that does not
is a collection method on its receiver. -/
def replyChain (e : Expr) (s : Scope) (budget : Nat) : Infer Ty := do
  let trail ← liftM (m := Tracked) (f (.walk e s))
  if trail.root.isSome then
    match ← (f (.result trail.query) : Infer (Option Ty)) with
    | some t => trail.after.foldlM (f.applyCall cx) t
    | none => return .unknown
  else
    match e with
    | .call receiver method args => do
      let t ← (f (.within receiver s budget) : Infer Ty)
      let types ← liftM (f.types s args)
      match ← liftM (m := Tracked) (f (.method method t (operands s args types))) with
      | some u => return u
      | none => liftM (m := Tracked) (f (.read e s))
    | _ => liftM (m := Tracked) (f (.read e s))

/-- The walk goes down the receivers and through variables. The arguments of the last call are typed
first. -/
def replyWalk (s : Scope) : (e : Expr) → Tracked (Trail e s)
  | .call receiver method args => do
    let types ← f.types s args
    let trail ← f (.walk receiver s)
    return trail.call method args types
  | .staticCall entity method args => do
    let types ← f.types s args
    return .start s entity method args types
  | .entity name => return .bare (some name)
  | .var name =>
    match h : s.lookup? name s.endPos with
    | some (pos, value) => do
      let trail ← f (.walk value (s.upTo pos))
      return trail.follow h
    | none => return .bare none
  | _ => return .bare none

/-- A function returns the type of its body after its parameters are assigned. -/
def replyReturns (s : Scope) : Expr → Option (List Ty → Tracked Ty)
  | .closure params body => some fun types => f (.type body (s.bindParams params types))
  | .var name =>
    match s.lookup? name s.endPos with
    | some (pos, value) => f (.returns value (s.upTo pos))
    | none => none
  | _ => none

/-! ## Queries -/

/-- The rows below the full depth, for the columns of a row. -/
def innerRow (entity : String) : Infer Ty := f (.row entity (cx.config.maxDepth - 1))

/-- The rows of an entity, one for each variant of a projection. -/
def projectedRows (entity : String) (variants : List Projection) : Infer (List Ty) :=
  if variants = [.everything] then do
    let row ← (f (.wholeRow entity) : Infer Ty)
    return [row]
  else do
    let columns ← catalogColumns cx entity
    variants.mapM (Row.project (f.innerRow cx) (.of cx.catalog entity columns) entity)

/-- The row of a query. -/
def replyQueryRow (chain : Chain) : Infer (Option Ty) :=
  match chain.root with
  | none => unresolved cx none .noRoot
  | some entity =>
    match misuse? cx chain.steps with
    | some what => unresolved cx (some entity) what
    | none => do
      let selection := Selection.ofSteps chain.steps
      let rows ← f.projectedRows cx entity selection.variants
      let rows ← rows.mapM fun row =>
        (f (.relations entity cx.config.maxDepth selection.relations row) : Infer Ty)
      return some (.union rows)

/-- The type of the columns that an argument names. -/
def plucked (entity : String) (columns : List Column) (arg : Ty) : Infer (Option Ty) :=
  match arg.alternatives.flatten with
  | [] => do
    note (some entity) .pluckNotLiteral
    return none
  | names => do
    let ts ← names.mapM fun name => do
      let t ← Row.refType (f.innerRow cx) columns (cx.catalog.table? entity) (.ofString name)
      return t.withRequired false
    return some (.union ts)

/-- The column of an optional argument. -/
def pluckedArgument (entity : String) (columns : List Column) : Option Ty → Infer (Option Ty)
  | some arg => f.plucked cx entity columns arg
  | none => return none

/-- What the last call of a query makes of its row. Only single columns ask for further rows. -/
def finish (entity : String) (last : Step) (row : Ty) : Infer (Option Ty) :=
  match Ending.ofMethod last.name with
  | .pluck => do
    let columns ← catalogColumns cx entity
    let value ← f.pluckedArgument cx entity columns last.argTypes[0]?
    let key ← f.pluckedArgument cx entity columns last.argTypes[1]?
    return some ((Ty.keyed key (value.getD .unknown)).withOrigin (some collectionOrigin))
  | .value => do
    let columns ← catalogColumns cx entity
    match last.argTypes[0]? with
    | some arg => do
      let value ← f.plucked cx entity columns arg
      return some (value.getD .unknown).nullable
    | none => return some .unknown
  | _ => QueryTypes.finish cx entity last row

/-- The result of a query, by its last call. -/
def replyResult (chain : Chain) : Infer (Option Ty) :=
  match chain.steps.getLast? with
  | none => unresolved cx chain.root .bareEntity
  | some last => do
    match ← (f (.queryRow chain) : Infer (Option Ty)) with
    | none => return none
    | some row => f.finish cx (chain.root.getD "") last row

/-- The row of an entity at full depth is computed once. -/
def replyWholeRow (entity : String) : Infer Ty :=
  if cx.config.maxDepth = 0 then return .unknown
  else do
    let key := cx.rowKey entity
    match (← get).rows.find? key with
    | some row => return row
    | none => do
      let row ← (f (.row entity cx.config.maxDepth) : Infer Ty)
      modify fun p => { p with rows := p.rows ++ [(key, row)] }
      return row

/-- The row of an entity refers to rows that are one level less deep. -/
def replyRow (entity : String) : Nat → Infer Ty
  | 0 => return .unknown
  | depth + 1 => do
    let columns ← catalogColumns cx entity
    Row.project (fun target => f (.row target depth))
      (.of cx.catalog entity columns) entity .everything

/-- Load a relation into a row. -/
def attach (entity : String) (depth : Nat) (row : Ty) (child : String × RelationTree) : Infer Ty :=
  if !(cx.catalog.visibility entity).allows child.1 then return row
  else
    match cx.catalog.relation? entity child.1 with
    | none => do
      note (some entity) (.unknownRelation child.1)
      return row
    | some relation => do
      let target ← (f (.row relation.target depth) : Infer Ty)
      let target ← (f (.relations relation.target depth child.2 target) : Infer Ty)
      return row.putProperty child.1 (relation.loaded target)

/-- Load the relations of a tree into a row. -/
def replyRelations (entity : String) (depth : Nat) (tree : RelationTree) (row : Ty) : Infer Ty :=
  if depth = 0 || !row.isObject then return row
  else tree.children.foldlM (f.attach cx entity (depth - 1)) row

/-! ## Replies -/

/-- How a question is answered from the answers to others. -/
def reply : Answers
  | .infer e s => f (.within e s cx.config.maxDepth)
  | .within e s budget => f.replyWithin e s budget
  | .chain e s budget => f.replyChain cx e s budget
  | .walk e s => f.replyWalk s e
  | .type e s => degrade (f (.infer e s))
  | .read e s => e.readOff (fun a s => f (.type a s)) s
  | .method name receiver args =>
    resolveCollectionMethod cx.config.maxDepth name receiver
      (args.map fun o => ⟨o.ty, f (.returns o.expr o.scope)⟩)
  | .returns e s => f.replyReturns s e
  | .result chain => f.replyResult cx chain
  | .queryRow chain => f.replyQueryRow cx chain
  | .wholeRow entity => f.replyWholeRow cx entity
  | .row entity depth => f.replyRow cx entity depth
  | .relations entity depth tree row => f.replyRelations cx entity depth tree row

end Answers

/-! ## What is asked -/

/-- The arguments of a call. -/
def Expr.args : Expr → List Expr
  | .call _ _ args | .staticCall _ _ args => args
  | _ => []

/-- The parts that the type of an expression is read off. -/
def Expr.parts : Expr → List Expr
  | .array items => items.flatMap Item.parts
  | .index target key => [target, key]
  | .property target _ => [target]
  | .branches arms => arms
  | _ => []

/-- The reply to the first question may ask the second. -/
inductive Asks (cx : Context) : Question → Question → Prop
  | infer (e : Expr) (s : Scope) : Asks cx (.infer e s) (.within e s cx.config.maxDepth)
  | within_chain (e : Expr) (s : Scope) (budget : Nat) :
      Asks cx (.within e s budget) (.chain e s budget)
  | within_var {name : String} {s : Scope} {pos : Nat} {value : Expr} (budget : Nat)
      (hfound : s.lookup? name s.endPos = some (pos, value)) :
      Asks cx (.within (.var name) s budget) (.within value (s.upTo pos) budget)
  | within_arm {a : Expr} {arms : List Expr} (s : Scope) (budget : Nat) (h : a ∈ arms) :
      Asks cx (.within (.branches arms) s (budget + 1)) (.within a s budget)
  | within_read (e : Expr) (s : Scope) (budget : Nat) : Asks cx (.within e s budget) (.read e s)
  | chain_walk (e : Expr) (s : Scope) (budget : Nat) : Asks cx (.chain e s budget) (.walk e s)
  | chain_result (e : Expr) (s : Scope) (budget : Nat) (query : Chain) :
      Asks cx (.chain e s budget) (.result query)
  | chain_method {e : Expr} {s : Scope} {c : Call} (budget : Nat) (receiver : Ty)
      (h : Along e s c) : Asks cx (.chain e s budget) (.method c.method receiver c.operands)
  | chain_receiver (receiver : Expr) (method : String) (args : List Expr) (s : Scope)
      (budget : Nat) :
      Asks cx (.chain (.call receiver method args) s budget) (.within receiver s budget)
  | chain_arg {a e : Expr} (s : Scope) (budget : Nat) (h : a ∈ e.args) :
      Asks cx (.chain e s budget) (.type a s)
  | chain_read (e : Expr) (s : Scope) (budget : Nat) : Asks cx (.chain e s budget) (.read e s)
  | walk_receiver (receiver : Expr) (method : String) (args : List Expr) (s : Scope) :
      Asks cx (.walk (.call receiver method args) s) (.walk receiver s)
  | walk_arg {a e : Expr} (s : Scope) (h : a ∈ e.args) : Asks cx (.walk e s) (.type a s)
  | walk_var {name : String} {s : Scope} {pos : Nat} {value : Expr}
      (hfound : s.lookup? name s.endPos = some (pos, value)) :
      Asks cx (.walk (.var name) s) (.walk value (s.upTo pos))
  | type (e : Expr) (s : Scope) : Asks cx (.type e s) (.infer e s)
  | read_part {a e : Expr} (s : Scope) (h : a ∈ e.parts) : Asks cx (.read e s) (.type a s)
  | read_var {name : String} {s : Scope} {pos : Nat} {value : Expr}
      (hfound : s.lookup? name s.endPos = some (pos, value)) :
      Asks cx (.read (.var name) s) (.type value (s.upTo pos))
  | method {o : Operand} {args : List Operand} (name : String) (receiver : Ty) (h : o ∈ args) :
      Asks cx (.method name receiver args) (.returns o.expr o.scope)
  | returns_body (params : List String) (body : Expr) (s : Scope) (types : List Ty) :
      Asks cx (.returns (.closure params body) s) (.type body (s.bindParams params types))
  | returns_var {name : String} {s : Scope} {pos : Nat} {value : Expr}
      (hfound : s.lookup? name s.endPos = some (pos, value)) :
      Asks cx (.returns (.var name) s) (.returns value (s.upTo pos))
  | result_row (query : Chain) : Asks cx (.result query) (.queryRow query)
  | result_column (query : Chain) (target : String) :
      Asks cx (.result query) (.row target (cx.config.maxDepth - 1))
  | queryRow_whole (query : Chain) (entity : String) : Asks cx (.queryRow query) (.wholeRow entity)
  | queryRow_column (query : Chain) (target : String) :
      Asks cx (.queryRow query) (.row target (cx.config.maxDepth - 1))
  | queryRow_relations (query : Chain) (entity : String) (tree : RelationTree) (row : Ty) :
      Asks cx (.queryRow query) (.relations entity cx.config.maxDepth tree row)
  | wholeRow (entity : String) : Asks cx (.wholeRow entity) (.row entity cx.config.maxDepth)
  | row (entity target : String) (depth : Nat) :
      Asks cx (.row entity (depth + 1)) (.row target depth)
  | relations_row (entity target : String) (depth : Nat) (tree : RelationTree) (row : Ty) :
      Asks cx (.relations entity (depth + 1) tree row) (.row target depth)
  | relations_nested (entity target : String) (depth : Nat) {name : String}
      {tree nested : RelationTree} (row inner : Ty) (h : (name, nested) ∈ tree.children) :
      Asks cx (.relations entity (depth + 1) tree row) (.relations target depth nested inner)

end QueryTypes
