import QueryTypes.Request

/-!
# Sessions

A session runs one task after the other against one catalog. Every task has its own policy and its
own notes; the rows computed for whole entities are kept from task to task.
-/

set_option autoImplicit false

namespace QueryTypes

/-- What a session can be asked for. -/
inductive Task where
  /-- The type of an expression. -/
  | infer (scope : Scope) (expr : Expr)
  /-- The row of a chain. -/
  | row (scope : Scope) (expr : Expr)
  /-- The result of a chain. -/
  | result (scope : Scope) (expr : Expr)
  /-- The type of a form. -/
  | form (rules : Entries Rules.RuleSet)

/-- The inference of a task. -/
def Task.infer? (cx : Context) : Task → Infer (Option Ty)
  | .infer scope expr => do
    let t ← QueryTypes.infer cx scope expr
    return some t
  | .row scope expr => do
    let chain ← walk cx scope expr
    resolveRow cx chain
  | .result scope expr => do
    let chain ← walk cx scope expr
    resolveResult cx chain
  | .form rules => do
    let t ← Rules.formType cx rules
    return some t

/-- What a task answers: its result and its notes, and the rows known after it. -/
structure Report (α : Type) where
  result : α
  notes : List Note
  rows : RowCache

/-- Run an inference on known rows, with notes of its own. -/
def Tracked.report {α : Type} (x : Tracked α) (rows : RowCache) : Report α :=
  let (result, progress) := x.run { rows }
  ⟨result, progress.notes, progress.rows⟩

/-- Run a task on known rows. -/
def Task.run (catalog : Catalog) (config : Config) (rows : RowCache) (task : Task) :
    Report (Except InferError (Option Ty)) :=
  Tracked.report (task.infer? ⟨config, catalog⟩).run rows

/-- Run tasks one after the other. -/
def runSession (catalog : Catalog) :
    RowCache → List (Config × Task) → List (Report (Except InferError (Option Ty)))
  | _, [] => []
  | rows, (config, task) :: rest =>
    let report := task.run catalog config rows
    report :: runSession catalog report.rows rest

end QueryTypes
