import QueryTypes.Document.Catalog
import QueryTypes.Document.Expr
import QueryTypes.Document.Rules
import QueryTypes.Inference.Engine
import QueryTypes.Rules.Map
import QueryTypes.Schema

/-!
# Requests

A request document asks for the type of an expression or of a form. Running it answers the type, its
schema and the notes of the inference, or the reason why it failed.
-/

set_option autoImplicit false

namespace QueryTypes

/-! ## Documents -/

/-- A request for the type of an expression. -/
structure ChainRequest where
  config : Config := {}
  catalog : Catalog := {}
  scope : Scope := []
  expr : Expr

/-- A request for the type of a form. -/
structure RulesRequest where
  config : Config := {}
  catalog : Catalog := {}
  rules : Entries Rules.RuleSet

/-- Read a request for the type of an expression. -/
def ChainRequest.decode : Json → Decode ChainRequest :=
  Record.read 4 (ChainRequest.mk <$> .optional 0 "config" {} Config.decode <*>
    .optional 1 "catalog" {} Catalog.decode <*> .optional 2 "scope" [] Scope.decode <*>
    .required 3 "expr" Expr.decode)

/-- Read a request for the type of a form. -/
def RulesRequest.decode : Json → Decode RulesRequest :=
  Record.read 3 (RulesRequest.mk <$> .optional 0 "config" {} Config.decode <*>
    .optional 1 "catalog" {} Catalog.decode <*>
    .required 2 "rules" (Decode.entries Rules.RuleSet.decode))

/-! ## Running -/

/-- The answer to a request. -/
structure Outcome where
  ty : Ty
  notes : List Note

/-- The schema of the answer. -/
def Outcome.schema (o : Outcome) : Schema := o.ty.schema

/-- Run an inference from nothing. -/
def runInference (x : Infer Ty) : Except InferError Outcome :=
  match x.run.run {} with
  | (.ok ty, progress) => .ok ⟨ty, progress.notes⟩
  | (.error error, _) => .error error

/-- Infer the type of the expression. -/
def ChainRequest.run (r : ChainRequest) : Except InferError Outcome :=
  runInference (infer ⟨r.config, r.catalog⟩ r.scope r.expr)

/-- Infer the type of the form. -/
def RulesRequest.run (r : RulesRequest) : Except InferError Outcome :=
  runInference (Rules.formType ⟨r.config, r.catalog⟩ r.rules)

end QueryTypes
