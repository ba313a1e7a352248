import QueryTypes.Ty.Basic

/-!
# Configuration

How far and how strictly types are inferred.
-/

set_option autoImplicit false

namespace QueryTypes

/-- The policy of an inference. -/
structure Config where
  /-- The depth to which types, rows and branches are followed. -/
  maxDepth : Nat := defaultDepth
  /-- A chain may only have methods that one of the contracts declares. -/
  verifyMethods : Bool := false
  /-- What cannot be resolved is an error. -/
  strict : Bool := false
  /-- The kind of a field whose rules do not determine one. -/
  defaultRuleKind : ScalarKind := .string
  deriving DecidableEq, Inhabited

end QueryTypes
