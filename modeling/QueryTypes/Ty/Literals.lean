import QueryTypes.Json.Basic
import QueryTypes.Number.Numeral
import QueryTypes.Ty.Basic

/-!
# Literal values and types

The type of a literal value (`Ty.ofJson`), the literals a type is narrowed to (`Ty.literals?`), and
the lists of strings a type can stand for (`Ty.alternatives`).
-/

set_option autoImplicit false

namespace QueryTypes

/-! ## The type of a literal -/

/-- The literal as a document. -/
def Literal.toJson : Literal → Json
  | .bool b => .bool b
  | .int n => .int n.toInt
  | .float x => .ofDouble x
  | .str s => .str s

/-- The literal an integer is written as: an integer of 64 bits, otherwise the nearest double. -/
def Literal.ofInt (n : Int) : Literal :=
  if Numeral.fitsInt64 n then .int (Int64.ofInt n) else .float (.ofInt n)

namespace Ty

/-- Exactly one literal. -/
def ofLiteral (l : Literal) : Ty := literalSet l.kind [l]

mutual

/-- The type of a literal value: lists and objects are shapes whose entries are all there. -/
def ofJson : Json → Ty
  | .null => null
  | .bool b => ofLiteral (.bool b)
  | .int n => ofLiteral (.ofInt n)
  | .float x => ofLiteral (.float x)
  | .str s => ofLiteral (.str s)
  | .arr xs => shape (ofJsonList 0 xs)
  | .obj ms => shape (ofJsonMembers ms)

/-- The entries of a list, under their positions from a first one on. -/
def ofJsonList : Nat → List Json → List (String × Ty)
  | _, [] => []
  | i, x :: xs => (toString i, (ofJson x).withRequired true) :: ofJsonList (i + 1) xs

/-- The entries of an object, under their names. -/
def ofJsonMembers : List (String × Json) → List (String × Ty)
  | [] => []
  | (name, x) :: ms => (name, (ofJson x).withRequired true) :: ofJsonMembers ms

end

theorem ofJsonMembers_eq_map (ms : List (String × Json)) :
    ofJsonMembers ms = ms.map fun m => (m.1, (ofJson m.2).withRequired true) := by
  induction ms with
  | nil => simp [ofJsonMembers]
  | cons m ms ih => simp [ofJsonMembers, ih]

/-! ## The literals of a type -/

mutual

/-- The literals a type is narrowed to, if it is narrowed everywhere. -/
def literals? : Ty → Option (List Literal)
  | .mk (.scalar s) _ =>
    if !s.literals.isEmpty then some s.literals.toList
    else if s.kind = .null then some []
    else none
  | .mk (.array _ _ (some shape) _) _ => literalsEntries? shape
  | .mk (.union members) _ => literalsList? members
  | _ => none

/-- The literals of all entries, in order. -/
def literalsEntries? : List (String × Ty) → Option (List Literal)
  | [] => some []
  | (_, t) :: rest => do
    let first ← literals? t
    let others ← literalsEntries? rest
    return first ++ others

/-- The literals of all members, in order. -/
def literalsList? : List Ty → Option (List Literal)
  | [] => some []
  | t :: rest => do
    let first ← literals? t
    let others ← literalsList? rest
    return first ++ others

end

/-! ## String alternatives -/

/-- Every list on the left continued by every list on the right. -/
def continueEach (firsts rests : List (List String)) : List (List String) :=
  firsts.flatMap fun first => rests.map fun rest => first ++ rest

mutual

/-- The lists of strings a type stands for: one string for each literal of a string type, one choice
per entry for a shape, the choices of every member for a union. There are none as soon as a part is
not known to be a literal string. Adjacent repetitions are dropped. -/
def alternatives : Ty → List (List String)
  | .mk (.scalar s) _ =>
    if s.kind = .string then
      (s.literals.toList.filterMap fun l => l.text?.map fun text => [text]).eraseReps
    else []
  | .mk (.array _ _ (some shape) _) _ => (alternativesEntries shape).eraseReps
  | .mk (.union members) _ => ((alternativesList? members).getD []).eraseReps
  | _ => []

/-- One choice per entry, in order. -/
def alternativesEntries : List (String × Ty) → List (List String)
  | [] => [[]]
  | (_, t) :: rest => continueEach (alternatives t) (alternativesEntries rest)

/-- The choices of all members; `none` when a member has none. -/
def alternativesList? : List Ty → Option (List (List String))
  | [] => some []
  | t :: rest =>
    let first := alternatives t
    if first.isEmpty then none else (alternativesList? rest).map fun others => first ++ others

end

end Ty

end QueryTypes
