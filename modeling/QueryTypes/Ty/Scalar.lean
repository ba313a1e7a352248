import QueryTypes.SortedSet
import QueryTypes.Number.Double
import QueryTypes.Text.Blank

/-!
# Scalars

The kinds of scalar values, literal values in their order, and scalar types: a kind with a set of
allowed literals (empty for any value), a format, bounds and a pattern.

Literals are ordered by kind first (truth values, integers, doubles, strings) and by value inside a
kind. Joining two scalar types of one kind (`Scalar.join`) keeps what holds of both: the literals of
both when both are restricted, a format or pattern they share, and the wider bounds when both are
bounded.
-/

set_option autoImplicit false

namespace QueryTypes

/-! ## Kinds -/

/-- The kind of a scalar value. -/
inductive ScalarKind where
  | string
  | integer
  | float
  | bool
  | null
  deriving DecidableEq, Inhabited

namespace ScalarKind

/-- The name of a kind in documents. -/
def name : ScalarKind → String
  | .string => "string"
  | .integer => "integer"
  | .float => "float"
  | .bool => "bool"
  | .null => "null"

/-- All kinds. -/
def all : List ScalarKind := [.string, .integer, .float, .bool, .null]

/-- The kind with exactly this name in documents. -/
def ofName? (s : String) : Option ScalarKind := all.find? fun k => k.name == s

/-- Kinds that carry bounds. -/
def isNumeric : ScalarKind → Bool
  | .integer | .float => true
  | _ => false

/-- The kind that a word names, with its usual synonyms, in any case and between blanks. -/
def ofWord? (s : String) : Option ScalarKind :=
  match Text.lowerAscii (Text.trim s) with
  | "string" | "str" => some .string
  | "int" | "integer" => some .integer
  | "float" | "double" | "number" => some .float
  | "bool" | "boolean" => some .bool
  | "null" => some .null
  | _ => none

end ScalarKind

/-! ## Literals -/

/-- A literal scalar value. -/
inductive Literal where
  | bool (b : Bool)
  | int (n : Int64)
  | float (x : Double)
  | str (s : String)
  deriving DecidableEq

namespace Literal

/-- The kind of a literal. -/
def kind : Literal → ScalarKind
  | .bool _ => .bool
  | .int _ => .integer
  | .float _ => .float
  | .str _ => .string

/-- The text of a string literal. -/
def text? : Literal → Option String
  | .str s => some s
  | _ => none

/-- The place of a literal's kind in the order. -/
def kindRank : Literal → Nat
  | .bool _ => 0
  | .int _ => 1
  | .float _ => 2
  | .str _ => 3

/-- The order of literals: by kind, then by value. -/
def cmp : Literal → Literal → Ordering
  | .bool a, .bool b => compare a b
  | .int a, .int b => compare a.toInt b.toInt
  | .float a, .float b => compare a.rank b.rank
  | .str a, .str b => compare a b
  | a, b => compare a.kindRank b.kindRank

/-- Equality of literal values: of one kind and neither before the other. -/
def same (a b : Literal) : Bool := cmp a b == .eq

instance : Std.OrientedCmp cmp where
  eq_swap {a b} := by
    cases a <;> cases b <;> simp only [cmp, kindRank] <;> exact Std.OrientedCmp.eq_swap

instance : Std.TransCmp cmp where
  isLE_trans {a b c} hab hbc := by
    cases a <;> cases b <;> cases c <;> simp only [cmp, kindRank] at * <;>
      first
      | exact Std.TransCmp.isLE_trans hab hbc
      | simp_all [compare, compareOfLessAndEq]

end Literal

/-- A set of literals in order. -/
abbrev LiteralSet := SortedSet Literal Literal.cmp

/-! ## Scalar types -/

/-- A scalar type. The empty literal set allows every value of the kind. -/
structure Scalar where
  kind : ScalarKind
  literals : LiteralSet := .empty
  format : Option String := none
  minimum : Option Double := none
  maximum : Option Double := none
  pattern : Option String := none

namespace Scalar

/-- Any value of a kind. -/
def ofKind (kind : ScalarKind) : Scalar := { kind }

/-- Equality of literal lists, element by element. -/
def sameLiterals : List Literal → List Literal → Bool
  | [], [] => true
  | a :: as, b :: bs => a.same b && sameLiterals as bs
  | _, _ => false

/-- Equality of optional bounds by value. -/
def sameBound : Option Double → Option Double → Bool
  | none, none => true
  | some a, some b => a.same b
  | _, _ => false

/-- Equality of scalar types, doubles compared by value. -/
def same (s t : Scalar) : Bool :=
  s.kind == t.kind && sameLiterals s.literals.toList t.literals.toList && s.format == t.format &&
    sameBound s.minimum t.minimum && sameBound s.maximum t.maximum && s.pattern == t.pattern

/-- A bound that both sides have, chosen by `pick`. -/
def joinBound (pick : Double → Double → Double) : Option Double → Option Double → Option Double
  | some a, some b => some (pick a b)
  | _, _ => none

/-- The join of two scalar types of one kind. A side without literals allows every value, so its
join has none either. -/
def join (s t : Scalar) : Scalar where
  kind := s.kind
  literals :=
    if s.literals.isEmpty || t.literals.isEmpty then .empty else s.literals.union t.literals
  format := if s.format = t.format then s.format else none
  minimum := joinBound Double.min s.minimum t.minimum
  maximum := joinBound Double.max s.maximum t.maximum
  pattern := if s.pattern = t.pattern then s.pattern else none

end Scalar

end QueryTypes
