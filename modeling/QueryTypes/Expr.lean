import QueryTypes.Json.Basic
import QueryTypes.Ty.Basic

/-!
# Expressions and scopes

Expressions as a source analysis hands them over, and the assignments they are read in. A scope
lists assignments in program order; a position in it sees the assignments strictly before.
-/

set_option autoImplicit false

namespace QueryTypes

/-! ## Data -/

mutual

/-- An expression. -/
inductive Expr where
  /-- An entity known by name. -/
  | entity (name : String)
  /-- A variable. -/
  | var (name : String)
  /-- A method called on a receiver. -/
  | call (receiver : Expr) (method : String) (args : List Expr)
  /-- A method called on an entity. -/
  | staticCall (entity method : String) (args : List Expr)
  /-- A literal value. -/
  | literal (value : Json)
  /-- An expression whose type is known already. -/
  | typed (ty : Ty)
  /-- An array literal. -/
  | array (items : List Item)
  /-- An entry of an array. -/
  | index (target key : Expr)
  /-- A property of an object. -/
  | property (target : Expr) (name : String)
  /-- A function. -/
  | closure (params : List String) (body : Expr)
  /-- One of several values, depending on the control flow. -/
  | branches (arms : List Expr)
  /-- An expression about which nothing is known. -/
  | obscure

/-- An entry of an array literal. -/
inductive Item where
  /-- A value under the next free position. -/
  | positional (value : Expr)
  /-- A value under a key. -/
  | keyed (key value : Expr)

end

instance : Inhabited Expr := ⟨.obscure⟩

/-- The assignment of an expression to a variable. -/
structure Assignment where
  name : String
  value : Expr

/-- Assignments in program order. -/
abbrev Scope := List Assignment

/-! ## Looking into a scope -/

namespace Scope

/-- The scope with one more assignment. -/
def assign (s : Scope) (name : String) (value : Expr) : Scope := s ++ [⟨name, value⟩]

/-- The position after every assignment. -/
def endPos (s : Scope) : Nat := s.length

/-- The scope as it stood at a position. -/
def upTo (s : Scope) (pos : Nat) : Scope := s.take pos

/-- The last assignment to a name, with positions counted from a first one on. -/
def lastFrom (start : Nat) (name : String) : Scope → Option (Nat × Expr)
  | [] => none
  | a :: rest =>
    match lastFrom (start + 1) name rest with
    | some found => some found
    | none => if a.name = name then some (start, a.value) else none

/-- The last assignment to a name strictly before a position, and its own position. -/
def lookup? (s : Scope) (name : String) (before : Nat) : Option (Nat × Expr) :=
  lastFrom 0 name (s.upTo before)

theorem lastFrom_assign (start : Nat) (name : String) (s : Scope) (x : String) (e : Expr) :
    lastFrom start name (s.assign x e) =
      if x = name then some (start + s.length, e) else lastFrom start name s := by
  induction s generalizing start with
  | nil => by_cases h : x = name <;> simp [assign, lastFrom, h]
  | cons a rest ih =>
    have := ih (start + 1)
    simp only [assign] at this
    by_cases h : x = name
    · subst h
      simp only [if_true] at this
      simp only [assign, List.cons_append, lastFrom, this, if_true, List.length_cons]
      congr 2
      omega
    · simp [assign, lastFrom, this, h]

end Scope

end QueryTypes
