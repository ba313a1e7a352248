import QueryTypes.Ty.Basic

/-!
# Unions

A union is built from a list of types: members of unions in the list are taken one by one, a type
equal to an earlier one is dropped, no type at all is `unknown` and a single one stands for itself.

On top of it stand `Ty.nullable` and the type of a field (`Ty.field`), which looks into every member
of a union.
-/

set_option autoImplicit false

namespace QueryTypes.Ty

/-! ## Building a union -/

/-- The list with a type at its end, unless it holds an equal one. -/
def addDistinct (ts : List Ty) (t : Ty) : List Ty := if ts.any (·.same t) then ts else ts ++ [t]

/-- The list without the types that equal an earlier one. -/
def distinct (ts : List Ty) : List Ty := ts.foldl addDistinct []

/-- The type of a value of one of the members. -/
def ofMembers : List Ty → Ty
  | [] => unknown
  | [t] => t
  | ts => ofKind (.union ts)

/-- The union of types. -/
def union (ts : List Ty) : Ty := ofMembers (distinct (ts.flatMap members))

/-- The type or null. The place keeps whether it must be filled, the members do not say. -/
def nullable (t : Ty) : Ty :=
  if t.isNull then t else (union [t.withRequired false, null]).withRequired t.required

@[simp] theorem distinct_nil : distinct [] = [] := rfl

@[simp] theorem union_nil : union [] = unknown := rfl

theorem addDistinct_of_any {ts : List Ty} {t : Ty} (h : ts.any (·.same t) = true) :
    addDistinct ts t = ts := by simp [addDistinct, h]

theorem addDistinct_of_not_any {ts : List Ty} {t : Ty} (h : ts.any (·.same t) = false) :
    addDistinct ts t = ts ++ [t] := by simp [addDistinct, h]

theorem nullable_of_isNull {t : Ty} (h : t.isNull = true) : t.nullable = t := by simp [nullable, h]

/-! ## Fields -/

mutual

/-- The type of a field: a property, a shape entry or the item of an array; of a union, the union of
the field in its members other than null. -/
def field (name : String) : Ty → Ty
  | .mk (.object properties _) _ => (Entries.get? properties name).getD unknown
  | .mk (.array _ _ (some shape) _) _ => (Entries.get? shape name).getD unknown
  | .mk (.array item _ none _) _ => item.getD unknown
  | .mk (.union members) _ => union (fieldList name members)
  | _ => unknown

/-- The field in each of the members other than null. -/
def fieldList (name : String) : List Ty → List Ty
  | [] => []
  | t :: ts =>
    if t.isNull then fieldList name ts else (field name t).withRequired false :: fieldList name ts

end

theorem fieldList_eq_map (name : String) (ts : List Ty) :
    fieldList name ts =
      (ts.filter fun t => !t.isNull).map fun t => (field name t).withRequired false := by
  induction ts with
  | nil => simp [fieldList]
  | cons t ts ih => cases h : t.isNull <;> simp [fieldList, h, ih]

end QueryTypes.Ty
