import QueryTypes.Number.Numeral
import QueryTypes.Ty.Union

/-!
# Joining types

`Ty.merge` joins two types that describe the same place, as two branches do: shapes are joined entry
by entry, scalars of one kind are joined, all else becomes a union. `Ty.unwrap` reads a shape as a
map from keys to one item type.

Both go to a given depth and answer `unknown` below it.
-/

set_option autoImplicit false

namespace QueryTypes.Ty

/-! ## Merging -/

/-- The entries of two shapes. An entry of only one side need not be there. -/
def mergeShapes (join : Ty → Ty → Ty) (as bs : Entries Ty) : Entries Ty :=
  as.map (fun e => (e.1, match Entries.get? bs e.1 with
    | some b => join e.2 b
    | none => e.2.withRequired false)) ++
  (bs.filter fun e => (Entries.get? as e.1).isNone).map fun e => (e.1, e.2.withRequired false)

/-- The place of two types at once: filled when both must be, described by the first that is. -/
def mergeSlots (a b : Slot) : Slot where
  required := a.required && b.required
  description := a.description.or b.description
  examples := if a.examples.isEmpty then b.examples else a.examples

/-- The type of a value that is described by either of two types. -/
def merge : Nat → Ty → Ty → Ty
  | 0, _, _ => unknown
  | depth + 1, a, b =>
    if a.same b then a
    else
      let separate := (union [a, b]).withRequired (a.required && b.required)
      match a.kind, b.kind with
      | .array _ _ (some as) oa, .array _ _ (some bs) ob =>
        .mk
          (.array none none (some (mergeShapes (merge depth) as bs)) (if oa = ob then oa else none))
          (mergeSlots a.slot b.slot)
      | .scalar s, .scalar t =>
        if s.kind = t.kind then .mk (.scalar (s.join t)) (mergeSlots a.slot b.slot) else separate
      | _, _ => separate

/-- The types merged from left to right; `none` for no type. -/
def mergeAll? (depth : Nat) : List Ty → Option Ty
  | [] => none
  | t :: ts => some (ts.foldl (merge depth) t)

@[simp] theorem merge_zero (a b : Ty) : merge 0 a b = unknown := rfl

@[simp] theorem mergeAll?_nil (depth : Nat) : mergeAll? depth [] = none := rfl

@[simp] theorem mergeAll?_cons (depth : Nat) (t : Ty) (ts : List Ty) :
    mergeAll? depth (t :: ts) = some (ts.foldl (merge depth) t) := rfl

/-! ## Shapes as maps -/

/-- The names are the positions `0, 1, …` from a first one on, as numerals. -/
def arePositions : Nat → List String → Bool
  | _, [] => true
  | i, name :: names => Numeral.readNat64? name == some i && arePositions (i + 1) names

/-- The type of the keys of a shape: none for a list, integers, otherwise strings. -/
def keyTypeOf (names : List String) : Option Ty :=
  if arePositions 0 names then none
  else if names.all fun name => (Numeral.readInt64? name).isSome then some integer
  else some string

/-- A shape as a map with one item type, and each member of a union likewise. A map cannot say which
of its entries must be there. -/
def unwrap : Nat → Ty → Ty
  | 0, _ => unknown
  | depth + 1, t =>
    match t.kind with
    | .array _ _ (some shape) origin =>
      let item :=
        (mergeAll? depth (Entries.values shape |>.map (·.withRequired false))).getD unknown
      t.withKind (.array (some item) (keyTypeOf (Entries.keys shape)) none origin)
    | .union members => (union (members.map (unwrap depth))).withRequired t.required
    | _ => t

@[simp] theorem unwrap_zero (t : Ty) : unwrap 0 t = unknown := rfl

end QueryTypes.Ty
