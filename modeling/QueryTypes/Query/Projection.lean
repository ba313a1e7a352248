import QueryTypes.Query.Column
import QueryTypes.Ty.Literals

/-!
# Projections

What a row shows. Arguments that may hold one of several lists of column names give one projection
for each combination, so a chain carries a list of variants.
-/

set_option autoImplicit false

namespace QueryTypes

/-- One possible selection of columns. -/
structure Projection where
  /-- All columns come first. -/
  all : Bool
  columns : List ColumnRef
  deriving DecidableEq

namespace Projection

/-- All columns. -/
def everything : Projection := ⟨true, []⟩

/-- The columns with these names; all columns when there is none. -/
def ofNames (names : List String) : Projection :=
  if names.isEmpty then everything else ⟨false, names.map ColumnRef.ofString⟩

/-- The lists of names that arguments stand for, one choice per argument; `none` when an argument is
not known to be literal. -/
def choices? : List Ty → Option (List (List String))
  | [] => some [[]]
  | arg :: rest =>
    let firsts := arg.alternatives
    if firsts.isEmpty then none else (choices? rest).map fun others => Ty.continueEach firsts others

/-- The lists of names that arguments stand for, without adjacent repetitions. -/
def alternatives? (args : List Ty) : Option (List (List String)) :=
  (choices? args).map List.eraseReps

/-- The variants after a selection: it replaces all of them. -/
def select (args : List Ty) : List Projection :=
  match alternatives? args with
  | some alternatives => alternatives.map ofNames
  | none => [everything]

/-- The list with a projection at its end, unless it holds it. -/
def addNew (out : List Projection) (p : Projection) : List Projection :=
  if p ∈ out then out else out ++ [p]

/-- The projection with more columns. -/
def extend (p : Projection) (names : List String) : Projection :=
  { p with columns := p.columns ++ names.map ColumnRef.ofString }

/-- The variants after an additional selection: every variant with every alternative. -/
def addSelect (variants : List Projection) (args : List Ty) : List Projection :=
  match alternatives? args with
  | some alternatives => (variants.flatMap fun v => alternatives.map v.extend).foldl addNew []
  | none => variants.map fun v => { v with all := true }

end Projection

end QueryTypes
