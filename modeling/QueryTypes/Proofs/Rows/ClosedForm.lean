import QueryTypes.Proofs.Conduct.Basic
import QueryTypes.Proofs.Rows.Layout

/-!
# Rows in closed form

A row needs no state: its layout says which properties it has, and each of them gets the type of its
source, with rows one level less deep where it refers to entities. This is `rowOf`, a function on
the depth. Relations are loaded into a row one after the other, each from the row of its target
(`attachedRow`).

The inferences of rows return nothing else, whatever is asked of their runs: `rowAt`
(`Conduct.ReadsColumns.rowAt`) and the loading of relations
(`Conduct.ReadsColumns.attachRelations`). Under a strict policy they may fail instead. What holds of
rows is therefore a matter of these functions, and what holds of their runs a matter of the conduct.
-/

set_option autoImplicit false

namespace QueryTypes

/-! ## Entries with other values -/

namespace Entries

variable {α β : Type}

/-- The entries with a function applied to their values. -/
def mapValues (f : α → β) (es : Entries α) : Entries β := es.map fun e => (e.1, f e.2)

@[simp] theorem keys_mapValues (f : α → β) (es : Entries α) : (es.mapValues f).keys = es.keys := by
  simp [keys, mapValues]

theorem mapValues_put (f : α → β) (es : Entries α) (name : String) (a : α) :
    (es.put name a).mapValues f = (es.mapValues f).put name (f a) := by
  induction es with
  | nil => simp [put, mapValues]
  | cons e rest ih =>
    obtain ⟨k, b⟩ := e
    by_cases hk : k = name
    · simp [put, mapValues, hk]
    · simpa [put, mapValues, hk] using ih

theorem get?_mapValues (f : α → β) (es : Entries α) (name : String) :
    (es.mapValues f).get? name = (es.get? name).map f := by
  induction es with
  | nil => rfl
  | cons e rest ih =>
    obtain ⟨k, b⟩ := e
    by_cases hk : k = name
    · simp [mapValues, get?, hk]
    · simpa [mapValues, get?, hk] using ih

theorem Distinct.mapValues {es : Entries α} (h : es.Distinct) (f : α → β) :
    (es.mapValues f).Distinct := by
  rw [Distinct, keys_mapValues]
  exact h

end Entries

/-! ## The types of sources -/

namespace Row

variable (row : String → Ty)

mutual

/-- A type with references to entities replaced by given rows. -/
def expanded : Ty → Ty
  | .mk (.object [] (some target)) slot =>
    .mk (row target).kind
      { (row target).slot with required := slot.required, description := slot.description }
  | .mk (.union members) slot => (Ty.union (expandedList members)).withRequired slot.required
  | t => t

/-- Types with references replaced. -/
def expandedList : List Ty → List Ty
  | [] => []
  | t :: rest => expanded t :: expandedList rest

end

theorem expandedList_eq_map (ts : List Ty) : expandedList row ts = ts.map (expanded row) := by
  induction ts with
  | nil => simp [expandedList]
  | cons t rest ih => simp [expandedList, ih]

/-- The type of a column, given the rows that it refers to. -/
def columnOf (c : Column) : Ty :=
  (if c.nullable then (expanded row c.ty).nullable else expanded row c.ty).withRequired true

/-- The type of a selected column, given the rows that it refers to. -/
def refOf (columns : List Column) (table : Option String) (ref : ColumnRef) : Ty :=
  if ref.isLocal table then
    match columns.find? fun c => c.name == ref.text with
    | some c => columnOf row c
    | none => .unknown
  else .unknown

end Row

/-- The type of a source, given the rows of entities with relations loaded. -/
def RowSource.type (row : String → RelationTree → Ty) : RowSource → Ty
  | .column c => Row.columnOf (fun target => row target .empty) c
  | .relation r nested => r.loaded (row r.target nested)
  | .unknown => Ty.unknown.withRequired true

/-- Every property of a row must be there. -/
theorem RowSource.required_type (row : String → RelationTree → Ty) (s : RowSource) :
    (s.type row).required = true := by
  cases s with
  | column c => rfl
  | relation r nested => rfl
  | unknown => rfl

/-- In a row a selected column has the type of its source. -/
theorem Row.refOf_withRequired (row : String → RelationTree → Ty) (frame : Row.Frame)
    (ref : ColumnRef) :
    (refOf (fun target => row target .empty) frame.columns frame.table ref).withRequired true =
      (frame.source ref).type row := by
  rw [refOf, Frame.source]
  split
  · cases frame.columns.find? fun c => c.name == ref.text with
    | some c => rfl
    | none => rfl
  · rfl

/-! ## Rows -/

/-- The row that a projection shows of an entity, with relations loaded, to a depth. -/
def rowOf (catalog : Catalog) : Nat → String → Projection → RelationTree → Ty
  | 0, _, _, _ => .unknown
  | depth + 1, entity, p, tree =>
    .object ((rowLayout catalog entity p tree).mapValues
      (RowSource.type fun target nested => rowOf catalog depth target .everything nested))
      (some entity)

/-! ## Loading relations -/

/-- A row with a relation loaded, if its entity has it and shows it. The target goes to a depth. -/
def loadedRow (catalog : Catalog) (entity : String) (depth : Nat) (row : Ty)
    (child : String × RelationTree) : Ty :=
  match catalog.shownRelation? entity child.1 with
  | some r =>
    row.putProperty child.1 (r.loaded (rowOf catalog depth r.target .everything child.2))
  | none => row

/-- A row with relations loaded, to a depth. -/
def attachedRow (catalog : Catalog) (entity : String) (depth : Nat) (tree : RelationTree)
    (row : Ty) : Ty :=
  if depth = 0 || !row.isObject then row
  else tree.children.foldl (loadedRow catalog entity (depth - 1)) row

/-- Loading a relation into a row that is laid out lays it out. -/
theorem loadedRow_layout (catalog : Catalog) (entity : String) (depth : Nat)
    (origin : Option String) (es : Entries RowSource) (child : String × RelationTree) :
    let type := RowSource.type fun target nested => rowOf catalog depth target .everything nested
    loadedRow catalog entity depth (.object (es.mapValues type) origin) child =
      .object ((layRelation catalog entity es child).mapValues type) origin := by
  intro type
  rw [loadedRow, layRelation]
  cases catalog.shownRelation? entity child.1 with
  | none => rfl
  | some r =>
    dsimp only
    rw [Entries.mapValues_put]
    rfl

/-- Loading relations into a row of an entity gives the row with these relations. -/
theorem attachedRow_rowOf (catalog : Catalog) (entity : String) (depth : Nat) (p : Projection)
    (tree : RelationTree) :
    attachedRow catalog entity depth tree (rowOf catalog depth entity p .empty) =
      rowOf catalog depth entity p tree := by
  cases depth with
  | zero => rfl
  | succ depth =>
    let type := RowSource.type fun target nested => rowOf catalog depth target .everything nested
    exact List.foldl_hom (fun es => Ty.object (Entries.mapValues type es) (some entity))
      (loadedRow_layout catalog entity depth (some entity))

/-! ## Rows are computed so -/

/-- Columns that cannot be read may be given up. -/
def Conduct.ReadsColumns (C : Conduct) (cx : Context) : Prop :=
  ∀ entity source, cx.catalog.columns entity = .error source →
    C.GivesUp cx (.catalog entity source) (.catalogUnavailable source)

section Computed

variable {C : Conduct}

namespace Row

variable {row : String → Infer Ty}

section Types

variable {row₀ : String → Ty}

theorem ensures_expandList {ts : List Ty}
    (h : ∀ t ∈ ts, C.Ensures (expand row t) (· = expanded row₀ t)) :
    C.Ensures (expandList row ts) (· = expandedList row₀ ts) := by
  induction ts with
  | nil => exact .pure rfl
  | cons t rest ih =>
    rw [List.forall_mem_cons] at h
    apply h.1.bind_eq
    exact (ih h.2).bind_eq (.pure rfl)

variable (h : ∀ e, C.Ensures (row e) (· = row₀ e))

include h

theorem ensures_expand (t : Ty) : C.Ensures (expand row t) (· = expanded row₀ t) := by
  induction t using Ty.rec' with
  | unknown | scalar | array => exact .pure rfl
  | object properties origin slot =>
    -- only an object without properties refers to an entity
    cases properties with
    | nil =>
      cases origin with
      | none => exact .pure rfl
      | some target => exact (h target).bind_eq (.pure rfl)
    | cons e rest => exact .pure rfl
  | union members slot ih => exact (ensures_expandList ih).bind_eq (.pure rfl)

theorem ensures_columnType (c : Column) : C.Ensures (columnType row c) (· = columnOf row₀ c) :=
  (ensures_expand h c.ty).bind_eq (.pure rfl)

theorem ensures_refType (columns : List Column) (table : Option String) (ref : ColumnRef) :
    C.Ensures (refType row columns table ref) (· = refOf row₀ columns table ref) := by
  rw [refType, refOf]
  split
  · cases columns.find? fun c => c.name == ref.text with
    | some c => exact ensures_columnType h c
    | none => exact .pure rfl
  · exact .pure rfl

end Types

variable {row₀ : String → RelationTree → Ty} (h : ∀ e, C.Ensures (row e) (· = row₀ e .empty))

include h

/-- Putting all columns into a row gives the types of the sources that are laid out. -/
theorem ensures_putAll (frame : Frame) (es : Entries RowSource) :
    C.Ensures (putAll row frame (es.mapValues (RowSource.type row₀)))
      (· = (frame.layAll es).mapValues (RowSource.type row₀)) := by
  refine Conduct.Ensures.foldlM_along
    (R := fun es props => props = Entries.mapValues (RowSource.type row₀) es) ?_ rfl
  rintro es _ rfl c -
  rw [Entries.mapValues_put]
  exact (ensures_columnType h c).bind_eq (.pure rfl)

theorem ensures_putRef (frame : Frame) (es : Entries RowSource) (ref : ColumnRef) :
    C.Ensures (putRef row frame (es.mapValues (RowSource.type row₀)) ref)
      (· = (frame.layRef es ref).mapValues (RowSource.type row₀)) := by
  rw [putRef, Frame.layRef]
  split
  · split
    · exact ensures_putAll h frame es
    · exact .pure rfl
  · split
    · rw [Entries.mapValues_put, ← refOf_withRequired]
      exact (ensures_refType h frame.columns frame.table ref).bind_eq (.pure rfl)
    · exact .pure rfl

theorem ensures_project (frame : Frame) (entity : String) (p : Projection) :
    C.Ensures (project row frame entity p)
      (· = .object ((frame.layout p).mapValues (RowSource.type row₀)) (some entity)) := by
  have hrefs (es : Entries RowSource) :
      C.Ensures (p.columns.foldlM (putRef row frame) (es.mapValues (RowSource.type row₀)))
        (· = (p.columns.foldl frame.layRef es).mapValues (RowSource.type row₀)) := by
    refine Conduct.Ensures.foldlM_along
      (R := fun es props => props = Entries.mapValues (RowSource.type row₀) es) ?_ rfl
    rintro es _ rfl ref -
    exact ensures_putRef h frame es ref
  rw [project, Frame.layout]
  split
  · exact (ensures_putAll h frame []).bind_eq ((hrefs _).bind_eq (.pure rfl))
  · exact Conduct.Ensures.bind_eq (.pure rfl) ((hrefs []).bind_eq (.pure rfl))

end Row

namespace Conduct.ReadsColumns

variable {cx : Context} (h : C.ReadsColumns cx)

include h

theorem catalogColumns (entity : String) :
    C.Ensures (catalogColumns cx entity) (· = cx.catalog.knownColumns entity) := by
  rw [catalogColumns_eq, Catalog.knownColumns]
  cases hcolumns : cx.catalog.columns entity with
  | ok columns => exact .pure rfl
  | error source => exact .giveUp (h entity source hcolumns) _ rfl

theorem rowAt (depth : Nat) (entity : String) :
    C.Ensures (rowAt cx depth entity) (· = rowOf cx.catalog depth entity .everything .empty) := by
  induction depth generalizing entity with
  | zero => exact .pure rfl
  | succ depth ih =>
    apply (h.catalogColumns entity).bind_eq
    exact Row.ensures_project ih _ entity _

/-- The row that a projection shows of an entity, with rows inside it to a depth. -/
theorem project (depth : Nat) (entity : String) (p : Projection) :
    C.Ensures
      (Row.project (QueryTypes.rowAt cx depth)
        (.of cx.catalog entity (cx.catalog.knownColumns entity))
        entity p)
      (· = rowOf cx.catalog (depth + 1) entity p .empty) :=
  Row.ensures_project (h.rowAt depth) _ entity p

variable (hrelation : ∀ name, C.Records (.unknownRelation name))

include hrelation

theorem attachList {depth : Nat}
    (hattach : ∀ entity tree row, C.Ensures (QueryTypes.attachRelations cx entity depth tree row)
      (· = attachedRow cx.catalog entity depth tree row))
    (entity : String) (children : List (String × RelationTree)) (row : Ty) :
    C.Ensures (attachList cx entity depth children row)
      (· = children.foldl (loadedRow cx.catalog entity depth) row) := by
  induction children generalizing row with
  | nil =>
    rw [QueryTypes.attachList]
    exact .pure rfl
  | cons child rest ih =>
    obtain ⟨name, nested⟩ := child
    rw [QueryTypes.attachList, List.foldl_cons, loadedRow, Catalog.shownRelation?]
    cases (cx.catalog.visibility entity).allows name with
    | false => exact ih row
    | true =>
      cases cx.catalog.relation? entity name with
      | none =>
        apply Ensures.bind (.note (hrelation name) (some entity))
        exact fun _ _ => ih row
      | some r =>
        apply (h.rowAt depth r.target).bind_eq
        apply (hattach r.target nested _).bind_eq
        rw [attachedRow_rowOf]
        exact ih _

theorem attachRelations (depth : Nat) (entity : String) (tree : RelationTree) (row : Ty) :
    C.Ensures (attachRelations cx entity depth tree row)
      (· = attachedRow cx.catalog entity depth tree row) := by
  induction depth generalizing entity tree row with
  | zero =>
    obtain ⟨children⟩ := tree
    rw [QueryTypes.attachRelations]
    exact .pure rfl
  | succ depth ih =>
    -- the relations of the targets are loaded one level less deep
    obtain ⟨children⟩ := tree
    rw [QueryTypes.attachRelations, attachedRow]
    split
    · exact .pure rfl
    · exact attachList h hrelation ih entity children row

end Conduct.ReadsColumns

end Computed

/-! ## Values of single runs -/

section Values

variable {cx : Context} {entity : String} {p : Progress}

/-- If failures do not matter all columns may be given up. -/
theorem Conduct.readsColumns_failing (cx : Context) : (failing fun _ => True).ReadsColumns cx :=
  fun _ _ _ => ⟨fun _ => trivial, fun _ => records_failing _ _⟩

theorem eq_knownColumns_of_ok {columns : List Column}
    (h : (runFrom (catalogColumns cx entity) p).1 = .ok columns) :
    columns = cx.catalog.knownColumns entity :=
  ((Conduct.readsColumns_failing cx).catalogColumns entity).value trivial h

theorem eq_rowOf_of_rowAt_ok {depth : Nat} {row : Ty}
    (h : (runFrom (rowAt cx depth entity) p).1 = .ok row) :
    row = rowOf cx.catalog depth entity .everything .empty :=
  ((Conduct.readsColumns_failing cx).rowAt depth entity).value trivial h

theorem eq_rowOf_of_project_ok {depth : Nat} {projection : Projection} {row : Ty}
    (h : (runFrom (Row.project (rowAt cx depth)
      (.of cx.catalog entity (cx.catalog.knownColumns entity)) entity projection) p).1 = .ok row) :
    row = rowOf cx.catalog (depth + 1) entity projection .empty :=
  ((Conduct.readsColumns_failing cx).project depth entity projection).value trivial h

theorem eq_attachedRow_of_ok {depth : Nat} {tree : RelationTree} {row row' : Ty}
    (h : (runFrom (attachRelations cx entity depth tree row) p).1 = .ok row') :
    row' = attachedRow cx.catalog entity depth tree row :=
  ((Conduct.readsColumns_failing cx).attachRelations
    (fun _ => Conduct.records_failing _ _) depth entity
    tree row).value trivial h

end Values

end QueryTypes
