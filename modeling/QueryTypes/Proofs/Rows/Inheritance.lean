import QueryTypes.Proofs.Rows.ClosedForm

/-!
# What rows inherit from columns

A property of types is hereditary (`Ty.Hereditary`) if it does not depend on the place of a type,
passes from unions to their members, and passes to the types of which rows are made: unions, lists,
and objects without repeated names. If the declared types of a catalog have such a property then so
have its rows, with any columns selected and any relations loaded (`Ty.Hereditary.rowOf`).
-/

set_option autoImplicit false

namespace QueryTypes

/-- A property that the rows of a catalog have if the types of its columns do. -/
structure Ty.Hereditary (T : Ty → Prop) : Prop where
  unknown : T .unknown
  scalar : ∀ s slot, T (.mk (.scalar s) slot)
  placed : ∀ {t : Ty}, T t → ∀ slot, T (.mk t.kind slot)
  members : ∀ {ms : List Ty} {slot : Slot}, T (.mk (.union ms) slot) → ∀ m ∈ ms, T m
  union : ∀ {ts : List Ty}, (∀ t ∈ ts, T t) → T (.union ts)
  list : ∀ {t : Ty}, T t → ∀ origin, T ((Ty.list t).withOrigin origin)
  object : ∀ {properties : Entries Ty}, properties.Distinct → (∀ e ∈ properties, T e.2) →
    ∀ origin, T (.object properties origin)

namespace Ty.Hereditary

variable {T : Ty → Prop} (h : Ty.Hereditary T)

include h

theorem nullable {t : Ty} (ht : T t) : T t.nullable := by
  rw [Ty.nullable]
  split
  · exact ht
  · apply h.placed
    apply h.union
    rw [List.forall_mem_cons, List.forall_mem_singleton]
    exact ⟨h.placed ht _, h.scalar _ _⟩

theorem loaded {t : Ty} (ht : T t) (r : Relation) : T (r.loaded t) := by
  rw [Relation.loaded]
  apply h.placed
  split
  · exact h.list ht _
  · exact h.nullable ht

section Columns

variable {row : String → Ty} (hrow : ∀ entity, T (row entity))

include hrow

/-- References are replaced by rows, and a union is built anew from what its members have become. -/
theorem expanded {t : Ty} (ht : T t) : T (Row.expanded row t) := by
  induction t using Ty.rec' with
  | unknown | scalar | array => exact ht
  | object properties origin slot =>
    cases properties with
    | cons e rest => exact ht
    | nil =>
      cases origin with
      | none => exact ht
      | some target => exact h.placed (hrow target) _
  | union ms slot ih =>
    rw [Row.expanded, Row.expandedList_eq_map]
    apply h.placed
    apply h.union
    exact List.forall_mem_map.2 fun m hm => ih m hm (h.members ht m hm)

theorem columnOf {c : Column} (hc : T c.ty) : T (Row.columnOf row c) := by
  rw [Row.columnOf]
  apply h.placed
  split
  · exact h.nullable (h.expanded hrow hc)
  · exact h.expanded hrow hc

theorem refOf {columns : List Column} (hcolumns : ∀ c ∈ columns, T c.ty) (table : Option String)
    (ref : ColumnRef) : T (Row.refOf row columns table ref) := by
  rw [Row.refOf]
  split
  · split
    · next c hfind => exact h.columnOf hrow (hcolumns c (List.mem_of_find?_eq_some hfind))
    · exact h.unknown
  · exact h.unknown

end Columns

/-! ## Catalogs -/

/-- The names of column types stand for scalars and for documents, of which nothing is known. -/
theorem sqlType {name : String} {t : Ty} (ht : SqlType.ofName? name = some t) : T t := by
  rw [SqlType.ofName?.eq_def] at ht
  split at ht
  case h_36 | h_37 =>
    cases ht
    exact h.unknown
  case h_38 => cases ht
  all_goals
    cases ht
    exact h.scalar _ _

theorem resolve {d : ColumnDecl} (hd : ∀ ty, d.type = .resolved ty → T ty) {c : Column}
    (hc : d.resolve = .ok c) : T c.ty := by
  rw [ColumnDecl.resolve] at hc
  split at hc
  · next ty hty =>
    cases hc
    exact hd ty hty
  · split at hc
    · next ty hty =>
      cases hc
      rw [SqlType.type?] at hty
      split at hty
      · cases hty
        exact h.scalar _ _
      · exact h.sqlType hty
      · cases hty
    · cases hc

variable {catalog : Catalog}
  (hcatalog : ∀ e ∈ catalog.entities, ∀ d ∈ e.2.columns, ∀ ty, d.type = .resolved ty → T ty)

include hcatalog

/-- Columns of an entity as far as they can be read. -/
theorem knownColumns (entity : String) : ∀ c ∈ catalog.knownColumns entity, T c.ty := by
  intro c hc
  rw [Catalog.knownColumns] at hc
  cases hcolumns : catalog.columns entity with
  | error source =>
    rw [hcolumns] at hc
    exact absurd hc List.not_mem_nil
  | ok columns =>
    rw [hcolumns] at hc
    rw [Catalog.columns] at hcolumns
    split at hcolumns
    · next e he =>
      obtain ⟨d, hd, hresolve⟩ := exists_of_forall₂ (mapM_eq_ok.1 hcolumns) hc
      exact h.resolve (hcatalog _ (Entries.mem_of_get?_eq_some he) d hd) hresolve
    · cases hcolumns

/-- Rows to a depth, of which those inside have one level less. -/
theorem rowOf (depth : Nat) (entity : String) (p : Projection) (tree : RelationTree) :
    T (rowOf catalog depth entity p tree) := by
  induction depth generalizing entity p tree with
  | zero => exact h.unknown
  | succ depth ih =>
    have hdistinct := distinct_rowLayout catalog entity p tree
    apply h.object (hdistinct.mapValues _)
    rw [Entries.mapValues, List.forall_mem_map]
    rintro ⟨name, source⟩ hmem
    -- what stands under a name is a column of the entity, a relation or nothing that is known
    cases standsFor_rowLayout (hdistinct.get?_eq_some hmem) with
    | relation => exact h.loaded (ih _ _ _) _
    | column _ hknown _ =>
      exact h.columnOf (fun target => ih target _ _) (h.knownColumns hcatalog entity _ hknown)
    | unknown => exact h.placed h.unknown _

/-- A row of a query, before and after relations are loaded. -/
theorem attachedRow (depth : Nat) (entity : String) (p : Projection) (tree : RelationTree) :
    T (attachedRow catalog entity depth tree
      (QueryTypes.rowOf catalog (depth - 1 + 1) entity p .empty)) := by
  cases depth with
  | zero => exact h.rowOf hcatalog _ entity p _
  | succ depth =>
    rw [Nat.add_sub_cancel, attachedRow_rowOf]
    exact h.rowOf hcatalog _ entity p tree

end Ty.Hereditary

/-! ## Records -/

/-- An object of an entity that has no name twice. -/
def Ty.IsRecord (entity : String) (t : Ty) : Prop :=
  ∃ properties : Entries Ty, t = .object properties (some entity) ∧ properties.Distinct

/-- With some depth rows are records of their entity. -/
theorem isRecord_rowOf (catalog : Catalog) (depth : Nat) (entity : String) (p : Projection)
    (tree : RelationTree) : (rowOf catalog (depth + 1) entity p tree).IsRecord entity :=
  ⟨_, rfl, (distinct_rowLayout catalog entity p tree).mapValues _⟩

end QueryTypes
