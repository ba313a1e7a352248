import QueryTypes.Proofs.Totality
import QueryTypes.Proofs.WellFormed.Types

/-!
# Columns as declared

A column whose type refers to no entity keeps the type that it was declared with: the row of the
entity has it under the name of the column, made nullable if the column is (`entityRow_declared`).
What other columns refer to does not matter, and a row can only fail to be there because the columns
of an entity that is referred to cannot be read.

A union is put together again from its members, which stay as they are. What was said about the
place of the union itself, its description and its examples, is lost on the way
(`entityRow_drops_description`).
-/

set_option autoImplicit false

namespace QueryTypes

/-! ## Reasons of failures -/

/-- The columns of an entity cannot be read, and the policy is strict. -/
inductive Unreadable (cx : Context) : InferError → Prop
  | catalog {entity : String} {source : CatalogError} : cx.config.strict = true →
      cx.catalog.columns entity = .error source → Unreadable cx (.catalog entity source)

theorem readsColumns_unreadable (cx : Context) :
    (Conduct.computedRows cx (Unreadable cx)).ReadsColumns cx := fun _ _ hsource =>
  ⟨fun hstrict => .catalog hstrict hsource, fun _ => Conduct.records_computedRows cx _ _⟩

/-! ## Types without references -/

namespace Ty

/-- The type as a row has it. Of the place of a union only remains whether it must be filled. -/
def restored (t : Ty) : Ty := if t.isUnion then (ofKind t.kind).withRequired t.required else t

@[simp] theorem kind_restored (t : Ty) : t.restored.kind = t.kind := by
  rw [restored]
  split <;> rfl

/-- Nothing is lost if there was nothing to lose. -/
theorem restored_withRequired_eq_iff {t : Ty} {required : Bool} :
    t.restored.withRequired required = t.withRequired required ↔
      (t.isUnion = false ∨ t.description = none ∧ t.examples = []) := by
  obtain ⟨k, _, description, examples⟩ := t
  cases k with
  | union members =>
    simp [restored, isUnion, ofKind, withRequired, Ty.required, Ty.description, Ty.examples,
      eq_comm (a := none), eq_comm (a := [])]
  | unknown | scalar | array | object => simp [restored, isUnion]

/-- A nullable union has nothing but its members. -/
theorem nullable_restored (t : Ty) : t.restored.nullable = t.nullable := by
  obtain ⟨k, slot⟩ := t
  cases k with
  | union members => rfl
  | unknown | scalar | array | object => rfl

end Ty

namespace Row

variable {row : String → Ty}

theorem expanded_of_not_isUnion {t : Ty} (hunion : t.isUnion = false) (href : t.entityRef? = none) :
    expanded row t = t := by
  obtain ⟨k, slot⟩ := t
  cases k with
  | unknown | scalar | array => rfl
  | union members => cases hunion
  | object properties origin =>
    cases properties with
    | cons e rest => rfl
    | nil =>
      cases origin with
      | none => rfl
      | some target => cases href

/-- A well-formed type without references is only restored. -/
theorem expanded_of_no_refs {t : Ty} (hwf : t.WellFormed)
    (hrefs : ∀ m ∈ t.members, m.entityRef? = none) : expanded row t = t.restored := by
  cases hwf with
  | @union members slot halternatives _ =>
    have hmembers : members.map (expanded row) = members := by
      rw [List.map_congr_left fun m hm =>
        expanded_of_not_isUnion (halternatives.flat m hm) (hrefs m hm), List.map_id']
    rw [expanded, expandedList_eq_map, hmembers, halternatives.union_eq]
    rfl
  | unknown slot => rfl
  | scalar s slot => rfl
  | array origin slot => rfl
  | object origin slot =>
    exact expanded_of_not_isUnion rfl (hrefs _ (List.mem_singleton.2 rfl))

end Row

/-! ## Columns of a row -/

/-- The type that a column is declared to have in a row. -/
def Column.declared (c : Column) : Ty :=
  (if c.nullable then c.ty.nullable else c.ty).withRequired true

/-- A column whose well-formed type neither is a reference to an entity nor has one among its
members. -/
structure Column.RefFree (c : Column) : Prop where
  wellFormed : c.ty.WellFormed
  no_refs : ∀ m ∈ c.ty.members, m.entityRef? = none

/-- The type that a column without references has in a row. -/
def Column.shown (c : Column) : Ty :=
  (if c.nullable then c.ty.nullable else c.ty.restored).withRequired true

theorem Row.columnOf_of_refFree {row : String → Ty} {c : Column} (hc : c.RefFree) :
    columnOf row c = c.shown := by
  rw [columnOf, expanded_of_no_refs hc.wellFormed hc.no_refs, Ty.nullable_restored]
  rfl

/-- Where no two columns have one name, a column is laid out under its name. -/
theorem Row.Frame.get?_layAll_of_mem (frame : Row.Frame)
    (hnames : (frame.columns.map Column.name).Nodup) {c : Column} (hmem : c ∈ frame.columns)
    (hallows : frame.visibility.allows c.name = true) :
    (frame.layAll []).get? c.name = some (.column c) := by
  have hkey : c.name ∈ (frame.layAll []).keys :=
    (mem_keys_layAll []).2 (.inr ⟨hallows, c, hmem, rfl⟩)
  obtain ⟨source, hsource⟩ := Entries.exists_get?_of_mem_keys hkey
  rcases get?_layAll hsource with hnil | ⟨d, hd, rfl, hname⟩
  · cases hnil
  · rw [hsource, List.inj_on_of_nodup_map hnames hd hmem hname]

section

variable {cx : Context} {entity : String} {columns : List Column}
  (hcolumns : cx.catalog.columns entity = .ok columns) (hnames : (columns.map Column.name).Nodup)
  {c : Column} (hmem : c ∈ columns) (hallows : (cx.catalog.visibility entity).allows c.name = true)
  (hc : c.RefFree)
include hcolumns hnames hmem hallows hc

theorem rowOf_shown (depth : Nat) :
    ∃ properties, rowOf cx.catalog (depth + 1) entity .everything .empty =
        .object properties (some entity) ∧ Entries.get? properties c.name = some c.shown := by
  refine ⟨_, rfl, ?_⟩
  have hknown : (cx.catalog.frame entity).columns = columns := by
    show cx.catalog.knownColumns entity = columns
    rw [Catalog.knownColumns, hcolumns]
    rfl
  have hlayout : (rowLayout cx.catalog entity .everything .empty).get? c.name =
      some (.column c) := by
    refine (cx.catalog.frame entity).get?_layAll_of_mem ?_ ?_ hallows
    · exact hknown ▸ hnames
    · exact hknown ▸ hmem
  rw [Entries.get?_mapValues, hlayout, Option.map_some, RowSource.type, Row.columnOf_of_refFree hc]

/-- On sound kept rows a row shows its columns without references, or it fails for an entity that
cannot be read. -/
theorem entityRow_shown (hdepth : 1 ≤ cx.config.maxDepth) {p : Progress}
    (hp : p.rows.Sound cx.catalog) :
    (∀ e, (runFrom (entityRow cx entity) p).1 = .error e → Unreadable cx e) ∧
      ∀ row, (runFrom (entityRow cx entity) p).1 = .ok row →
        ∃ properties, row = .object properties (some entity) ∧
          Entries.get? properties c.name = some c.shown := by
  have hrow := (Conduct.keeps_computedRows (readsColumns_unreadable cx)).entityRow entity
  refine ⟨fun e he => hrow.failure (hp.computedRows _) he, ?_⟩
  intro row hok
  have hshown := rowOf_shown hcolumns hnames hmem hallows hc (cx.config.maxDepth - 1)
  rw [Nat.sub_add_cancel hdepth, ← hrow.value (hp.computedRows _) hok] at hshown
  exact hshown

end

/-! ## As declared -/

namespace Column

theorem kind_shown (c : Column) : c.shown.kind = c.declared.kind := by
  rw [shown, declared]
  cases c.nullable <;> simp [Ty.withRequired]

/-- A column is shown as declared, except for what was said about the place of a union. -/
theorem shown_eq_declared_iff (c : Column) :
    c.shown = c.declared ↔
      (c.nullable = true ∨ c.ty.isUnion = false ∨ c.ty.description = none ∧
        c.ty.examples = []) := by
  rw [shown, declared]
  cases c.nullable with
  | true => simp
  | false => simpa using Ty.restored_withRequired_eq_iff

end Column

/-- The row of an entity has a column without references that it shows under its name, with the kind
that was declared, and the column must be there. It has exactly the declared type, unless this is a
union with a description or examples and the column is not nullable. A row fails only under a strict
policy, for an entity whose columns cannot be read. -/
theorem entityRow_declared (cx : Context) (hdepth : 1 ≤ cx.config.maxDepth) {entity : String}
    {columns : List Column} (hcolumns : cx.catalog.columns entity = .ok columns)
    (hnames : (columns.map Column.name).Nodup) {c : Column} (hmem : c ∈ columns)
    (hallows : (cx.catalog.visibility entity).allows c.name = true) (hwf : c.ty.WellFormed)
    (hrefs : ∀ m ∈ c.ty.members, m.entityRef? = none) {p : Progress}
    (hp : p.rows.Sound cx.catalog) :
    (∀ e, (runFrom (entityRow cx entity) p).1 = .error e → Unreadable cx e) ∧
      ∀ row, (runFrom (entityRow cx entity) p).1 = .ok row →
        ∃ properties t, row = .object properties (some entity) ∧
          Entries.get? properties c.name = some t ∧
          t.kind = c.declared.kind ∧ t.required = true ∧
          (t = c.declared ↔
            (c.nullable = true ∨ c.ty.isUnion = false ∨ c.ty.description = none ∧
              c.ty.examples = [])) := by
  obtain ⟨hfails, hshown⟩ := entityRow_shown hcolumns hnames hmem hallows ⟨hwf, hrefs⟩ hdepth hp
  refine ⟨hfails, fun row hok => ?_⟩
  obtain ⟨properties, hrow, hget⟩ := hshown row hok
  exact ⟨properties, c.shown, hrow, hget, c.kind_shown, rfl, c.shown_eq_declared_iff⟩

/-- What refers to an order: its number or its name. -/
def orderReference : Ty :=
  .mk (.union [.integer, .string])
    { description := some "number or name of an order", examples := ["A-17"] }

theorem wellFormed_orderReference : orderReference.WellFormed := by
  refine .union _ (.pair rfl rfl (by decide +kernel)) ?_
  simp [Ty.integer, Ty.string, Ty.wellFormed_scalar]

theorem no_refs_orderReference : ∀ m ∈ orderReference.members, m.entityRef? = none := by
  simp [orderReference, Ty.members, Ty.entityRef?, Ty.integer, Ty.string, Ty.scalar, Ty.ofKind]

/-- Orders with a reference, perhaps one to an earlier order, and a customer of whom nothing is
known. -/
def orderColumns : List Column :=
  [⟨"reference", orderReference, false⟩, ⟨"earlier", orderReference, true⟩,
    ⟨"customer", .object [] (some "Customer"), false⟩]

/-- A catalog of orders. -/
def orderCatalog : Catalog where
  entities :=
    [("Order", { columns := orderColumns.map fun c => ⟨c.name, .resolved c.ty, c.nullable⟩ })]

theorem columns_orderCatalog : orderCatalog.columns "Order" = .ok orderColumns := rfl

/-- Under a lenient policy orders have a row. -/
theorem exists_row_orderCatalog :
    ∃ row, (runFrom (entityRow ⟨{}, orderCatalog⟩ "Order") {}).1 = .ok row :=
  ((serves_of_lenient rfl).toKeeps.entityRow "Order").exists_ok {}

/-- The reference to an earlier order is as declared, although the customer cannot be read. -/
theorem entityRow_declared_earlier :
    ∃ properties,
      (runFrom (entityRow ⟨{}, orderCatalog⟩ "Order") {}).1 =
        .ok (.object properties (some "Order")) ∧
      Entries.get? properties "earlier" = some (orderReference.nullable.withRequired true) := by
  have hmem : ⟨"earlier", orderReference, true⟩ ∈ orderColumns := by simp [orderColumns]
  obtain ⟨row, hrow⟩ := exists_row_orderCatalog
  obtain ⟨properties, t, rfl, hget, -, -, hdeclared⟩ :=
    (entityRow_declared ⟨{}, orderCatalog⟩ (by decide)
    columns_orderCatalog (by decide) hmem (by decide +kernel) wellFormed_orderReference
      no_refs_orderReference
    (RowCache.sound_nil _)).2 row hrow
  rw [hdeclared.2 (.inl rfl)] at hget
  exact ⟨properties, hrow, hget⟩

/-- The reference of an order has lost its description. -/
theorem entityRow_drops_description :
    ∃ properties,
      (runFrom (entityRow ⟨{}, orderCatalog⟩ "Order") {}).1 =
        .ok (.object properties (some "Order")) ∧
      ∃ t, Entries.get? properties "reference" = some t ∧ t.kind = orderReference.kind ∧
        t.description ≠ orderReference.description := by
  have hmem : ⟨"reference", orderReference, false⟩ ∈ orderColumns := by simp [orderColumns]
  obtain ⟨row, hrow⟩ := exists_row_orderCatalog
  obtain ⟨properties, rfl, hget⟩ :=
    (entityRow_shown columns_orderCatalog (by decide) hmem (by decide +kernel)
      ⟨wellFormed_orderReference, no_refs_orderReference⟩ (by decide)
      (RowCache.sound_nil _)).2 row hrow
  exact ⟨properties, hrow, _, hget, rfl, by decide⟩

end QueryTypes
