import QueryTypes.Proofs.Lists
import QueryTypes.Proofs.Reading
import QueryTypes.Query.Row

/-!
# The layout of a row

Which names a row has, and where the property under each name comes from, is decided before any type
is known. The layout of a row (`rowLayout`) lists the names with their sources: a column of the
entity, a relation to load, or an expression of which nothing is known. A later source for a name
takes the place of an earlier one.

The names of a layout are those that the entity shows among the columns, the labels and the
relations that were asked for (`mem_keys_rowLayout`), and a relation that is loaded stands above a
column of its name (`standsFor_rowLayout`).
-/

set_option autoImplicit false

namespace QueryTypes

/-! ## Sources -/

/-- Where a property of a row comes from. -/
inductive RowSource where
  /-- A column of the entity. -/
  | column (c : Column)
  /-- A relation, with the relations to load from its target. -/
  | relation (r : Relation) (nested : RelationTree)
  /-- An expression, another table's column or a column that the entity does not have. -/
  | unknown

/-- The columns of an entity; none if they cannot be read. -/
def Catalog.knownColumns (catalog : Catalog) (entity : String) : List Column :=
  (catalog.columns entity).toOption.getD []

/-- What a catalog says about an entity. -/
def Catalog.frame (catalog : Catalog) (entity : String) : Row.Frame :=
  .of catalog entity (catalog.knownColumns entity)

/-- The relation that an entity has and shows under a name. -/
def Catalog.shownRelation? (catalog : Catalog) (entity name : String) : Option Relation :=
  if (catalog.visibility entity).allows name then catalog.relation? entity name else none

namespace Row.Frame

variable (frame : Frame)

/-- Where a selected column comes from. -/
def source (ref : ColumnRef) : RowSource :=
  if ref.isLocal frame.table then
    match frame.columns.find? fun c => c.name == ref.text with
    | some c => .column c
    | none => .unknown
  else .unknown

/-- Lay out all columns that are shown. -/
def layAll (es : Entries RowSource) : Entries RowSource :=
  (frame.columns.filter fun c => frame.visibility.allows c.name).foldl
    (fun es c => es.put c.name (.column c)) es

/-- Lay out a selected column, or all of them for a wildcard. -/
def layRef (es : Entries RowSource) (ref : ColumnRef) : Entries RowSource :=
  if ref.isWildcard then
    if ref.isLocal frame.table then frame.layAll es else es
  else if frame.visibility.allows ref.outputName then es.put ref.outputName (frame.source ref)
  else es

/-- The layout of a projection. -/
def layout (p : Projection) : Entries RowSource :=
  p.columns.foldl frame.layRef (if p.all then frame.layAll [] else [])

end Row.Frame

/-- Lay out a relation, if the entity has it and shows it. -/
def layRelation (catalog : Catalog) (entity : String) (es : Entries RowSource)
    (child : String × RelationTree) : Entries RowSource :=
  match catalog.shownRelation? entity child.1 with
  | some r => es.put child.1 (.relation r child.2)
  | none => es

/-- The layout of a row of an entity with relations loaded. -/
def rowLayout (catalog : Catalog) (entity : String) (p : Projection) (tree : RelationTree) :
    Entries RowSource :=
  tree.children.foldl (layRelation catalog entity) ((catalog.frame entity).layout p)

/-! ## Folds over entries -/

namespace Entries

variable {α β : Type} {f : Entries α → β → Entries α}

/-- What is found after a fold was there before or comes from a step. -/
theorem get?_foldl {P : β → α → Prop} {name : String}
    (h : ∀ es x a, (f es x).get? name = some a → es.get? name = some a ∨ P x a) (xs : List β)
    (es : Entries α) {a : α} (ha : (xs.foldl f es).get? name = some a) :
    es.get? name = some a ∨ ∃ x ∈ xs, P x a := by
  induction xs generalizing es with
  | nil => exact .inl ha
  | cons x rest ih =>
    rcases ih (f es x) ha with hstep | ⟨y, hy, hP⟩
    · rcases h es x a hstep with hold | hP
      · exact .inl hold
      · exact .inr ⟨x, List.mem_cons_self, hP⟩
    · exact .inr ⟨y, List.mem_cons_of_mem _ hy, hP⟩

theorem Distinct.foldl (h : ∀ es x, es.Distinct → (f es x).Distinct) (xs : List β) {es : Entries α}
    (hes : es.Distinct) : (xs.foldl f es).Distinct :=
  List.foldlRecOn xs f hes fun es hes x _ => h es x hes

/-- What is found after a name has been given a value is the value or was found before. -/
theorem get?_put_eq_some {es : Entries α} {name key : String} {value a : α}
    (h : (es.put key value).get? name = some a) :
    es.get? name = some a ∨ key = name ∧ value = a := by
  by_cases hname : key = name
  · subst hname
    rw [get?_put_self, Option.some.injEq] at h
    exact .inr ⟨rfl, h⟩
  · rw [get?_put_of_ne es value hname] at h
    exact .inl h

end Entries

/-! ## The names of a layout -/

/-- A projection takes all columns: it starts with them, or has a wildcard that names no table or
the table of the entity. -/
def Projection.TakesAll (p : Projection) (table : Option String) : Prop :=
  p.all = true ∨
    ∃ ref ∈ p.columns, ref.isWildcard = true ∧ ∀ t, ref.table? = some t → table = some t

/-- The names that a row of an entity has: of the names that the entity shows, those of its columns
if the projection takes all of them, those under which the projection selects something, and those
of the relations to load that the entity has. -/
def Shown (catalog : Catalog) (entity : String) (p : Projection) (tree : RelationTree)
    (name : String) : Prop :=
  (catalog.visibility entity).allows name = true ∧
    (p.TakesAll (catalog.table? entity) ∧ (∃ c ∈ catalog.knownColumns entity, c.name = name) ∨
      (∃ ref ∈ p.columns, ref.isWildcard = false ∧ ref.outputName = name) ∨
      name ∈ Entries.keys tree.children ∧ (catalog.relation? entity name).isSome = true)

theorem ColumnRef.isLocal_iff_of_isWildcard {ref : ColumnRef} (h : ref.isWildcard = true)
    (table : Option String) :
    ref.isLocal table = true ↔ ∀ t, ref.table? = some t → table = some t := by
  cases ref with
  | raw text label => simp [isWildcard] at h
  | column own name label =>
    cases own with
    | none => simp [isLocal, table?]
    | some t => simp [isLocal, table?]

namespace Row.Frame

variable {frame : Frame} {name : String}

theorem mem_keys_layAll (es : Entries RowSource) :
    name ∈ (frame.layAll es).keys ↔
      name ∈ es.keys ∨ frame.visibility.allows name = true ∧
        ∃ c ∈ frame.columns, c.name = name := by
  rw [layAll, foldl_collects (P := fun es => name ∈ Entries.keys es) (Q := fun c => c.name = name)]
  · constructor
    · rintro (h | ⟨c, hc, rfl⟩)
      · exact .inl h
      · obtain ⟨hmem, hallows⟩ := List.mem_filter.1 hc
        exact .inr ⟨hallows, c, hmem, rfl⟩
    · rintro (h | ⟨hallows, c, hc, rfl⟩)
      · exact .inl h
      · exact .inr ⟨c, List.mem_filter.2 ⟨hc, hallows⟩, rfl⟩
  · intro es c
    rw [Entries.mem_keys_put, eq_comm (a := name)]

/-- A reference adds a name that is shown: of every column if it is a wildcard for the entity,
otherwise the one it selects under. -/
theorem mem_keys_layRef (es : Entries RowSource) (ref : ColumnRef) :
    name ∈ (frame.layRef es ref).keys ↔
      name ∈ es.keys ∨ frame.visibility.allows name = true ∧
        ((ref.isWildcard = true ∧ ref.isLocal frame.table = true) ∧
            (∃ c ∈ frame.columns, c.name = name) ∨
          ref.isWildcard = false ∧ ref.outputName = name) := by
  cases hwild : ref.isWildcard with
  | true =>
    cases hlocal : ref.isLocal frame.table with
    | true => simp [layRef, hwild, hlocal, mem_keys_layAll]
    | false => simp [layRef, hwild, hlocal]
  | false =>
    by_cases hname : ref.outputName = name
    · subst hname
      cases hallows : frame.visibility.allows ref.outputName with
      | true => simp [layRef, hwild, hallows, Entries.mem_keys_put]
      | false => simp [layRef, hwild, hallows]
    · have hne : name ≠ ref.outputName := fun h => hname h.symm
      cases hallows : frame.visibility.allows ref.outputName with
      | true => simp [layRef, hwild, hallows, Entries.mem_keys_put, hname, hne]
      | false => simp [layRef, hwild, hallows, hname]

theorem mem_keys_layout (p : Projection) :
    name ∈ (frame.layout p).keys ↔
      frame.visibility.allows name = true ∧
        (p.TakesAll frame.table ∧ (∃ c ∈ frame.columns, c.name = name) ∨
          ∃ ref ∈ p.columns, ref.isWildcard = false ∧ ref.outputName = name) := by
  have hstart : name ∈ Entries.keys (if p.all then frame.layAll [] else []) ↔
      p.all = true ∧ frame.visibility.allows name = true ∧ ∃ c ∈ frame.columns, c.name = name := by
    have hnil : name ∉ Entries.keys ([] : Entries RowSource) := List.not_mem_nil
    cases p.all with
    | true => simp [mem_keys_layAll, hnil]
    | false => simp [hnil]
  rw [layout, foldl_collects (P := fun es => name ∈ Entries.keys es) mem_keys_layRef, hstart]
  constructor
  · rintro (⟨hall, hallows, hcolumn⟩ | ⟨ref, href, hallows, ⟨⟨hwild, hlocal⟩, hcolumn⟩ | hlabel⟩)
    · exact ⟨hallows, .inl ⟨.inl hall, hcolumn⟩⟩
    · have htable := (ColumnRef.isLocal_iff_of_isWildcard hwild _).1 hlocal
      exact ⟨hallows, .inl ⟨.inr ⟨ref, href, hwild, htable⟩, hcolumn⟩⟩
    · exact ⟨hallows, .inr ⟨ref, href, hlabel⟩⟩
  · rintro ⟨hallows, ⟨hall | ⟨ref, href, hwild, htable⟩, hcolumn⟩ | ⟨ref, href, hlabel⟩⟩
    · exact .inl ⟨hall, hallows, hcolumn⟩
    · have hlocal := (ColumnRef.isLocal_iff_of_isWildcard hwild _).2 htable
      exact .inr ⟨ref, href, hallows, .inl ⟨⟨hwild, hlocal⟩, hcolumn⟩⟩
    · exact .inr ⟨ref, href, hallows, .inr hlabel⟩

end Row.Frame

section Names

variable {catalog : Catalog} {entity name : String}

theorem Catalog.shownRelation?_eq_some {r : Relation} :
    catalog.shownRelation? entity name = some r ↔
      (catalog.visibility entity).allows name = true ∧ catalog.relation? entity name = some r := by
  cases hallows : (catalog.visibility entity).allows name <;> simp [shownRelation?, hallows]

theorem mem_keys_layRelation (es : Entries RowSource) (child : String × RelationTree) :
    name ∈ (layRelation catalog entity es child).keys ↔
      name ∈ es.keys ∨ child.1 = name ∧ (catalog.shownRelation? entity name).isSome = true := by
  by_cases hname : child.1 = name
  · subst hname
    cases hrelation : catalog.shownRelation? entity child.1 <;>
      simp [layRelation, hrelation, Entries.mem_keys_put]
  · have hne : name ≠ child.1 := fun h => hname h.symm
    cases hrelation : catalog.shownRelation? entity child.1 <;>
      simp [layRelation, hrelation, Entries.mem_keys_put, hname, hne]

/-- The names of the layout of a row. -/
theorem mem_keys_rowLayout (p : Projection) (tree : RelationTree) :
    name ∈ (rowLayout catalog entity p tree).keys ↔ Shown catalog entity p tree name := by
  have hrelation : (catalog.shownRelation? entity name).isSome = true ↔
      (catalog.visibility entity).allows name = true ∧
        (catalog.relation? entity name).isSome = true := by
    simp only [Option.isSome_iff_exists, Catalog.shownRelation?_eq_some, exists_and_left]
  have hchild : (∃ child ∈ tree.children, child.1 = name ∧
        (catalog.shownRelation? entity name).isSome = true) ↔
      (catalog.visibility entity).allows name = true ∧
        name ∈ Entries.keys tree.children ∧ (catalog.relation? entity name).isSome = true := by
    rw [hrelation, Entries.keys, List.mem_map]
    constructor
    · rintro ⟨child, hmem, hname, hallows, hsome⟩
      exact ⟨hallows, ⟨child, hmem, hname⟩, hsome⟩
    · rintro ⟨hallows, ⟨child, hmem, hname⟩, hsome⟩
      exact ⟨child, hmem, hname, hallows, hsome⟩
  rw [rowLayout, foldl_collects (P := fun es => name ∈ Entries.keys es) mem_keys_layRelation,
    hchild, Row.Frame.mem_keys_layout, Shown, ← or_assoc]
  exact and_or_left.symm

end Names

/-! ## No name twice -/

theorem Row.Frame.distinct_layAll (frame : Row.Frame) {es : Entries RowSource} (h : es.Distinct) :
    (frame.layAll es).Distinct :=
  Entries.Distinct.foldl (fun _ c hes => hes.put c.name _) _ h

theorem Row.Frame.distinct_layRef (frame : Row.Frame) (es : Entries RowSource) (ref : ColumnRef)
    (h : es.Distinct) : (frame.layRef es ref).Distinct := by
  rw [layRef]
  split
  · split
    · exact frame.distinct_layAll h
    · exact h
  · split
    · exact h.put _ _
    · exact h

theorem distinct_layRelation (catalog : Catalog) (entity : String) (es : Entries RowSource)
    (child : String × RelationTree) (h : es.Distinct) :
    (layRelation catalog entity es child).Distinct := by
  rw [layRelation]
  split
  · exact h.put _ _
  · exact h

theorem distinct_rowLayout (catalog : Catalog) (entity : String) (p : Projection)
    (tree : RelationTree) : (rowLayout catalog entity p tree).Distinct := by
  apply Entries.Distinct.foldl (distinct_layRelation catalog entity)
  apply Entries.Distinct.foldl (Row.Frame.distinct_layRef _)
  split
  · exact Row.Frame.distinct_layAll _ List.nodup_nil
  · exact List.nodup_nil

/-! ## What stands under a name -/

/-- A column of an entity can stand under a name: it has the name, or a reference that selects under
the name means it. -/
def Projection.Takes (p : Projection) (name : String) (c : Column) : Prop :=
  c.name = name ∨ ∃ ref ∈ p.columns, ref.outputName = name ∧ ref.text = c.name

/-- What can stand under a name of a row. A relation that is loaded leaves no room for a column. -/
inductive StandsFor (catalog : Catalog) (entity : String) (p : Projection) (tree : RelationTree)
    (name : String) : RowSource → Prop
  | relation {r : Relation} {nested : RelationTree} (loaded : (name, nested) ∈ tree.children)
      (shown : catalog.shownRelation? entity name = some r) :
      StandsFor catalog entity p tree name (.relation r nested)
  | column {c : Column}
      (unloaded : name ∈ Entries.keys tree.children → catalog.shownRelation? entity name = none)
      (known : c ∈ catalog.knownColumns entity) (takes : p.Takes name c) :
      StandsFor catalog entity p tree name (.column c)
  | unknown (unloaded : name ∈ Entries.keys tree.children →
      catalog.shownRelation? entity name = none) :
      StandsFor catalog entity p tree name .unknown

namespace Row.Frame

variable {frame : Frame} {name : String}

theorem get?_layAll {es : Entries RowSource} {s : RowSource}
    (h : (frame.layAll es).get? name = some s) :
    es.get? name = some s ∨ ∃ c ∈ frame.columns, s = .column c ∧ c.name = name := by
  have hstep : ∀ (es : Entries RowSource) (c : Column) (s : RowSource),
      (es.put c.name (.column c)).get? name = some s →
        es.get? name = some s ∨ s = .column c ∧ c.name = name := by
    intro es c s h
    rcases Entries.get?_put_eq_some h with hold | ⟨hname, hs⟩
    · exact .inl hold
    · exact .inr ⟨hs.symm, hname⟩
  rcases Entries.get?_foldl hstep _ es h with hold | ⟨c, hc, hs⟩
  · exact .inl hold
  · exact .inr ⟨c, List.mem_of_mem_filter hc, hs⟩

theorem source_cases (frame : Frame) (ref : ColumnRef) :
    frame.source ref = .unknown ∨
      ∃ c ∈ frame.columns, frame.source ref = .column c ∧ ref.text = c.name := by
  rw [source]
  split
  · split
    · next c hfind =>
      have htext : c.name = ref.text := by simpa using List.find?_some hfind
      exact .inr ⟨c, List.mem_of_find?_eq_some hfind, rfl, htext.symm⟩
    · exact .inl rfl
  · exact .inl rfl

/-- What a reference lays out is unknown, a column under its own name, or the column that it
means. -/
theorem get?_layRef (es : Entries RowSource) (ref : ColumnRef) (s : RowSource)
    (h : (frame.layRef es ref).get? name = some s) :
    es.get? name = some s ∨ s = .unknown ∨
      ∃ c ∈ frame.columns, s = .column c ∧
        (c.name = name ∨ ref.outputName = name ∧ ref.text = c.name) := by
  rw [layRef] at h
  split at h
  · split at h
    · rcases get?_layAll h with hold | ⟨c, hc, hs, hname⟩
      · exact .inl hold
      · exact .inr (.inr ⟨c, hc, hs, .inl hname⟩)
    · exact .inl h
  · split at h
    · rcases Entries.get?_put_eq_some h with hold | ⟨hname, rfl⟩
      · exact .inl hold
      · rcases frame.source_cases ref with hs | ⟨c, hc, hs, htext⟩
        · exact .inr (.inl hs)
        · exact .inr (.inr ⟨c, hc, hs, .inr ⟨hname, htext⟩⟩)
    · exact .inl h

/-- What stands under a name of the layout of a projection is unknown or a column that it takes. -/
theorem get?_layout {p : Projection} {s : RowSource} (h : (frame.layout p).get? name = some s) :
    s = .unknown ∨ ∃ c ∈ frame.columns, s = .column c ∧ p.Takes name c := by
  rcases Entries.get?_foldl get?_layRef p.columns _ h with
    hstart | ⟨ref, href, rfl | ⟨c, hc, rfl, hname | hlabel⟩⟩
  · split at hstart
    · rcases get?_layAll hstart with hnil | ⟨c, hc, hs, hname⟩
      · simp at hnil
      · exact .inr ⟨c, hc, hs, .inl hname⟩
    · simp at hstart
  · exact .inl rfl
  · exact .inr ⟨c, hc, rfl, .inl hname⟩
  · exact .inr ⟨c, hc, rfl, .inr ⟨ref, href, hlabel⟩⟩

end Row.Frame

/-- Loading relations puts each that is shown under its name and leaves the other names alone. -/
theorem get?_foldl_layRelation (catalog : Catalog) (entity : String)
    (children : List (String × RelationTree)) (es : Entries RowSource) (name : String) :
    (∃ nested r, (name, nested) ∈ children ∧ catalog.shownRelation? entity name = some r ∧
        (children.foldl (layRelation catalog entity) es).get? name = some (.relation r nested)) ∨
      (name ∈ Entries.keys children → catalog.shownRelation? entity name = none) ∧
        (children.foldl (layRelation catalog entity) es).get? name = es.get? name := by
  induction children generalizing es with
  | nil => exact .inr ⟨fun h => absurd h List.not_mem_nil, rfl⟩
  | cons child rest ih =>
    rw [List.foldl_cons]
    rcases ih (layRelation catalog entity es child) with ⟨nested, r, hmem, hr, hget⟩ | ⟨hrest, hget⟩
    · exact .inl ⟨nested, r, List.mem_cons_of_mem _ hmem, hr, hget⟩
    · rw [hget]
      by_cases hname : child.1 = name
      · -- the last relation of the name; whether it is loaded depends on the name alone
        subst hname
        cases hr : catalog.shownRelation? entity child.1 with
        | some r =>
          left
          refine ⟨child.2, r, List.mem_cons_self, rfl, ?_⟩
          simp [layRelation, hr]
        | none =>
          right
          refine ⟨fun _ => rfl, ?_⟩
          simp [layRelation, hr]
      · right
        constructor
        · intro hmem
          rcases List.mem_cons.1 hmem with h | h
          · exact absurd h.symm hname
          · exact hrest h
        · rw [layRelation]
          split
          · exact Entries.get?_put_of_ne es _ hname
          · rfl

/-- What stands under a name of a layout can stand there. -/
theorem standsFor_rowLayout {catalog : Catalog} {entity name : String} {p : Projection}
    {tree : RelationTree} {s : RowSource}
    (h : (rowLayout catalog entity p tree).get? name = some s) :
    StandsFor catalog entity p tree name s := by
  rw [rowLayout] at h
  rcases get?_foldl_layRelation catalog entity tree.children
    ((catalog.frame entity).layout p) name with
    ⟨nested, r, hmem, hr, hget⟩ | ⟨hunloaded, hget⟩
  · rw [hget, Option.some.injEq] at h
    subst h
    exact .relation hmem hr
  · rw [hget] at h
    rcases Row.Frame.get?_layout h with rfl | ⟨c, hc, rfl, htakes⟩
    · exact .unknown hunloaded
    · exact .column hunloaded hc htakes

end QueryTypes
