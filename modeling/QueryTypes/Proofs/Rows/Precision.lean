import QueryTypes.Proofs.Conduct.Query
import QueryTypes.Proofs.Documents
import QueryTypes.Proofs.Narrowing
import QueryTypes.Proofs.Rows.Inheritance

/-!
# Deeper rows are more precise

A row that is followed to a greater depth accepts fewer values (`Ty.Narrows`). Rows one level less
deep stand in the properties of a row, so by induction on the depth it is enough that a row narrows
when the rows inside do (`narrows_rowOf`). Two things in the way a column is put together do not
respect this by themselves: a union of nothing accepts everything, and the type of null is not made
nullable again. Both depend on types that no row is part of, and these are the same at every depth
(`Row.expanded_of_rowless`).

A union drops a type that equals an earlier one, and shapes are compared by looking names up. So
that equal types accept the same values, the shapes in a catalog are taken to be maps proper; in
every catalog that is read they are (`Catalog.wellKeyed_decode`).
-/

set_option autoImplicit false

namespace QueryTypes

namespace Ty

/-! ## Types without rows -/

/-- No row can be part of the type: it is a scalar, an array or a union of such types. -/
inductive Rowless : Ty → Prop
  | scalar (s : Scalar) (slot : Slot) : Rowless (.mk (.scalar s) slot)
  | array (item key : Option Ty) (shape : Option (List (String × Ty))) (origin : Option String)
      (slot : Slot) : Rowless (.mk (.array item key shape origin) slot)
  | union {members : List Ty} (slot : Slot) (members_rowless : ∀ m ∈ members, Rowless m) :
      Rowless (.mk (.union members) slot)

namespace Rowless

theorem mk {t : Ty} (h : t.Rowless) (slot : Slot) : Rowless (.mk t.kind slot) := by
  cases h with
  | scalar s _ => exact .scalar s slot
  | array item key shape origin _ => exact .array item key shape origin slot
  | union _ hmembers => exact .union slot hmembers

theorem of_withRequired {t : Ty} {required : Bool} (h : (t.withRequired required).Rowless) :
    t.Rowless := by
  have := h.mk t.slot
  rwa [withRequired, kind_mk, mk_kind_slot] at this

theorem members {t : Ty} (h : t.Rowless) : ∀ m ∈ t.members, m.Rowless := by
  cases h with
  | scalar s slot => exact List.forall_mem_singleton.2 (.scalar s slot)
  | array item key shape origin slot =>
    exact List.forall_mem_singleton.2 (.array item key shape origin slot)
  | union slot hmembers => exact hmembers

theorem of_members {t : Ty} (h : ∀ m ∈ t.members, m.Rowless) : t.Rowless := by
  obtain ⟨k, slot⟩ := t
  cases k with
  | union members => exact .union slot h
  | unknown | scalar | array | object => exact h _ List.mem_cons_self

/-- A type that equals a type without rows has none. -/
theorem of_same {u : Ty} (h : u.Rowless) {t : Ty} (hsame : u.same t = true) : t.Rowless := by
  induction h generalizing t with
  | scalar s slot =>
    obtain ⟨k, slot'⟩ := t
    cases k with
    | scalar s' => exact .scalar s' slot'
    | unknown | array | object | union => simp [Ty.same, Kind.same] at hsame
  | array item key shape origin slot =>
    obtain ⟨k, slot'⟩ := t
    cases k with
    | array item' key' shape' origin' => exact .array item' key' shape' origin' slot'
    | unknown | scalar | object | union => simp [Ty.same, Kind.same] at hsame
  | union slot _ ih =>
    obtain ⟨k, slot'⟩ := t
    cases k with
    | union members' =>
      rw [Ty.same, Kind.same, Bool.and_eq_true] at hsame
      apply Rowless.union slot'
      intro m hm
      obtain ⟨u, hu, hum⟩ := exists_same_of_sameList hsame.1 hm
      exact ih u hu hum
    | unknown | scalar | array | object => simp [Ty.same, Kind.same] at hsame

/-- A union without rows is made of types without rows. -/
theorem of_union {ts : List Ty} (h : (Ty.union ts).Rowless) : ∀ t ∈ ts, t.Rowless := by
  have hdistinct : ∀ u ∈ distinct (ts.flatMap Ty.members), u.Rowless := by
    rw [Ty.union] at h
    generalize distinct (ts.flatMap Ty.members) = ms at h
    rcases ms with _ | ⟨m, _ | ⟨m', rest⟩⟩
    · exact fun u hu => absurd hu List.not_mem_nil
    · exact List.forall_mem_singleton.2 h
    · exact h.members
  intro t ht
  apply of_members
  intro m hm
  obtain ⟨u, hu, hum⟩ := exists_mem_distinct (List.mem_flatMap.2 ⟨t, ht, hm⟩)
  rcases hum with rfl | hsame
  · exact hdistinct u hu
  · exact (hdistinct u hu).of_same hsame

end Rowless

theorem rowless_of_isNull {t : Ty} (h : t.isNull = true) : t.Rowless := by
  obtain ⟨k, slot⟩ := t
  cases k with
  | scalar s => exact .scalar s slot
  | unknown | array | object | union => cases h

theorem rowless_of_members_eq_nil {t : Ty} (h : t.members = []) : t.Rowless := by
  apply Rowless.of_members
  rw [h]
  exact fun m hm => absurd hm List.not_mem_nil

end Ty

/-! ## Columns -/

/-- Rows are unknown or objects. -/
def Ty.RowLike (t : Ty) : Prop :=
  t.kind = .unknown ∨ ∃ properties origin, t.kind = .object properties origin

theorem Ty.RowLike.not_rowless {t : Ty} (h : t.RowLike) (slot : Slot) :
    ¬ (Ty.mk t.kind slot).Rowless := by
  intro hrowless
  rcases h with hkind | ⟨properties, origin, hkind⟩
  · rw [hkind] at hrowless
    cases hrowless
  · rw [hkind] at hrowless
    cases hrowless

theorem Ty.RowLike.isNull_eq_false {t : Ty} (h : t.RowLike) : t.isNull = false := by
  rcases h with hkind | ⟨properties, origin, hkind⟩
  · simp [isNull, scalarKind?, hkind]
  · simp [isNull, scalarKind?, hkind]

theorem Ty.hereditary_wellKeyed : Ty.Hereditary Ty.WellKeyed where
  unknown := wellKeyed_unknown
  scalar := .scalar
  placed := .mk
  members := by
    rintro ms slot ⟨⟩
    assumption
  union := wellKeyed_union
  list ht origin := .array origin _ (fun _ hitem => Option.some.inj hitem ▸ ht) nofun nofun nofun
  object _ hproperties origin := .object origin _ hproperties

namespace Row

variable {row row' : String → Ty}

/-- A type without rows does not depend on the rows that references are replaced by. -/
theorem expanded_of_rowless (hrow : ∀ e, (row e).RowLike) {t : Ty} (h : (expanded row t).Rowless) :
    expanded row' t = expanded row t := by
  induction t using Ty.rec' with
  | unknown slot => rfl
  | scalar s slot => rfl
  | array item key shape origin slot => rfl
  | object properties origin slot =>
    cases properties with
    | nil =>
      cases origin with
      | none => rfl
      | some target =>
        -- a reference is replaced by a row
        exact absurd h ((hrow target).not_rowless _)
    | cons e rest => rfl
  | union members slot ih =>
    rw [expanded, expandedList_eq_map] at h
    have hmembers := h.of_withRequired.of_union
    have heq : members.map (expanded row') = members.map (expanded row) := by
      apply List.map_congr_left
      intro m hm
      exact ih m hm (hmembers _ (List.mem_map_of_mem hm))
    rw [expanded, expanded, expandedList_eq_map, expandedList_eq_map, heq]

variable (hkeyed : ∀ e, (row e).WellKeyed) (hlike : ∀ e, (row e).RowLike)
  (hlike' : ∀ e, (row' e).RowLike) (hrow : ∀ e, (row' e).Narrows (row e))

include hkeyed hlike' hrow in
theorem narrows_expanded {t : Ty} (ht : t.WellKeyed) :
    (expanded row' t).Narrows (expanded row t) := by
  induction ht with
  | unknown slot => exact .refl _
  | scalar s slot => exact .refl _
  | array origin slot => exact .refl _
  | @object properties origin slot =>
    cases properties with
    | nil =>
      cases origin with
      | none => exact .refl _
      | some target => exact (hrow target).of_kind_eq rfl rfl
    | cons e rest => exact .refl _
  | union slot hmembers ih =>
    have hunion :=
      Ty.narrows_union (fun m hm => Ty.hereditary_wellKeyed.expanded hkeyed (hmembers m hm)) ih ?_
    · rw [expanded, expanded, expandedList_eq_map, expandedList_eq_map]
      exact hunion.of_kind_eq rfl rfl
    · intro m hm hnil
      exact (expanded_of_rowless hlike' (Ty.rowless_of_members_eq_nil hnil)).symm

include hkeyed hlike hlike' hrow in
theorem narrows_columnOf {c : Column} (hc : c.ty.WellKeyed) :
    (columnOf row' c).Narrows (columnOf row c) := by
  have hexpanded := narrows_expanded hkeyed hlike' hrow hc
  rw [columnOf, columnOf]
  cases c.nullable with
  | false => exact hexpanded.of_kind_eq rfl rfl
  | true =>
    have hnullable :=
      Ty.narrows_nullable (Ty.hereditary_wellKeyed.expanded hkeyed hc) hexpanded fun hnull =>
      expanded_of_rowless hlike (Ty.rowless_of_isNull hnull)
    exact hnullable.of_kind_eq rfl rfl

end Row

/-! ## Relations -/

theorem Relation.narrows_loaded (r : Relation) {t' t : Ty} (ht : t.WellKeyed) (hlike : t.RowLike)
    (h : t'.Narrows t) : (r.loaded t').Narrows (r.loaded t) := by
  rw [loaded, loaded]
  cases r.many with
  | true =>
    intro F v hv
    obtain ⟨es, rfl, hes⟩ := Ty.accepts_array_iff.1 hv
    apply Ty.accepts_array_iff.2
    refine ⟨es, rfl, ?_⟩
    intro e he
    obtain ⟨hitem, hkey⟩ := hes e he
    exact ⟨h F e.2 hitem, hkey⟩
  | false =>
    have hnullable := Ty.narrows_nullable ht h fun hnull => by
      rw [hlike.isNull_eq_false] at hnull
      cases hnull
    exact hnullable.of_kind_eq rfl rfl

/-! ## Rows -/

/-- If the source is a column, the shapes in its type are maps proper. -/
def RowSource.WellKeyed (s : RowSource) : Prop := ∀ c, s = .column c → c.ty.WellKeyed

namespace RowSource

variable {row row' : String → RelationTree → Ty} {s : RowSource}

theorem narrows_type (hs : s.WellKeyed) (hkeyed : ∀ e nested, (row e nested).WellKeyed)
    (hlike : ∀ e nested, (row e nested).RowLike) (hlike' : ∀ e nested, (row' e nested).RowLike)
    (hrow : ∀ e nested, (row' e nested).Narrows (row e nested)) :
    (s.type row').Narrows (s.type row) := by
  cases s with
  | column c =>
    exact Row.narrows_columnOf (fun e => hkeyed e .empty) (fun e => hlike e .empty)
      (fun e => hlike' e .empty) (fun e => hrow e .empty) (hs c rfl)
  | relation r nested =>
    exact r.narrows_loaded (hkeyed r.target nested) (hlike r.target nested) (hrow r.target nested)
  | unknown => exact .refl _

end RowSource

theorem rowLike_rowOf (catalog : Catalog) (depth : Nat) (entity : String) (p : Projection)
    (tree : RelationTree) : (rowOf catalog depth entity p tree).RowLike := by
  cases depth with
  | zero => exact .inl rfl
  | succ depth => exact .inr ⟨_, _, rfl⟩

section Rows

variable {catalog : Catalog} (hcatalog : catalog.WellKeyed)

include hcatalog

theorem wellKeyed_rowLayout {entity : String} {p : Projection} {tree : RelationTree} {name : String}
    {s : RowSource} (h : (rowLayout catalog entity p tree).get? name = some s) : s.WellKeyed := by
  intro c hc
  subst hc
  cases standsFor_rowLayout h with
  | column _ hknown _ => exact Ty.hereditary_wellKeyed.knownColumns hcatalog entity c hknown

/-- A deeper row narrows a less deep one: both have the same layout, and the rows inside are deeper
as well. -/
theorem narrows_rowOf {depth depth' : Nat} (hdepth : depth ≤ depth') (entity : String)
    (p : Projection) (tree : RelationTree) :
    (rowOf catalog depth' entity p tree).Narrows (rowOf catalog depth entity p tree) := by
  -- on the smaller depth: where it ends, everything is accepted
  induction depth generalizing depth' entity p tree with
  | zero => exact Ty.narrows_unknown _
  | succ depth ih =>
    obtain ⟨depth', rfl⟩ : ∃ n, depth' = n + 1 := ⟨depth' - 1, by omega⟩
    intro F v hv
    obtain ⟨es, rfl, haccepts, hrequired⟩ := Ty.accepts_object_iff.1 hv
    apply Ty.accepts_object_iff.2
    refine ⟨es, rfl, ?_, ?_⟩
    · intro e he t ht
      rw [Entries.get?_mapValues] at ht
      obtain ⟨s, hs, rfl⟩ := Option.map_eq_some_iff.1 ht
      have hnarrows := RowSource.narrows_type (wellKeyed_rowLayout hcatalog hs)
        (fun target nested => Ty.hereditary_wellKeyed.rowOf hcatalog depth
          target .everything nested)
        (fun target nested => rowLike_rowOf catalog depth target .everything nested)
        (fun target nested => rowLike_rowOf catalog depth' target .everything nested)
        (fun target nested => ih (Nat.le_of_succ_le_succ hdepth) target .everything nested)
      apply hnarrows F e.2
      apply haccepts e he
      rw [Entries.get?_mapValues, hs]
      rfl
    · intro e he _
      obtain ⟨⟨name, s⟩, hs, rfl⟩ := List.mem_map.1 he
      -- the same property is required of the deeper row
      apply hrequired (name, s.type _) (List.mem_map_of_mem hs)
      exact s.required_type _

end Rows

/-! ## Chains -/

/-- The context with another depth. -/
def Context.toDepth (cx : Context) (depth : Nat) : Context :=
  { cx with config := { cx.config with maxDepth := depth } }

/-- A larger depth only makes rows more precise. Under a lenient policy, whatever the chain and for
every catalog that can be read (`Catalog.wellKeyed_decode`), the rows to two depths exist or not
alike, and every value that the deeper one accepts is accepted by the other. -/
theorem resolveRow_narrows (cx : Context) (hlenient : cx.config.strict = false)
    (hcatalog : cx.catalog.WellKeyed) (chain : Chain) {depth depth' : Nat} (hdepth : 1 ≤ depth)
    (hle : depth ≤ depth') {p q : Progress} (hp : p.rows.Sound cx.catalog)
    (hq : q.rows.Sound cx.catalog) :
    ∃ less more, (runFrom (resolveRow (cx.toDepth depth) chain) p).1 = .ok less ∧
      (runFrom (resolveRow (cx.toDepth depth') chain) q).1 = .ok more ∧
      Option.Rel (fun row row' => ∀ F v, row'.Accepts F v → row.Accepts F v) less more := by
  have hdepth' : depth' ≠ 0 := Nat.one_le_iff_ne_zero.1 (Nat.le_trans hdepth hle)
  refine ⟨_, _,
    @runFrom_resolveRow (cx.toDepth depth) (Nat.one_le_iff_ne_zero.1 hdepth) hlenient chain p hp,
    @runFrom_resolveRow (cx.toDepth depth') hdepth' hlenient chain q hq, ?_⟩
  have hmisuse : misuse? (cx.toDepth depth') chain.steps =
      misuse? (cx.toDepth depth) chain.steps := rfl
  rw [chainRow?, chainRow?, hmisuse]
  cases chain.root with
  | none => exact .none
  | some entity =>
    cases misuse? (cx.toDepth depth) chain.steps with
    | some what => exact .none
    | none =>
      apply Option.Rel.some
      apply Ty.narrows_union
      · intro v _
        exact Ty.hereditary_wellKeyed.rowOf hcatalog depth entity v _
      · intro v _
        exact narrows_rowOf hcatalog hle entity v _
      · -- a row is not a union of nothing
        intro v _ hnil
        have hrowless := Ty.rowless_of_members_eq_nil hnil
        exact absurd (hrowless.mk {}) ((rowLike_rowOf _ _ _ _ _).not_rowless {})

/-- People, each of whom may have a friend. -/
def friendsCatalog : Catalog where
  entities :=
    [("Person", { columns := [⟨"name", .sql "varchar", false⟩,
      ⟨"friend", .resolved (.object [] (some "Person")), true⟩] })]

/-- The catalog of people as it is written. -/
def friendsDocument : Json :=
  .obj [("entities", .obj [("Person", .obj [("columns", .arr
    [.obj [("name", .str "name"), ("type", .str "varchar")],
      .obj [("name", .str "friend"), ("nullable", .bool true),
        ("type", .obj [("kind", .str "object"), ("origin", .str "Person")])]])])])]

/-- People with their friends, and with the friends of these. -/
theorem resolveRow_narrows_friends :
    let cx : Context := ⟨{}, friendsCatalog⟩
    let chain : Chain := ⟨some "Person", [⟨"get", []⟩]⟩
    friendsCatalog.WellKeyed ∧ ∃ less more,
      (runFrom (resolveRow (cx.toDepth 2) chain) {}).1 = .ok (some less) ∧
      (runFrom (resolveRow (cx.toDepth 3) chain) {}).1 = .ok (some more) ∧
      ∀ F v, more.Accepts F v → less.Accepts F v := by
  intro cx chain
  have hread : Catalog.decode friendsDocument = .ok friendsCatalog := by rfl
  have hcatalog := Catalog.wellKeyed_decode hread
  have hsound := RowCache.sound_nil friendsCatalog
  obtain ⟨less, more, hless, hmore, hrel⟩ := resolveRow_narrows cx rfl hcatalog chain
    (show 1 ≤ 2 by decide) (show 2 ≤ 3 by decide) (p := {}) (q := {}) hsound hsound
  have hsome : ((runFrom (resolveRow (cx.toDepth 2) chain) {}).1.toOption.bind id).isSome =
      true := by
    decide +kernel
  cases hrel with
  | none =>
    rw [hless] at hsome
    cases hsome
  | some hnarrows => exact ⟨hcatalog, _, _, hless, hmore, hnarrows⟩

end QueryTypes
