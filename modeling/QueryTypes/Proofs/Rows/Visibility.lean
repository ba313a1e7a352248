import QueryTypes.Proofs.Conduct.Query

/-!
# What rows show

A row of an entity has the names that its projection takes and the entity shows, each of them
required. What stands under a name is a column, in which references to entities are replaced by rows
of these, a relation that was loaded, or nothing that is known. This is said without computing a row
(`IsRow`), level by level, and holds of every row that is computed (`isRow_rowOf`).

So a name that an entity hides, or does not list if it lists any, is never a property of one of its
rows, however deep the row stands in another (`IsRow.allows`).
-/

set_option autoImplicit false

namespace QueryTypes

/-! ## Rows -/

/-- A type with the references to entities replaced by rows, at the top and in the members of
unions. -/
inductive Expands (isRow : String → Ty → Prop) : Ty → Ty → Prop
  | reference {target : String} {slot : Slot} {t : Ty} (row : isRow target t) :
      Expands isRow (.mk (.object [] (some target)) slot)
        (.mk t.kind { t.slot with required := slot.required, description := slot.description })
  | union {pairs : List (Ty × Ty)} {slot : Slot} (members : ∀ e ∈ pairs, Expands isRow e.1 e.2) :
      Expands isRow (.mk (.union (pairs.map Prod.fst)) slot)
        ((Ty.union (pairs.map Prod.snd)).withRequired slot.required)
  | other {t : Ty} (no_reference : t.entityRef? = none)
      (no_union : ∀ members, t.kind ≠ .union members) :
      Expands isRow t t

/-- A property of a row holds its source, with rows inside. -/
inductive Holds (isRow : String → RelationTree → Ty → Prop) : RowSource → Ty → Prop
  | column {c : Column} {t : Ty} (expands : Expands (fun target => isRow target .empty) c.ty t) :
      Holds isRow (.column c) ((if c.nullable then t.nullable else t).withRequired true)
  | relation {r : Relation} {nested : RelationTree} {t : Ty} (row : isRow r.target nested t) :
      Holds isRow (.relation r nested) (r.loaded t)
  | unknown : Holds isRow .unknown (Ty.unknown.withRequired true)

/-- The properties of a row of an entity, with rows inside. -/
structure RowProperties (catalog : Catalog) (entity : String) (p : Projection) (tree : RelationTree)
    (isRow : String → RelationTree → Ty → Prop) (properties : Entries Ty) : Prop where
  names : ∀ name, name ∈ properties.keys ↔ Shown catalog entity p tree name
  distinct : properties.Distinct
  required : ∀ e ∈ properties, e.2.required = true
  contents : ∀ e ∈ properties, ∃ s, StandsFor catalog entity p tree e.1 s ∧ Holds isRow s e.2

/-- A type is the row that a projection shows of an entity, with relations loaded, to a depth: an
object of the entity with the properties of a row, in which rows are one level less deep and show
everything. Below the last level nothing is known. -/
def IsRow (catalog : Catalog) : Nat → String → Projection → RelationTree → Ty → Prop
  | 0, _, _, _, t => t = .unknown
  | depth + 1, entity, p, tree, t =>
    ∃ properties, t = .object properties (some entity) ∧
      RowProperties catalog entity p tree
        (fun target nested => IsRow catalog depth target .everything nested) properties

/-- A row has only names that its entity shows. -/
theorem IsRow.allows {catalog : Catalog} {depth : Nat} {entity : String} {p : Projection}
    {tree : RelationTree} {t : Ty} (h : IsRow catalog depth entity p tree t)
    {properties : Entries Ty} {origin : Option String} (ht : t.kind = .object properties origin)
    {name : String} (hname : name ∈ properties.keys) :
    (catalog.visibility entity).allows name = true := by
  cases depth with
  | zero =>
    obtain rfl : t = .unknown := h
    cases ht
  | succ depth =>
    obtain ⟨properties, rfl, hproperties⟩ := h
    cases ht
    exact ((hproperties.names name).1 hname).1

/-- A name that is shown is not hidden, and it is listed if any names are. -/
theorem Visibility.allows_iff {v : Visibility} {name : String} :
    v.allows name = true ↔
      v.hidden.contains name = false ∧
        (v.visible.isEmpty = false → v.visible.contains name = true) := by
  cases hhidden : v.hidden.contains name <;> cases hempty : v.visible.isEmpty <;>
    simp [allows, hhidden, hempty]

/-! ## Rows in closed form are rows -/

theorem expands_expanded {isRow : String → Ty → Prop} {row : String → Ty}
    (h : ∀ target, isRow target (row target)) (t : Ty) : Expands isRow t (Row.expanded row t) := by
  induction t using Ty.rec' with
  | unknown slot => exact .other rfl (by simp)
  | scalar s slot => exact .other rfl (by simp)
  | array item key shape origin slot => exact .other rfl (by simp)
  | object properties origin slot =>
    cases properties with
    | nil =>
      cases origin with
      | none => exact .other rfl (by simp)
      | some target => exact .reference (h target)
    | cons e rest => exact .other rfl (by simp)
  | union members slot ih =>
    have hpairs : ∀ e ∈ members.map fun m => (m, Row.expanded row m), Expands isRow e.1 e.2 := by
      intro e he
      obtain ⟨m, hm, rfl⟩ := List.mem_map.1 he
      exact ih m hm
    have hunion : Expands isRow (.mk (.union _) slot) _ := .union hpairs
    rw [Row.expanded, Row.expandedList_eq_map]
    simpa [Function.comp_def] using hunion

theorem holds_type {isRow : String → RelationTree → Ty → Prop} {row : String → RelationTree → Ty}
    (h : ∀ target nested, isRow target nested (row target nested)) (s : RowSource) :
    Holds isRow s (s.type row) := by
  cases s with
  | column c => exact .column (expands_expanded (fun target => h target .empty) c.ty)
  | relation r nested => exact .relation (h r.target nested)
  | unknown => exact .unknown

theorem isRow_rowOf (catalog : Catalog) (depth : Nat) (entity : String) (p : Projection)
    (tree : RelationTree) :
    IsRow catalog depth entity p tree (rowOf catalog depth entity p tree) := by
  induction depth generalizing entity p tree with
  | zero => rfl
  | succ depth ih =>
    refine ⟨_, rfl, ?_, ?_, ?_, ?_⟩
    · intro name
      rw [Entries.keys_mapValues]
      exact mem_keys_rowLayout p tree
    · exact (distinct_rowLayout catalog entity p tree).mapValues _
    · intro e he
      obtain ⟨⟨name, s⟩, hs, rfl⟩ := List.mem_map.1 he
      exact s.required_type _
    · intro e he
      obtain ⟨⟨name, s⟩, hs, rfl⟩ := List.mem_map.1 he
      have hget := (distinct_rowLayout catalog entity p tree).get?_eq_some hs
      refine ⟨s, standsFor_rowLayout hget, ?_⟩
      exact holds_type (fun target nested => ih target .everything nested) s

/-- The union of rows drops the repeated ones. -/
theorem union_rowOf (catalog : Catalog) (depth : Nat) (entity : String) (variants : List Projection)
    (tree : RelationTree) :
    Ty.union (variants.map fun v => rowOf catalog depth entity v tree) =
      .ofMembers (Ty.distinct (variants.map fun v => rowOf catalog depth entity v tree)) := by
  have hmembers : ∀ v, (rowOf catalog depth entity v tree).members =
      [rowOf catalog depth entity v tree] := by
    intro v
    cases depth with
    | zero => rfl
    | succ depth => rfl
  have hflat : (variants.map fun v => rowOf catalog depth entity v tree).flatMap Ty.members =
      variants.map fun v => rowOf catalog depth entity v tree := by
    rw [List.flatMap_map, List.map_eq_flatMap]
    simp only [hmembers]
  rw [Ty.union, hflat]

/-! ## The relations that a chain loads -/

namespace RelationTree

variable {name : String}

theorem mem_keys_change (key : String) (f : RelationTree → RelationTree)
    (es : List (String × RelationTree)) :
    name ∈ Entries.keys (change key f es) ↔ name ∈ Entries.keys es ∨ key = name := by
  induction es with
  | nil => simp [change, Entries.keys, eq_comm]
  | cons e rest ih =>
    obtain ⟨k, t⟩ := e
    by_cases hk : k = key
    · subst hk
      -- the entry is changed in place
      have hkeys : Entries.keys ((k, f t) :: rest) = Entries.keys ((k, t) :: rest) := rfl
      rw [change, if_pos rfl, hkeys, iff_self_or]
      rintro rfl
      exact List.mem_cons_self
    · have hrest : name ∈ Entries.keys ((k, t) :: change key f rest) ↔
          name = k ∨ name ∈ Entries.keys (change key f rest) := List.mem_cons
      rw [change, if_neg hk, hrest, ih, ← or_assoc]
      exact or_congr_left List.mem_cons.symm

/-- A path adds the first of its names at the top. -/
theorem mem_keys_insertPath (t : RelationTree) (path : String) :
    name ∈ Entries.keys (t.insertPath path).children ↔
      name ∈ Entries.keys t.children ∨ (pathNames path).head? = some name := by
  rw [insertPath]
  cases pathNames path with
  | nil => simp [insert]
  | cons first rest =>
    rw [insert, children, mem_keys_change]
    simp

end RelationTree

/-- The names that a call loads as relations. -/
def Step.Loads (call : Step) (name : String) : Prop :=
  call.name = "with" ∧ ∃ path ∈ call.argTypes.flatMap RelationTree.argumentPaths,
    (RelationTree.pathNames path).head? = some name

namespace Selection

/-- What a call does to a selection: it loads relations, or leaves them and selects, adds to the
selection or does nothing. -/
theorem step_cases (s : Selection) (call : Step) :
    (call.name = "with" ∧
        s.step call = { s with relations := s.relations.addArguments call.argTypes }) ∨
      (call.name ≠ "with" ∧ ∃ variants, s.step call = { s with variants } ∧
        (variants = s.variants ∨ ∃ args, variants = Projection.select args ∨
          variants = Projection.addSelect s.variants args)) := by
  rw [step]
  split
  · next h => exact .inr ⟨by simp [h], _, rfl, .inr ⟨_, .inl rfl⟩⟩
  · next h => exact .inr ⟨by simp [h], _, rfl, .inr ⟨_, .inr rfl⟩⟩
  · next h =>
    cases call.argTypes with
    | nil => exact .inr ⟨by simp [h], _, rfl, .inl rfl⟩
    | cons columns rest => exact .inr ⟨by simp [h], _, rfl, .inr ⟨_, .inl rfl⟩⟩
  · next h =>
    cases call.argTypes with
    | nil => exact .inr ⟨by simp [h], _, rfl, .inl rfl⟩
    | cons columns rest => exact .inr ⟨by simp [h], _, rfl, .inr ⟨_, .inl rfl⟩⟩
  · next h => exact .inl ⟨h, rfl⟩
  · next h => exact .inr ⟨h, _, rfl, .inl rfl⟩

theorem mem_keys_relations_step {name : String} (s : Selection) (call : Step) :
    name ∈ Entries.keys (s.step call).relations.children ↔
      name ∈ Entries.keys s.relations.children ∨ call.Loads name := by
  rcases s.step_cases call with ⟨hwith, hstep⟩ | ⟨hwith, variants, hstep, -⟩
  · rw [hstep, RelationTree.addArguments,
      foldl_collects (P := fun t => name ∈ Entries.keys (RelationTree.children t))
        RelationTree.mem_keys_insertPath, Step.Loads]
    simp [hwith]
  · simp [hstep, Step.Loads, hwith]

/-- The relations that a chain loads are those that its calls load. -/
theorem mem_keys_relations_ofSteps {name : String} (steps : List Step) :
    name ∈ Entries.keys (ofSteps steps).relations.children ↔ ∃ call ∈ steps, call.Loads name := by
  have hnil : name ∉ Entries.keys RelationTree.empty.children := List.not_mem_nil
  rw [ofSteps, foldl_collects (P := fun s => name ∈ Entries.keys (Selection.relations s).children)
    mem_keys_relations_step]
  simp [hnil]

end Selection

/-! ## The variants of a chain -/

namespace Projection

theorem choices?_ne_nil {args : List Ty} {cs : List (List String)} (h : choices? args = some cs) :
    cs ≠ [] := by
  induction args generalizing cs with
  | nil =>
    obtain rfl := Option.some.inj h
    simp
  | cons arg rest ih =>
    rw [choices?] at h
    split at h
    · cases h
    · next hfirsts =>
      obtain ⟨others, hothers, rfl⟩ := Option.map_eq_some_iff.1 h
      rw [List.isEmpty_iff] at hfirsts
      obtain ⟨first, hfirst⟩ := List.exists_mem_of_ne_nil _ hfirsts
      obtain ⟨other, hother⟩ := List.exists_mem_of_ne_nil _ (ih hothers)
      apply List.ne_nil_of_mem (a := first ++ other)
      exact List.mem_flatMap.2 ⟨first, hfirst, List.mem_map.2 ⟨other, hother, rfl⟩⟩

theorem alternatives?_ne_nil {args : List Ty} {cs : List (List String)}
    (h : alternatives? args = some cs) : cs ≠ [] := by
  obtain ⟨choices, hchoices, rfl⟩ := Option.map_eq_some_iff.1 h
  exact eraseReps_ne_nil_iff.2 (choices?_ne_nil hchoices)

theorem select_ne_nil (args : List Ty) : select args ≠ [] := by
  rw [select]
  cases h : alternatives? args with
  | none => simp
  | some alternatives => simpa using alternatives?_ne_nil h

theorem foldl_addNew_ne_nil {ps out : List Projection} (h : ps ≠ [] ∨ out ≠ []) :
    ps.foldl addNew out ≠ [] := by
  induction ps generalizing out with
  | nil => simpa using h
  | cons p rest ih =>
    apply ih
    right
    rw [addNew]
    split
    · next hmem => exact List.ne_nil_of_mem hmem
    · simp

theorem addSelect_ne_nil {variants : List Projection} (hvariants : variants ≠ []) (args : List Ty) :
    addSelect variants args ≠ [] := by
  rw [addSelect]
  cases h : alternatives? args with
  | none => simpa using hvariants
  | some alternatives =>
    apply foldl_addNew_ne_nil
    left
    obtain ⟨v, hv⟩ := List.exists_mem_of_ne_nil _ hvariants
    obtain ⟨names, hnames⟩ := List.exists_mem_of_ne_nil _ (alternatives?_ne_nil h)
    apply List.ne_nil_of_mem (a := v.extend names)
    exact List.mem_flatMap.2 ⟨v, hv, List.mem_map.2 ⟨names, hnames, rfl⟩⟩

end Projection

/-- A chain has at least one variant. -/
theorem Selection.variants_ofSteps_ne_nil (steps : List Step) : (ofSteps steps).variants ≠ [] := by
  apply List.foldlRecOn (motive := fun s : Selection => s.variants ≠ []) steps Selection.step
  · simp
  · intro s hs call _
    rcases s.step_cases call with ⟨-, hstep⟩ | ⟨-, variants, hstep, rfl | ⟨args, rfl | rfl⟩⟩
    · rw [hstep]
      exact hs
    · rw [hstep]
      exact hs
    · rw [hstep]
      exact Projection.select_ne_nil args
    · rw [hstep]
      exact Projection.addSelect_ne_nil hs args

/-! ## The row of a chain -/

/-- The calls are allowed: only the last of them may run the query, and all are declared if that is
asked for. -/
structure Step.Allowed (cx : Context) (steps : List Step) : Prop where
  finished : ∀ s ∈ steps.dropLast, isFinisher s.name = false
  declared : cx.config.verifyMethods = true → ∀ s ∈ steps, Contract.anyHas s.name = true

theorem misuse?_eq_none_iff {cx : Context} {steps : List Step} :
    misuse? cx steps = none ↔ Step.Allowed cx steps := by
  rw [misuse?]
  constructor
  · intro h
    split at h
    · cases h
    · next hfinisher =>
      refine ⟨by simpa using hfinisher, fun hverify => ?_⟩
      rw [if_pos hverify, Option.map_eq_none_iff] at h
      simpa using h
  · intro h
    have hfinisher : (steps.dropLast.find? fun s => isFinisher s.name) = none := by
      simpa using h.finished
    rw [hfinisher]
    simp only
    split
    · next hverify => simpa using h.declared hverify
    · rfl

/-- What the row of a chain shows. Under a lenient policy with some depth, a chain on an entity has
a row exactly if it is a query. The row is the union, without repetitions, of one row for each
variant of its projection, in each of which the relations are loaded that its calls name. In such a
row and in every row inside, no name is a property that the entity of that row hides, or does not
list although it lists some. -/
theorem resolveRow_shows (cx : Context) (hlenient : cx.config.strict = false)
    (hdepth : 1 ≤ cx.config.maxDepth) (chain : Chain) {entity : String}
    (hroot : chain.root = some entity) {p : Progress} (hp : p.rows.Sound cx.catalog) :
    ((∃ row, (runFrom (resolveRow cx chain) p).1 = .ok (some row)) ↔ Step.Allowed cx chain.steps) ∧
      (∀ row, (runFrom (resolveRow cx chain) p).1 = .ok (some row) →
        ∃ rows, rows ≠ [] ∧ row = .ofMembers (Ty.distinct rows) ∧
          List.Forall₂ (fun v r => IsRow cx.catalog cx.config.maxDepth entity v
              (Selection.ofSteps chain.steps).relations r)
            (Selection.ofSteps chain.steps).variants rows) ∧
      (∀ name, name ∈ Entries.keys (Selection.ofSteps chain.steps).relations.children ↔
        ∃ call ∈ chain.steps, call.Loads name) ∧
      ∀ depth entity v tree row, IsRow cx.catalog depth entity v tree row →
        ∀ properties origin, row.kind = .object properties origin →
          ∀ name ∈ Entries.keys properties,
          (cx.catalog.visibility entity).hidden.contains name = false ∧
            ((cx.catalog.visibility entity).visible.isEmpty = false →
              (cx.catalog.visibility entity).visible.contains name = true) := by
  rw [runFrom_resolveRow (Nat.one_le_iff_ne_zero.1 hdepth) hlenient chain hp, chainRow?, hroot,
    ← misuse?_eq_none_iff]
  refine ⟨?_, ?_, ?_, ?_⟩
  · cases misuse? cx chain.steps <;> simp
  · intro row hrow
    cases hmisuse : misuse? cx chain.steps with
    | some what => simp [hmisuse] at hrow
    | none =>
      simp only [hmisuse, union_rowOf, Except.ok.injEq, Option.some.injEq] at hrow
      refine ⟨_, ?_, hrow.symm, ?_⟩
      · simpa using Selection.variants_ofSteps_ne_nil chain.steps
      · rw [List.forall₂_map_right_iff, List.forall₂_same]
        intro v _
        exact isRow_rowOf cx.catalog cx.config.maxDepth entity v _
  · intro name
    exact Selection.mem_keys_relations_ofSteps chain.steps
  · intro depth entity v tree row hrow properties origin hkind name hname
    exact Visibility.allows_iff.1 (hrow.allows hkind hname)

/-- A shop. A customer hides the password and may refer to an order; an order lists what it shows
and refers to its customer. -/
def shopCatalog : Catalog where
  entities :=
    [("Customer",
        { table := some "customers"
          columns := [⟨"id", .sql "bigint", false⟩, ⟨"email", .sql "varchar", false⟩,
            ⟨"password", .sql "varchar", false⟩,
            ⟨"latest", .resolved (.union [.object [] (some "Order"), .string]), true⟩]
          hidden := .ofList ["password"]
          relations := [("orders", ⟨"Order", true⟩)] }),
      ("Order",
        { columns := [⟨"total", .sql "int", false⟩, ⟨"remark", .sql "text", false⟩,
            ⟨"customer", .resolved (.object [] (some "Customer")), false⟩]
          visible := .ofList ["total", "customer"] })]

/-- All columns of customers, their address under another name as well, and their orders. -/
def customersWithOrders : Chain where
  root := some "Customer"
  steps :=
    [⟨"select", [⟨.literalSet .string [.str "customers.*"], none⟩,
        ⟨.literalSet .string [.str "email as contact"], none⟩]⟩,
      ⟨"with", [⟨.literalSet .string [.str "orders"], none⟩]⟩, ⟨"get", []⟩]

/-- The password is not among the properties of a customer, the orders are. -/
theorem resolveRow_shows_customers :
    let cx : Context := ⟨{}, shopCatalog⟩
    ∃ row rows, (runFrom (resolveRow cx customersWithOrders) {}).1 = .ok (some row) ∧
      rows ≠ [] ∧ row = .ofMembers (Ty.distinct rows) ∧
      ∀ r ∈ rows, ∃ properties, r = .object properties (some "Customer") ∧
        "contact" ∈ Entries.keys properties ∧ "latest" ∈ Entries.keys properties ∧
        "orders" ∈ Entries.keys properties ∧ "password" ∉ Entries.keys properties := by
  intro cx
  obtain ⟨hsome, hrow, -, hhidden⟩ := resolveRow_shows cx rfl (by decide) customersWithOrders rfl
    (p := {}) (RowCache.sound_nil shopCatalog)
  obtain ⟨row, h⟩ := hsome.2 ⟨by decide, by decide⟩
  obtain ⟨rows, hne, hunion, hrows⟩ := hrow row h
  refine ⟨row, rows, h, hne, hunion, ?_⟩
  intro r hr
  obtain ⟨v, hv, hisRow⟩ := exists_of_forall₂ hrows hr
  have hvariants : (Selection.ofSteps customersWithOrders.steps).variants =
      [⟨false, [.column (some "customers") "*" none, .column none "email" (some "contact")]⟩] := by
    decide +kernel
  rw [hvariants, List.mem_singleton] at hv
  have hpassword := hhidden _ _ _ _ _ hisRow
  obtain ⟨properties, rfl, hproperties⟩ := hisRow
  refine ⟨properties, rfl, ?_, ?_, ?_, ?_⟩
  · rw [hproperties.names, hv]
    exact ⟨by decide, .inr (.inl ⟨.column none "email" (some "contact"), by simp, rfl, rfl⟩)⟩
  · rw [hproperties.names, hv]
    have hcolumn : ((shopCatalog.knownColumns "Customer").any fun c => c.name == "latest") =
        true := by
      decide +kernel
    refine ⟨by decide, .inl ⟨.inr ⟨.column (some "customers") "*" none, by simp, rfl, ?_⟩, ?_⟩⟩
    · rintro t ⟨⟩
      decide
    · simpa using hcolumn
  · rw [hproperties.names]
    exact ⟨by decide, .inr (.inr ⟨by decide +kernel, by decide⟩)⟩
  · intro hname
    exact absurd (hpassword properties _ rfl "password" hname).1 (by decide)

end QueryTypes
