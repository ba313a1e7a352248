import QueryTypes.Proofs.RowCache
import QueryTypes.Proofs.Rows.ClosedForm

/-!
# Runs of queries

What a query returns is known but for the row of a whole entity, which may have been kept: the rows
of its variants (`VariantRows`), the row of the chain (`IsChainRow`) and what the last call makes of
it (`finished`). A conduct that allows what queries record, and that says what is known of kept rows
(`Conduct.Keeps`), covers everything up to the result of a chain (`Conduct.Keeps.resolveResult`). On
sound kept rows a chain has its row in closed form (`runFrom_resolveRow`).

A chain is objected to (`Chain.Objection`) if it does not start at an entity, has no call, calls
something after the query has run, or calls what it should not. A query proper (`Chain.IsQuery`) is
objected to for its methods alone.
-/

set_option autoImplicit false

namespace QueryTypes

/-! ## Queries -/

/-- The chain is a query: it starts at an entity, it has a call, and none of its calls but the last
runs the query. -/
structure Chain.IsQuery (c : Chain) : Prop where
  root : c.root.isSome = true
  steps : c.steps ≠ []
  early : ∀ s ∈ c.steps.dropLast, isFinisher s.name = false

theorem splitAtFinisher_ne_nil {steps : List Step} (h : steps ≠ []) :
    (splitAtFinisher steps).1 ≠ [] := by
  cases steps with
  | nil => exact absurd rfl h
  | cons first rest =>
    rw [splitAtFinisher]
    split
    · exact List.cons_ne_nil _ _
    · exact List.cons_ne_nil _ _

/-- Up to the cut only the last call may run the query. -/
theorem isFinisher_of_mem_dropLast {steps : List Step} {s : Step}
    (hs : s ∈ (splitAtFinisher steps).1.dropLast) : isFinisher s.name = false := by
  induction steps with
  | nil => exact absurd hs List.not_mem_nil
  | cons first rest ih =>
    rw [splitAtFinisher] at hs
    cases hfirst : isFinisher first.name with
    | true =>
      rw [hfirst] at hs
      exact absurd hs List.not_mem_nil
    | false =>
      rw [hfirst, if_neg Bool.false_ne_true] at hs
      dsimp only at hs
      -- the first call is the last one if no other is left of the query
      cases hquery : (splitAtFinisher rest).1 with
      | nil =>
        rw [hquery] at hs
        exact absurd hs List.not_mem_nil
      | cons next more =>
        rw [hquery] at hs ih
        rcases List.mem_cons.1 hs with rfl | hs
        · exact hfirst
        · exact ih hs

/-- The query of a chain that starts at an entity and has a call. -/
theorem isQuery_splitAtFinisher {c : Chain} (hroot : c.root.isSome = true) (hsteps : c.steps ≠ []) :
    Chain.IsQuery { c with steps := (splitAtFinisher c.steps).1 } where
  root := hroot
  steps := splitAtFinisher_ne_nil hsteps
  early _ hs := isFinisher_of_mem_dropLast hs

/-- What may be said against a chain when its result is asked for. -/
inductive Chain.Objection (cx : Context) (c : Chain) : Subject → Prop
  | noRoot : c.root = none → Objection cx c .noRoot
  | bareEntity : c.steps = [] → Objection cx c .bareEntity
  | misuse {what : Subject} : misuse? cx c.steps = some what → Objection cx c what
  | builderMethod (name : String) : Objection cx c (.builderMethod name)

/-- Only its methods can be said against a query. -/
theorem Chain.IsQuery.objection_cases {cx : Context} {c : Chain} (h : c.IsQuery) {what : Subject}
    (hwhat : c.Objection cx what) :
    (∃ name, what = .notBuilderMethod name) ∨ ∃ name, what = .builderMethod name := by
  cases hwhat with
  | noRoot hroot =>
    have hsome := h.root
    rw [hroot] at hsome
    cases hsome
  | bareEntity hsteps => exact absurd hsteps h.steps
  | builderMethod name => exact .inr ⟨name, rfl⟩
  | misuse hmisuse =>
    -- no call runs the query too early, so the misuse is a method that is not declared
    have hearly : (c.steps.dropLast.find? fun s => isFinisher s.name) = none := by
      rw [List.find?_eq_none]
      intro s hs
      rw [h.early s hs]
      exact Bool.false_ne_true
    rw [misuse?, hearly] at hmisuse
    dsimp only at hmisuse
    split at hmisuse
    · obtain ⟨s, -, rfl⟩ := Option.map_eq_some_iff.1 hmisuse
      exact .inl ⟨s.name, rfl⟩
    · cases hmisuse

/-! ## Results in closed form -/

section ClosedForm

variable (cx : Context) (K : String → Ty → Prop) (entity : String)

/-- The rows of the variants of a projection. The row of a whole entity may be a kept one, of which
something else is known. -/
inductive VariantRows : List Projection → List Ty → Prop
  | whole {row : Ty} : K entity row → VariantRows [.everything] [row]
  | computed {variants : List Projection} : variants ≠ [.everything] → VariantRows variants
      (variants.map fun v => rowOf cx.catalog (cx.config.maxDepth - 1 + 1) entity v .empty)

/-- What holds of kept rows and of computed ones holds of the rows of variants. -/
theorem VariantRows.forall_mem {cx : Context} {K : String → Ty → Prop} {entity : String}
    {variants : List Projection} {rows : List Ty} (h : VariantRows cx K entity variants rows)
    {T : Ty → Prop} (hkept : ∀ row, K entity row → T row)
    (hcomputed : ∀ v, T (rowOf cx.catalog (cx.config.maxDepth - 1 + 1) entity v .empty)) :
    ∀ row ∈ rows, T row := by
  cases h with
  | whole hrow => exact List.forall_mem_singleton.2 (hkept _ hrow)
  | computed _ => exact List.forall_mem_map.2 fun v _ => hcomputed v

/-- The row of a chain, if there is one: a union of the rows of its variants, with its relations
loaded. -/
inductive IsChainRow (chain : Chain) : Option Ty → Prop
  | none : (∀ entity, chain.root = some entity → misuse? cx chain.steps ≠ none) →
      IsChainRow chain none
  | some {entity : String} {rows : List Ty} : chain.root = some entity →
      misuse? cx chain.steps = .none →
      VariantRows cx K entity (Selection.ofSteps chain.steps).variants rows →
      IsChainRow chain (some (.union (rows.map (attachedRow cx.catalog entity cx.config.maxDepth
        (Selection.ofSteps chain.steps).relations))))

/-- The type of the columns that an argument names. -/
def pluckedType? (arg : Ty) : Option Ty :=
  match arg.alternatives.flatten with
  | [] => none
  | names => some (.union (names.map fun name =>
      (Row.refOf (fun e => rowOf cx.catalog (cx.config.maxDepth - 1) e .everything .empty)
        (cx.catalog.knownColumns entity) (cx.catalog.table? entity)
        (.ofString name)).withRequired false))

/-- What the last call of a chain makes of its row. -/
def finished (last : Step) (row : Ty) : Option Ty :=
  match Ending.ofMethod last.name with
  | .rows => some ((Ty.list row).withOrigin (some collectionOrigin))
  | .pluck =>
    let value := last.argTypes[0]?.bind (pluckedType? cx entity)
    let key := last.argTypes[1]?.bind (pluckedType? cx entity)
    some ((Ty.keyed key (value.getD .unknown)).withOrigin (some collectionOrigin))
  | .rowOrNull => some row.nullable
  | .row => some row
  | .value =>
    some (last.argTypes[0]?.elim .unknown fun arg =>
      ((pluckedType? cx entity arg).getD .unknown).nullable)
  | .count => some (.integerFrom 0)
  | .test => some .boolean
  | .page kind => some (kind.envelope row)
  | .declared => Contract.declaredReturn? last.name

end ClosedForm

/-! ## Runs -/

namespace Conduct

variable {C : Conduct} {cx : Context}

/-- What rows and columns need may be recorded. -/
structure ReadsRows (C : Conduct) (cx : Context) : Prop where
  columns : C.ReadsColumns cx
  relation : ∀ name, C.Records (.unknownRelation name)
  literal : C.Records .pluckNotLiteral

/-- Kept rows have a property that the computed ones have, and these may be kept. -/
structure Keeps (C : Conduct) (cx : Context) (K : String → Ty → Prop) : Prop extends
    C.ReadsRows cx where
  computed : ∀ entity, K entity (rowOf cx.catalog cx.config.maxDepth entity .everything .empty)
  found : ∀ {p : Progress} {entity : String} {row : Ty}, C.Sound p →
    p.rows.find? (cx.rowKey entity) = some row → K entity row
  kept : ∀ {p : Progress} {row : Ty} (entity : String), C.Sound p →
    row = rowOf cx.catalog cx.config.maxDepth entity .everything .empty →
    C.Sound (p.kept (cx.rowKey entity) row) ∧ C.Leads p (p.kept (cx.rowKey entity) row)

namespace ReadsRows

variable (h : C.ReadsRows cx) (entity : String)

include h

theorem pluckedColumns (arg : Ty) :
    C.Ensures (pluckedColumns cx entity (cx.catalog.knownColumns entity) arg)
      (· = pluckedType? cx entity arg) := by
  rw [QueryTypes.pluckedColumns, pluckedType?]
  cases arg.alternatives.flatten with
  | nil =>
    apply Ensures.bind (.note h.literal (some entity))
    exact fun _ _ => .pure rfl
  | cons first rest =>
    refine Ensures.bind_eq (.mapM_eq _ fun name _ => ?_) (.pure rfl)
    exact (Row.ensures_refType (h.columns.rowAt _) _ _ _).bind_eq (.pure rfl)

theorem pluckedArgument (arg : Option Ty) :
    C.Ensures (pluckedArgument cx entity (cx.catalog.knownColumns entity) arg)
      (· = arg.bind (pluckedType? cx entity)) := by
  cases arg with
  | none => exact .pure rfl
  | some arg => exact h.pluckedColumns entity arg

theorem finish (last : Step) (row : Ty)
    (hmethod : C.GivesUpOn cx (.builderMethod last.name)) :
    C.Ensures (finish cx entity last row) (· = finished cx entity last row) := by
  rw [QueryTypes.finish, finished]
  cases Ending.ofMethod last.name with
  | pluck =>
    apply (h.columns.catalogColumns entity).bind_eq
    apply (h.pluckedArgument entity _).bind_eq
    exact (h.pluckedArgument entity _).bind_eq (.pure rfl)
  | value =>
    apply (h.columns.catalogColumns entity).bind_eq
    cases last.argTypes[0]? with
    | none => exact .pure rfl
    | some arg => exact (h.pluckedColumns entity arg).bind_eq (.pure rfl)
  | declared =>
    cases Contract.declaredReturn? last.name with
    | none => exact .unresolved hmethod (some entity)
    | some t => exact .pure rfl
  | rows | rowOrNull | row | count | test | page => exact .pure rfl

end ReadsRows

namespace Keeps

variable {K : String → Ty → Prop} (h : C.Keeps cx K)

include h

/-- A row that is found has the property of kept rows, and one that is computed is kept. -/
theorem entityRow (entity : String) : C.Ensures (entityRow cx entity) (K entity) := by
  by_cases hdepth : cx.config.maxDepth = 0
  · rw [entityRow_zero cx hdepth]
    have hrow := h.computed entity
    rw [hdepth] at hrow
    exact .pure hrow
  · have hcompute : C.Ensures (computeRow cx entity) (K entity) := by
      apply (h.columns.rowAt _ entity).bind
      rintro row rfl
      -- the row is kept in whatever state its computation ends
      refine Ensures.bind (P := fun _ => True) ?_ fun _ _ => .pure (h.computed entity)
      intro p hp
      obtain ⟨hsound, hleads⟩ := h.kept entity hp rfl
      exact ⟨hsound, hleads, trivial⟩
    intro p hp
    rw [runFrom_entityRow cx hdepth]
    cases hfind : p.rows.find? (cx.rowKey entity) with
    | none => exact hcompute p hp
    | some row => exact ⟨hp, C.refl p, h.found hp hfind⟩

theorem projectedRows (entity : String) (variants : List Projection) :
    C.Ensures (projectedRows cx entity variants) (VariantRows cx K entity variants) := by
  rw [QueryTypes.projectedRows]
  split
  · next hvariants =>
    subst hvariants
    apply (h.entityRow entity).bind
    intro row hrow
    exact .pure (.whole hrow)
  · next hvariants =>
    apply (h.columns.catalogColumns entity).bind_eq
    apply (Ensures.mapM_eq _ fun v _ => h.columns.project _ entity v).mono
    rintro _ rfl
    exact .computed hvariants

theorem resolveRow (chain : Chain)
    (hchain : ∀ what, chain.Objection cx what → C.GivesUpOn cx what) :
    C.Ensures (resolveRow cx chain) (IsChainRow cx K chain) := by
  rw [QueryTypes.resolveRow]
  cases hroot : chain.root with
  | none =>
    apply (Ensures.unresolved (hchain _ (.noRoot hroot)) none).mono
    rintro _ rfl
    refine .none fun entity hentity => ?_
    cases hroot.symm.trans hentity
  | some entity =>
    cases hmisuse : misuse? cx chain.steps with
    | some what =>
      apply (Ensures.unresolved (hchain _ (.misuse hmisuse)) (some entity)).mono
      rintro _ rfl
      refine .none fun _ _ hnone => ?_
      cases hmisuse.symm.trans hnone
    | none =>
      apply (h.projectedRows entity _).bind
      intro rows hrows
      have hattach := Ensures.mapM_eq rows fun row _ =>
        h.columns.attachRelations h.relation cx.config.maxDepth entity
          (Selection.ofSteps chain.steps).relations row
      exact hattach.bind_eq (.pure (.some hroot hmisuse hrows))

/-- The result of a chain is what its last call makes of its row. -/
theorem resolveResult (chain : Chain)
    (hchain : ∀ what, chain.Objection cx what → C.GivesUpOn cx what) :
    C.Ensures (resolveResult cx chain) fun result => ∀ t, result = some t →
      ∃ last row, IsChainRow cx K chain (some row) ∧
        finished cx (chain.root.getD "") last row = some t := by
  rw [QueryTypes.resolveResult]
  cases hlast : chain.steps.getLast? with
  | none =>
    have hbare := hchain _ (.bareEntity (List.getLast?_eq_none_iff.1 hlast))
    apply (Ensures.unresolved hbare chain.root).mono
    rintro _ rfl t ⟨⟩
  | some last =>
    apply (h.resolveRow chain hchain).bind
    intro row hrow
    cases row with
    | none =>
      apply Ensures.pure
      rintro t ⟨⟩
    | some row =>
      apply (h.finish _ last row (hchain _ (.builderMethod last.name))).mono
      rintro _ rfl t ht
      exact ⟨last, row, hrow, ht⟩

end Keeps

/-! ## Kept rows that are computed -/

/-- Runs on kept rows that are the computed ones. -/
def computedRows (cx : Context) (Q : InferError → Prop) : Conduct where
  Sound p := ∀ entity row, p.rows.find? (cx.rowKey entity) = some row →
    row = rowOf cx.catalog cx.config.maxDepth entity .everything .empty
  Leads _ _ := True
  Fails := Q
  refl _ := trivial
  trans _ _ := trivial

theorem records_computedRows (cx : Context) (Q : InferError → Prop) (cause : Cause) :
    (computedRows cx Q).Records cause := fun _ _ hp => ⟨hp, trivial⟩

theorem keeps_computedRows {Q : InferError → Prop} (h : (computedRows cx Q).ReadsColumns cx) :
    (computedRows cx Q).Keeps cx fun entity row =>
      row = rowOf cx.catalog cx.config.maxDepth entity .everything .empty where
  columns := h
  relation name := records_computedRows cx Q _
  literal := records_computedRows cx Q _
  computed _ := rfl
  found hp hfind := hp _ _ hfind
  kept := by
    intro p row entity hp hrow
    refine ⟨?_, trivial⟩
    intro entity' row' hfind
    have hfind : RowCache.find? (p.rows ++ [(cx.rowKey entity, row)]) (cx.rowKey entity') =
        some row' := hfind
    -- what is found was kept before, or it is the row that is kept now
    rw [RowCache.find?_kept, Option.or_eq_some_iff] at hfind
    rcases hfind with hold | ⟨-, hnew⟩
    · exact hp entity' row' hold
    · obtain ⟨hkey, ⟨⟩⟩ := Option.ite_none_right_eq_some.1 hnew
      injection hkey with hentity
      rw [hentity, hrow]

/-- If failures do not matter all columns may be given up. -/
theorem readsColumns_computedRows (cx : Context) :
    (computedRows cx fun _ => True).ReadsColumns cx :=
  fun _ _ _ => ⟨fun _ => trivial, fun _ => records_computedRows cx _ _⟩

/-- Under a lenient policy there are rows in any case. -/
theorem readsColumns_of_lenient (hlenient : cx.config.strict = false) (Q : InferError → Prop) :
    (computedRows cx Q).ReadsColumns cx :=
  fun _ _ _ => .of_lenient hlenient _ (records_computedRows cx Q _)

end Conduct

/-- A row that is computed from nothing is the one in closed form. -/
theorem eq_rowOf_of_computedRow {catalog : Catalog} {config : Config} {entity : String} {row : Ty}
    (h : computedRow catalog config entity = .ok row) :
    row = rowOf catalog config.maxDepth entity .everything .empty :=
  eq_rowOf_of_rowAt_ok h

theorem RowCache.Sound.computedRows {cx : Context} {p : Progress} (h : p.rows.Sound cx.catalog)
    (Q : InferError → Prop) : (Conduct.computedRows cx Q).Sound p :=
  fun entity row hfind => eq_rowOf_of_computedRow (h cx.config entity row hfind)

/-- The row of a chain: for a query on an entity, the union of the rows that its variants show, with
its relations loaded. -/
def chainRow? (cx : Context) (chain : Chain) : Option Ty :=
  match chain.root, misuse? cx chain.steps with
  | some entity, none =>
    some (.union ((Selection.ofSteps chain.steps).variants.map fun v =>
      rowOf cx.catalog cx.config.maxDepth entity v (Selection.ofSteps chain.steps).relations))
  | _, _ => none

section Rows

variable {cx : Context} (hdepth : cx.config.maxDepth ≠ 0)

include hdepth

theorem VariantRows.eq_map {entity : String} {variants : List Projection} {rows : List Ty}
    (h : VariantRows cx (fun entity row =>
      row = rowOf cx.catalog cx.config.maxDepth entity .everything .empty) entity variants rows) :
    rows = variants.map fun v => rowOf cx.catalog cx.config.maxDepth entity v .empty := by
  cases h with
  | whole hrow =>
    rw [hrow]
    rfl
  | computed _ => rw [Nat.sub_one_add_one hdepth]

theorem IsChainRow.eq_chainRow? {chain : Chain} {row : Option Ty}
    (h : IsChainRow cx (fun entity row =>
      row = rowOf cx.catalog cx.config.maxDepth entity .everything .empty) chain row) :
    row = chainRow? cx chain := by
  rw [chainRow?]
  cases h with
  | none hmisuse =>
    cases hroot : chain.root with
    | none => rfl
    | some entity =>
      cases hchain : misuse? cx chain.steps with
      | none => exact absurd hchain (hmisuse entity hroot)
      | some what => rfl
  | some hroot hmisuse hrows =>
    rw [hroot, hmisuse, hrows.eq_map hdepth, List.map_map]
    refine congrArg (fun rows => Option.some (Ty.union rows)) (List.map_congr_left fun v _ => ?_)
    exact attachedRow_rowOf cx.catalog _ _ v _

/-- Under any policy, a chain that has a row on sound kept rows has this one. -/
theorem eq_chainRow?_of_ok {chain : Chain} {p : Progress} (hp : p.rows.Sound cx.catalog)
    {row : Option Ty} (h : (runFrom (resolveRow cx chain) p).1 = .ok row) :
    row = chainRow? cx chain := by
  have hkeeps := Conduct.keeps_computedRows (Conduct.readsColumns_computedRows cx)
  have hensures := hkeeps.resolveRow chain fun what _ entity =>
    ⟨fun _ => trivial, fun _ => Conduct.records_computedRows cx _ _⟩
  exact (hensures.value (hp.computedRows _) h).eq_chainRow? hdepth

/-- The row of a chain depends on kept rows only if these are not sound. -/
theorem runFrom_resolveRow (hlenient : cx.config.strict = false) (chain : Chain) {p : Progress}
    (hp : p.rows.Sound cx.catalog) :
    (runFrom (resolveRow cx chain) p).1 = .ok (chainRow? cx chain) := by
  have hkeeps := Conduct.keeps_computedRows
    (Conduct.readsColumns_of_lenient hlenient fun _ => False)
  have hensures := hkeeps.resolveRow chain fun what _ entity =>
    .of_lenient hlenient _ (Conduct.records_computedRows cx _ _)
  obtain ⟨row, hrow, hchain⟩ := hensures.exists_value (fun _ => id) (hp.computedRows _)
  rw [hrow, hchain.eq_chainRow? hdepth]

end Rows

end QueryTypes
