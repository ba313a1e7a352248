import QueryTypes.Inference.Engine
import QueryTypes.Proofs.Rows.Inheritance
import QueryTypes.Proofs.WellFormed.Collection

/-!
# Inferred types are well-formed

If the types that an expression, its scope and the catalog hold are well-formed, then so is every
type that an inference returns (`wellFormed_inferred`): for an expression, for the row and the
result of a query chain, and for a collection method on a well-formed receiver.

An inference yields a property (`Yields`) if, from a state whose kept rows are well-formed, it ends
in such a state and every value it returns has the property. The kept rows have to be part of this:
a row that is found there is returned as it is. This is a conduct (`Conduct.wellFormedRows`), and
the engine preserves well-formed types, so the terms of expressions are regular because those of
their definitions are.
-/

set_option autoImplicit false

namespace QueryTypes

variable {cx : Context}

/-! ## Kept rows -/

/-- Every kept row is well-formed. -/
def RowCache.WellFormed (rows : RowCache) : Prop := ∀ e ∈ rows, e.2.WellFormed

section Yields

variable {α : Type}

/-- The inference keeps well-formed rows, and the values it returns have the property. -/
def Yields (x : Infer α) (P : α → Prop) : Prop :=
  ∀ p : Progress, p.rows.WellFormed →
    (runFrom x p).2.rows.WellFormed ∧ ∀ a, (runFrom x p).1 = .ok a → P a

/-- An inference that cannot fail yields a property if it does as an inference. -/
abbrev YieldsTracked (x : Tracked α) (P : α → Prop) : Prop := Yields (liftM x : Infer α) P

/-- Runs that keep well-formed rows. -/
def Conduct.wellFormedRows : Conduct where
  Sound p := p.rows.WellFormed
  Leads _ _ := True
  Fails _ := True
  refl _ := trivial
  trans _ _ := trivial

theorem Conduct.Ensures.yields {x : Infer α} {P : α → Prop}
    (h : Conduct.wellFormedRows.Ensures x P) : Yields x P :=
  fun p hp => ⟨(h p hp).1, fun _ ha => h.value hp ha⟩

end Yields

/-! ## Rows and results -/

/-- Columns that are declared by their type have a well-formed one. -/
def Catalog.WellFormed (catalog : Catalog) : Prop :=
  ∀ e ∈ catalog.entities, ∀ c ∈ e.2.columns, ∀ ty, c.type = .resolved ty → ty.WellFormed

theorem Ty.hereditary_wellFormed : Ty.Hereditary Ty.WellFormed where
  unknown := wellFormed_unknown
  scalar := .scalar
  placed := .mk
  members := by
    rintro ms slot ⟨⟩
    assumption
  union := wellFormed_union
  list ht origin := (wellFormed_list ht).withOrigin origin
  object _ hproperties origin := wellFormed_object hproperties origin

theorem wellFormed_putProperty {t value : Ty} (ht : t.WellFormed) (hvalue : value.WellFormed)
    (name : String) : (t.putProperty name value).WellFormed := by
  cases ht with
  | object origin slot hproperties =>
    exact .object origin slot (Entries.forall_mem_put hproperties name hvalue)
  | unknown slot => exact .unknown slot
  | scalar s slot => exact .scalar s slot
  | array origin slot halone hitem hkey hentries =>
    exact .array origin slot halone hitem hkey hentries
  | union slot hmembers hwf => exact .union slot hmembers hwf

section Catalogs

variable (hcatalog : cx.catalog.WellFormed)

include hcatalog

/-- Relations are loaded into a row one after the other. -/
theorem wellFormed_attachedRow {row : Ty} (hrow : row.WellFormed) (entity : String) (depth : Nat)
    (tree : RelationTree) : (attachedRow cx.catalog entity depth tree row).WellFormed := by
  rw [attachedRow]
  split
  · exact hrow
  · apply List.foldlRecOn _ _ hrow
    intro row hrow child _
    rw [loadedRow]
    split
    · next r _ =>
      -- a relation brings the row of its target, one level less deep
      have htarget :=
        Ty.hereditary_wellFormed.rowOf hcatalog (depth - 1) r.target .everything child.2
      exact wellFormed_putProperty hrow (Ty.hereditary_wellFormed.loaded htarget r) _
    · exact hrow

theorem optionalType_pluckedType? (entity : String) (arg : Ty) :
    OptionalType (pluckedType? cx entity arg) := by
  rw [pluckedType?]
  split
  · exact optionalType_none
  · apply optionalType_some
    apply Ty.wellFormed_union
    rw [List.forall_mem_map]
    intro name _
    have hrow (target : String) := Ty.hereditary_wellFormed.rowOf hcatalog (cx.config.maxDepth - 1)
      target .everything .empty
    have hcolumns := Ty.hereditary_wellFormed.knownColumns hcatalog entity
    exact (Ty.hereditary_wellFormed.refOf hrow hcolumns _ (.ofString name)).withRequired false

/-- What the last call makes of a row. -/
theorem optionalType_finished (entity : String) (last : Step) {row : Ty} (hrow : row.WellFormed) :
    OptionalType (finished cx entity last row) := by
  have hplucked (arg : Option Ty) : OptionalType (arg.bind (pluckedType? cx entity)) := by
    cases arg with
    | none => exact optionalType_none
    | some arg => exact optionalType_pluckedType? hcatalog entity arg
  rw [finished]
  cases Ending.ofMethod last.name with
  | rows => exact optionalType_some ((Ty.wellFormed_list hrow).withOrigin _)
  | pluck =>
    have hitem := Ty.wellFormed_getD (hplucked last.argTypes[0]?) Ty.wellFormed_unknown
    exact optionalType_some ((Ty.wellFormed_keyed (hplucked last.argTypes[1]?) hitem).withOrigin _)
  | rowOrNull => exact optionalType_some hrow.nullable
  | row => exact optionalType_some hrow
  | value =>
    apply optionalType_some
    cases last.argTypes[0]? with
    | none => exact Ty.wellFormed_unknown
    | some arg =>
      have hvalue := optionalType_pluckedType? hcatalog entity arg
      exact (Ty.wellFormed_getD hvalue Ty.wellFormed_unknown).nullable
  | count => exact optionalType_some (.scalar _ _)
  | test => exact optionalType_some (Ty.wellFormed_scalar _)
  | page kind => exact optionalType_some (kind.wellFormed_envelope hrow)
  | declared => exact fun t => Ty.wellFormed_declaredReturn?

theorem preserves_wellFormed : cx.Preserves Ty.WellFormed where
  unknown := Ty.wellFormed_unknown
  null := Ty.wellFormed_scalar .null
  withRequired required ht := ht.withRequired required
  union := Ty.wellFormed_union
  field name ht := ht.field name
  entry key ht := Reading.wellFormed_entry ht key
  literalArray := Reading.wellFormed_type
  view ht hview :=
    have hv := Collection.wellFormed_view? ht hview
    ⟨hv.item, hv.position⟩
  completed ht hview hanswer hu :=
    Collection.optionalType_completed ht (Collection.wellFormed_view? ht hview) _ hanswer _ _ hu
  attachedRow entity tree hrow := wellFormed_attachedRow hcatalog hrow entity _ tree
  rowOf depth entity p := Ty.hereditary_wellFormed.rowOf hcatalog depth entity p _
  finished hrow ht := optionalType_finished hcatalog _ _ hrow _ ht

theorem serves_wellFormedRows : Conduct.wellFormedRows.Serves cx Ty.WellFormed := by
  refine .of_records (preserves_wellFormed hcatalog) ?_ ?_ ?_ ?_
  · exact fun _ _ _ hp => ⟨hp, trivial⟩
  · exact fun _ _ => trivial
  · intro p entity row hp hfind
    obtain ⟨front, back, hsplit, -⟩ := List.lookup_eq_some_iff.1 hfind
    exact hp (_, row) (hsplit ▸ List.mem_append_right front List.mem_cons_self)
  · intro p entity row hp hrow
    exact ⟨List.forall_mem_append.2 ⟨hp, List.forall_mem_singleton.2 hrow⟩, trivial⟩

end Catalogs

/-! ## Expressions -/

mutual

/-- The types that an expression holds are well-formed. -/
def Expr.WellFormed : Expr → Prop
  | .typed ty => ty.WellFormed
  | .call receiver _ args => receiver.WellFormed ∧ Expr.WellFormedList args
  | .staticCall _ _ args => Expr.WellFormedList args
  | .array items => Expr.WellFormedItems items
  | .index target key => target.WellFormed ∧ key.WellFormed
  | .property target _ => target.WellFormed
  | .closure _ body => body.WellFormed
  | .branches arms => Expr.WellFormedList arms
  | .entity _ | .var _ | .literal _ | .obscure => True

/-- The types that expressions hold are well-formed. -/
def Expr.WellFormedList : List Expr → Prop
  | [] => True
  | e :: rest => e.WellFormed ∧ Expr.WellFormedList rest

/-- The types that the entries of an array literal hold are well-formed. -/
def Expr.WellFormedItems : List Item → Prop
  | [] => True
  | .positional value :: rest => value.WellFormed ∧ Expr.WellFormedItems rest
  | .keyed key value :: rest => key.WellFormed ∧ value.WellFormed ∧ Expr.WellFormedItems rest

end

theorem Expr.wellFormed_of_mem {es : List Expr} (h : Expr.WellFormedList es) :
    ∀ e ∈ es, e.WellFormed := by
  induction es with
  | nil => exact nofun
  | cons e rest ih => exact List.forall_mem_cons.2 ⟨h.1, ih h.2⟩

theorem Expr.wellFormed_of_mem_parts {items : List Item} (h : Expr.WellFormedItems items) :
    ∀ i ∈ items, ∀ e ∈ i.parts, e.WellFormed := by
  induction items with
  | nil => exact nofun
  | cons i rest ih =>
    cases i with
    | positional value => exact List.forall_mem_cons.2 ⟨by simpa [Item.parts] using h.1, ih h.2⟩
    | keyed key value =>
      exact List.forall_mem_cons.2 ⟨by simpa [Item.parts] using ⟨h.1, h.2.1⟩, ih h.2.2⟩

/-- The expressions assigned in a scope hold well-formed types. -/
def Scope.WellFormed (s : Scope) : Prop := ∀ a ∈ s, a.value.WellFormed

/-- An expression has a regular term if the definitions in reach have. -/
theorem Expr.regular_link {C : Conduct} (h : C.Serves cx Ty.WellFormed) {defs : Definitions}
    (hdefs : ∀ d ∈ defs, d.2.Regular C Ty.WellFormed cx) (e : Expr) :
    ∀ params : List String, e.WellFormed → (e.link defs params).Regular C Ty.WellFormed cx := by
  induction e using Expr.rec' with
  | entity name => exact fun _ _ => Term.regular_entity h name
  | literal value => exact fun _ _ => Term.regular_known h (Ty.wellFormed_ofJson value)
  | typed ty => exact fun _ he => Term.regular_known h he
  | obscure => exact fun _ _ => Term.regular_unknown h
  | var name =>
    intro params _
    rw [Expr.link]
    split
    · exact Term.regular_param h name
    · exact Definitions.forall_lookup hdefs (Term.regular_unknown h) name
  | call receiver method args ihr iha =>
    intro params he
    rw [Expr.link, Expr.linkList_eq_map]
    refine Term.regular_call h (ihr params he.1) method (List.forall_mem_map.2 fun a ha => ?_)
    exact iha a ha params (Expr.wellFormed_of_mem he.2 a ha)
  | staticCall entity method args iha =>
    intro params he
    rw [Expr.link, Expr.linkList_eq_map]
    refine Term.regular_call h (Term.regular_entity h entity) method
      (List.forall_mem_map.2 fun a ha => ?_)
    exact iha a ha params (Expr.wellFormed_of_mem he a ha)
  | array items ih =>
    intro params hitems
    rw [Expr.link, Expr.linkItems_eq_map]
    refine Term.regular_array h (List.forall_mem_map.2 fun i hi => ?_)
    have hparts : ∀ e ∈ i.parts, (e.link defs params).Regular C Ty.WellFormed cx := fun e he =>
      ih i hi e he params (Expr.wellFormed_of_mem_parts hitems i hi e he)
    cases i with
    | positional value => simpa [Item.link, TermItem.parts, Item.parts] using hparts
    | keyed key value => simpa [Item.link, TermItem.parts, Item.parts] using hparts
  | index target key iht ihk =>
    intro params he
    exact Term.regular_index h (iht params he.1) (ihk params he.2)
  | property target name iht =>
    intro params he
    exact Term.regular_property h (iht params he) name
  | closure own body ih =>
    intro params he
    exact Term.regular_closure h own (ih (own ++ params) he)
  | branches arms ih =>
    intro params he
    rw [Expr.link, Expr.linkList_eq_map]
    refine Term.regular_branches h (List.forall_mem_map.2 fun a ha => ?_)
    exact ih a ha params (Expr.wellFormed_of_mem he a ha)

theorem Scope.regular_definitions {C : Conduct} (h : C.Serves cx Ty.WellFormed) {s : Scope}
    (hs : s.WellFormed) : ∀ d ∈ s.definitions, d.2.Regular C Ty.WellFormed cx := by
  refine List.foldlRecOn s _
    (motive := fun defs : Definitions => ∀ d ∈ defs, d.2.Regular C Ty.WellFormed cx) nofun
    fun defs hdefs a ha => ?_
  refine List.forall_mem_cons.2 ⟨?_, hdefs⟩
  exact Expr.regular_link h hdefs a.value [] (hs a ha)

theorem Scope.regular_term {C : Conduct} (h : C.Serves cx Ty.WellFormed) {s : Scope}
    (hs : s.WellFormed) {e : Expr} (he : e.WellFormed) : (s.term e).Regular C Ty.WellFormed cx :=
  Expr.regular_link h (regular_definitions h hs) e [] he

/-! ## Inferred types -/

/-- Over a catalog whose columns have well-formed types, every inference keeps well-formed rows and
returns well-formed types: of an expression in a scope, of the row and of the result of a query, and
of a collection method on a well-formed receiver with arguments read in a scope. -/
theorem wellFormed_inferred (cx : Context) (hcatalog : cx.catalog.WellFormed) :
    (∀ (s : Scope) (e : Expr), s.WellFormed → e.WellFormed →
      Yields (infer cx s e) Ty.WellFormed) ∧
    (∀ chain : Chain, Yields (resolveRow cx chain) OptionalType) ∧
    (∀ chain : Chain, Yields (resolveResult cx chain) OptionalType) ∧
    (∀ (s : Scope) (method : String) (receiver : Ty) (args : List Expr), s.WellFormed →
      receiver.WellFormed → (∀ a ∈ args, a.WellFormed) →
      YieldsTracked
        (do resolveCollectionMethod cx.config.maxDepth method receiver (← typeArguments cx s args))
        OptionalType) := by
  have hserves := serves_wellFormedRows hcatalog
  have hgivesUp (what : Subject) : Conduct.wellFormedRows.GivesUpOn cx what :=
    fun _ => ⟨fun _ => trivial, fun _ _ _ hp => ⟨hp, trivial⟩⟩
  have hempty : Env.Holds Ty.WellFormed [] := nofun
  refine ⟨?_, ?_, ?_, ?_⟩
  · intro s e hs he
    exact ((Scope.regular_term hserves hs he).infer hempty _).yields
  · intro chain
    exact (hserves.resolveRow _ fun what _ => hgivesUp what).yields
  · intro chain
    exact (hserves.resolveResult _ fun what _ => hgivesUp what).yields
  · intro s method receiver args hs hreceiver hargs
    have hterms : ∀ t ∈ args.map s.term, t.Regular Conduct.wellFormedRows Ty.WellFormed cx :=
      List.forall_mem_map.2 fun a ha => Scope.regular_term hserves hs (hargs a ha)
    apply Conduct.Ensures.yields
    apply (Term.ensures_arguments hserves hempty hterms).bind
    intro own hown
    exact hserves.resolveCollectionMethod _ method hreceiver hown

/-- Users with a tag that may be missing, mapped to the tag or a list of tags: the items are a union
of three types, though the arms of the branch are a union themselves. -/
theorem wellFormed_inferred_tags :
    let tag : Ty := .nullable .string
    let catalog : Catalog :=
      { entities :=
          [("User", { columns := [⟨"id", .sql "int", false⟩, ⟨"tag", .resolved tag, true⟩] })] }
    let scope : Scope := [⟨"users", .call (.entity "User") "get" []⟩]
    let e : Expr := .call (.var "users") "map"
      [.closure ["u"] (.branches [.property (.var "u") "tag", .typed (.list tag), .typed tag])]
    catalog.WellFormed ∧ scope.WellFormed ∧ e.WellFormed ∧
      ∃ t, (runFrom (infer ⟨{}, catalog⟩ scope e) {}).1 = .ok t ∧ t.WellFormed ∧
        (Collection.view? 1 t).map (fun v => v.item.members.length) = some 3 := by
  intro tag catalog scope e
  have htag : tag.WellFormed := (Ty.wellFormed_scalar .string).nullable
  have hcatalog : catalog.WellFormed := by
    simp [Catalog.WellFormed, catalog, htag]
  have hscope : scope.WellFormed := by
    simp [Scope.WellFormed, scope, Expr.WellFormed, Expr.WellFormedList]
  have he : e.WellFormed := by
    simp [e, Expr.WellFormed, Expr.WellFormedList, htag, Ty.wellFormed_list]
  have hyields := (wellFormed_inferred ⟨{}, catalog⟩ hcatalog).1 scope e hscope he
  have hrun : (runFrom (infer ⟨{}, catalog⟩ scope e) {}).1.toOption.bind (fun t =>
      (Collection.view? 1 t).map fun v => v.item.members.length) = some 3 := by decide +kernel
  cases hres : (runFrom (infer ⟨{}, catalog⟩ scope e) {}).1 with
  | error err =>
    rw [hres] at hrun
    cases hrun
  | ok t =>
    rw [hres] at hrun
    exact ⟨hcatalog, hscope, he, t, rfl, (hyields {} nofun).2 t hres, hrun⟩

end QueryTypes
