import QueryTypes.Proofs.Conclusions
import QueryTypes.Proofs.Equality
import QueryTypes.Proofs.Projections.Thinning
import QueryTypes.Proofs.Rows.Inheritance

/-!
# Variants of a selection

Columns that are selected and columns that are added to them give the variants of the joint
selection, each of them once (`Projection.addSelect_select`). So the variants of the two ways to say
it differ by thinning only. Later calls keep it so or make the variants equal
(`Selection.Agrees.step`), and the row of the query does not show the difference
(`exists_concludes_row`): the types in a catalog that is read from a document equal themselves
(`Catalog.steady_decode`), and so do the rows of its entities.
-/

set_option autoImplicit false

namespace QueryTypes

/-! ## Joint selections -/

theorem Ty.continueEach_nil_left (rests : List (List String)) :
    continueEach [[]] rests = rests := by
  simp [continueEach]

theorem Ty.continueEach_nil_right (firsts : List (List String)) :
    continueEach firsts [[]] = firsts := by
  simp [continueEach]

theorem Ty.continueEach_assoc (xs ys zs : List (List String)) :
    continueEach xs (continueEach ys zs) = continueEach (continueEach xs ys) zs := by
  simp [continueEach, List.flatMap_assoc, List.map_flatMap, List.flatMap_map, Function.comp_def]

namespace Projection

theorem choices?_append {as bs : List Ty} {xs ys : List (List String)} (has : choices? as = some xs)
    (hbs : choices? bs = some ys) : choices? (as ++ bs) = some (Ty.continueEach xs ys) := by
  induction as generalizing xs with
  | nil =>
    obtain rfl := Option.some.inj has
    rw [List.nil_append, hbs, Ty.continueEach_nil_left]
  | cons a rest ih =>
    rw [choices?] at has
    rw [List.cons_append, choices?]
    split at has
    · cases has
    · next hfirsts =>
      obtain ⟨others, hothers, rfl⟩ := Option.map_eq_some_iff.1 has
      rw [if_neg hfirsts, ih hothers, Option.map_some, Ty.continueEach_assoc]

theorem exists_choices? {args : List Ty} (h : ∀ a ∈ args, a.alternatives ≠ []) :
    ∃ xs, choices? args = some xs := by
  induction args with
  | nil => exact ⟨_, rfl⟩
  | cons a rest ih =>
    rw [List.forall_mem_cons] at h
    obtain ⟨others, hothers⟩ := ih h.2
    have hfirsts : ¬a.alternatives.isEmpty = true := by
      rw [List.isEmpty_iff]
      exact h.1
    rw [choices?, if_neg hfirsts, hothers]
    exact ⟨_, rfl⟩

/-- The projection with these columns alone. -/
def listed (names : List String) : Projection := ⟨false, names.map ColumnRef.ofString⟩

theorem ofNames_of_ne_nil {names : List String} (h : names ≠ []) :
    ofNames names = listed names := by
  rw [ofNames, if_neg, listed]
  rwa [List.isEmpty_iff]

theorem extend_listed (names more : List String) :
    (listed names).extend more = listed (names ++ more) := by
  rw [listed, listed, extend, List.map_append]

/-- Where every choice names a column, the variants list the columns of the choices. -/
theorem select_of_choices? {args : List Ty} {xs : List (List String)} (h : choices? args = some xs)
    (hxs : [] ∉ xs) : select args = xs.eraseReps.map listed := by
  have halternatives : alternatives? args = some xs.eraseReps := by
    rw [alternatives?, h, Option.map_some]
  rw [select, halternatives]
  apply List.map_congr_left
  intro names hnames
  apply ofNames_of_ne_nil
  rintro rfl
  exact hxs ((thins_eraseReps xs).mem_iff.1 hnames)

section Joint

variable {as bs : List Ty} {xs ys : List (List String)} (has : choices? as = some xs)
  (hbs : choices? bs = some ys) (hxs : [] ∉ xs)
include has hbs hxs

omit has hbs in
theorem nil_not_mem_continueEach : [] ∉ Ty.continueEach xs ys := by
  intro hmem
  obtain ⟨first, hfirst, hrest⟩ := List.mem_flatMap.1 hmem
  obtain ⟨rest, -, happend⟩ := List.mem_map.1 hrest
  rw [(List.append_eq_nil_iff.1 happend).1] at hfirst
  exact hxs hfirst

/-- A selection with columns added to it has the variants of the joint selection, each once. -/
theorem addSelect_select : addSelect (select as) bs = (select (as ++ bs)).foldl addNew [] := by
  have halternatives : alternatives? bs = some ys.eraseReps := by
    rw [alternatives?, hbs, Option.map_some]
  rw [addSelect, halternatives, select_of_choices? has hxs,
    select_of_choices? (choices?_append has hbs) (nil_not_mem_continueEach hxs)]
  -- both are thinned from the variants of all combinations
  let all : List Projection := xs.flatMap fun first => ys.map fun more => listed (first ++ more)
  have hadded : Thins all ((xs.eraseReps.map listed).flatMap fun v =>
      ys.eraseReps.map v.extend) := by
    rw [List.flatMap_map]
    apply (thins_eraseReps xs).flatMap
    intro first
    have hextend : (listed first).extend = fun more => listed (first ++ more) := by
      funext more
      exact extend_listed first more
    rw [hextend]
    exact (thins_eraseReps ys).map _
  have hjoint : Thins all ((Ty.continueEach xs ys).eraseReps.map listed) := by
    have hall : all = (Ty.continueEach xs ys).map listed := by
      rw [Ty.continueEach, List.map_flatMap]
      simp only [List.map_map, Function.comp_def]
      rfl
    rw [hall]
    exact (thins_eraseReps _).map _
  exact hadded.foldl_addNew.symm.trans hjoint.foldl_addNew

/-- Every variant of the joint selection lists columns. -/
theorem columns_ne_nil_of_mem_select : ∀ v ∈ select (as ++ bs), v.columns ≠ [] := by
  rw [select_of_choices? (choices?_append has hbs) (nil_not_mem_continueEach hxs)]
  intro v hv
  obtain ⟨names, hnames, rfl⟩ := List.mem_map.1 hv
  intro hnil
  have hmem := (thins_eraseReps _).mem_iff.1 hnames
  rw [List.map_eq_nil_iff.1 hnil] at hmem
  exact nil_not_mem_continueEach hxs hmem

end Joint

end Projection

/-! ## Selections -/

namespace Selection

/-- The same relations are loaded. The variants are the same as well, or they are thinned from those
of the second selection, which all list columns. -/
structure Agrees (s t : Selection) : Prop where
  relations : s.relations = t.relations
  variants : s.variants = t.variants ∨
    (Thins t.variants s.variants ∧ ∀ v ∈ t.variants, v.columns ≠ [])

/-- A call sets the variants, adds columns to all of them, loads relations, or leaves a selection as
it is, whatever the selection. -/
theorem step_uniform (call : Step) :
    (∃ variants, ∀ s : Selection, s.step call = { s with variants }) ∨
      (∃ args, ∀ s : Selection,
        s.step call = { s with variants := Projection.addSelect s.variants args }) ∨
      (∃ args, ∀ s : Selection,
        s.step call = { s with relations := s.relations.addArguments args }) ∨
      ∀ s : Selection, s.step call = s := by
  obtain ⟨name, args⟩ := call
  by_cases hselect : name = "select"
  · subst hselect
    exact .inl ⟨_, fun s => rfl⟩
  by_cases hadd : name = "addSelect"
  · subst hadd
    exact .inr (.inl ⟨_, fun s => rfl⟩)
  by_cases hwith : name = "with"
  · subst hwith
    exact .inr (.inr (.inl ⟨_, fun s => rfl⟩))
  by_cases hrun : name = "get" ∨ name = "first"
  · cases args with
    | nil => rcases hrun with rfl | rfl <;> exact .inr (.inr (.inr fun s => rfl))
    | cons columns rest => rcases hrun with rfl | rfl <;> exact .inl ⟨_, fun s => rfl⟩
  · rw [not_or] at hrun
    refine .inr (.inr (.inr fun s => ?_))
    rw [step]
    split
    · next heq => exact absurd heq hselect
    · next heq => exact absurd heq hadd
    · next heq => exact absurd heq hrun.1
    · next heq => exact absurd heq hrun.2
    · next heq => exact absurd heq hwith
    · rfl

theorem Agrees.step {s t : Selection} (h : s.Agrees t) (call : Step) :
    (s.step call).Agrees (t.step call) := by
  rcases step_uniform call with ⟨variants, hstep⟩ | ⟨args, hstep⟩ | ⟨args, hstep⟩ | hstep
  · rw [hstep, hstep]
    exact ⟨h.relations, .inl rfl⟩
  · rw [hstep, hstep]
    refine ⟨h.relations, ?_⟩
    rcases h.variants with heq | ⟨hthins, hcolumns⟩
    · exact .inl (by rw [heq])
    · show Projection.addSelect _ _ = Projection.addSelect _ _ ∨ _
      rw [Projection.addSelect, Projection.addSelect]
      cases Projection.alternatives? args with
      | some alternatives =>
        -- added columns leave each variant once, so that none is left to thin
        left
        exact (hthins.flatMap fun v => .refl _ _).foldl_addNew.symm
      | none =>
        right
        refine ⟨hthins.map _, ?_⟩
        intro v hv
        obtain ⟨w, hw, rfl⟩ := List.mem_map.1 hv
        exact hcolumns w hw
  · rw [hstep, hstep]
    refine ⟨?_, h.variants⟩
    show RelationTree.addArguments _ _ = RelationTree.addArguments _ _
    rw [h.relations]
  · rw [hstep, hstep]
    exact h

theorem Agrees.foldl {s t : Selection} (h : s.Agrees t) (calls : List Step) :
    (calls.foldl Selection.step s).Agrees (calls.foldl Selection.step t) := by
  induction calls generalizing s t with
  | nil => exact h
  | cons call rest ih => exact ih (h.step call)

/-- Selecting and adding columns agrees with selecting them jointly. -/
theorem agrees_select_addSelect (s : Selection) {as bs : List Argument}
    (hknown : ∀ a ∈ as ++ bs, a.ty.alternatives ≠ [])
    (hnames : ∀ alternatives, Projection.alternatives? (as.map Argument.ty) = some alternatives →
      [] ∉ alternatives) :
    ((s.step ⟨"select", as⟩).step ⟨"addSelect", bs⟩).Agrees (s.step ⟨"select", as ++ bs⟩) := by
  rw [List.forall_mem_append, ← List.forall_mem_map (f := Argument.ty) (P := (·.alternatives ≠ [])),
    ← List.forall_mem_map (f := Argument.ty) (P := (·.alternatives ≠ []))] at hknown
  obtain ⟨xs, hxs⟩ := Projection.exists_choices? hknown.1
  obtain ⟨ys, hys⟩ := Projection.exists_choices? hknown.2
  have hnil : [] ∉ xs := by
    rw [← (thins_eraseReps xs).mem_iff]
    apply hnames
    rw [Projection.alternatives?, hxs, Option.map_some]
  refine ⟨rfl, .inr ?_⟩
  show Thins (Projection.select ((as ++ bs).map Argument.ty)) (Projection.addSelect
    (Projection.select (as.map Argument.ty)) (bs.map Argument.ty)) ∧
      ∀ v ∈ Projection.select ((as ++ bs).map Argument.ty), v.columns ≠ []
  rw [List.map_append, Projection.addSelect_select hxs hys hnil]
  exact ⟨thins_foldl_addNew _, Projection.columns_ne_nil_of_mem_select hxs hys hnil⟩

end Selection

/-! ## Rows -/

/-- Columns that are declared by their type have a steady one. -/
def Catalog.Steady (catalog : Catalog) : Prop :=
  ∀ e ∈ catalog.entities, ∀ c ∈ e.2.columns, ∀ ty, c.type = .resolved ty → ty.Steady

/-- Every catalog that is read is steady. -/
theorem Catalog.steady_decode {j : Json} {catalog : Catalog} (h : Catalog.decode j = .ok catalog) :
    catalog.Steady := Catalog.decode_of_composed Ty.composed_steady h

theorem Ty.hereditary_steady : Ty.Hereditary Ty.Steady where
  unknown := steady_unknown
  scalar := steady_scalar
  placed := .mk
  members := steady_members.1
  union := steady_union
  list ht origin := steady_array origin _ (fun _ hitem => Option.some.inj hitem ▸ ht) nofun nofun
  object hdistinct hproperties origin := steady_object origin _ ⟨hdistinct, hproperties⟩

/-- The union of the rows of a selection. -/
def Selection.row (cx : Context) (entity : String) (s : Selection) : Infer (Option Ty) := do
  let rows ← projectedRows cx entity s.variants
  let rows ← rows.mapM (attachRelations cx entity cx.config.maxDepth s.relations)
  return some (.union rows)

theorem resolveRow_eq_row {cx : Context} {entity : String} {steps : List Step}
    (h : misuse? cx steps = none) :
    resolveRow cx ⟨some entity, steps⟩ = (Selection.ofSteps steps).row cx entity := by
  rw [resolveRow, h]
  rfl

section Rows

variable {cx : Context} {p : Progress}

/-- Inferences for the elements of a list, and for those of the thinned list. -/
theorem exists_concludes_mapM {α β : Type} {f : α → Infer β} {xs ys : List α} (h : Thins xs ys)
    (hf : ∀ a, Concludes cx.catalog (p.rows.answer cx.catalog) (f a) (runFrom (f a) p).1) :
    (∃ us vs, Concludes cx.catalog (p.rows.answer cx.catalog) (xs.mapM f) (.ok us) ∧
        Concludes cx.catalog (p.rows.answer cx.catalog) (ys.mapM f) (.ok vs) ∧ Thins us vs ∧
        ∀ u ∈ us, ∃ a ∈ xs, (runFrom (f a) p).1 = .ok u) ∨
      ∃ e, Concludes cx.catalog (p.rows.answer cx.catalog) (xs.mapM f) (.error e) ∧
        Concludes cx.catalog (p.rows.answer cx.catalog) (ys.mapM f) (.error e) := by
  have hxs := Concludes.mapM xs fun a _ => hf a
  have hys := Concludes.mapM ys fun a _ => hf a
  rcases h.mapM fun a => (runFrom (f a) p).1 with ⟨us, vs, hus, hvs, hthins⟩ | ⟨e, hus, hvs⟩
  · rw [hus] at hxs
    rw [hvs] at hys
    refine .inl ⟨us, vs, hxs, hys, hthins, ?_⟩
    intro u hu
    exact exists_of_forall₂ (mapM_eq_ok.1 hus) hu
  · rw [hus] at hxs
    rw [hvs] at hys
    exact .inr ⟨e, hxs, hys⟩

theorem projectedRows_of_columns {variants : List Projection} (h : ∀ v ∈ variants, v.columns ≠ [])
    (entity : String) :
    projectedRows cx entity variants = catalogColumns cx entity >>= fun columns =>
      variants.mapM (Row.project (innerRow cx) (.of cx.catalog entity columns) entity) := by
  have hvariants : variants ≠ [.everything] := by
    rintro rfl
    exact h .everything List.mem_cons_self rfl
  rw [projectedRows, if_neg hvariants]

/-- The row of a query does not show how often a variant is repeated. -/
theorem exists_concludes_row (hcatalog : cx.catalog.Steady) (entity : String) {s t : Selection}
    (hrelations : s.relations = t.relations) (hthins : Thins t.variants s.variants)
    (hcolumns : ∀ v ∈ t.variants, v.columns ≠ []) :
    ∃ r, Concludes cx.catalog (p.rows.answer cx.catalog) (s.row cx entity) r ∧
      Concludes cx.catalog (p.rows.answer cx.catalog) (t.row cx entity) r := by
  have hcovers := covers_keptRows cx (p.rows.answer cx.catalog)
  have hcolumns' : ∀ v ∈ s.variants, v.columns ≠ [] := fun v hv => hcolumns v (hthins.mem_iff.1 hv)
  rw [Selection.row, Selection.row, projectedRows_of_columns hcolumns,
    projectedRows_of_columns hcolumns', hrelations]
  rcases concludes_cases (p := p) (hcovers.catalogColumns entity) with
    ⟨columns, hresult, hread⟩ | ⟨e, hread⟩
  case inr => exact ⟨.error e, hread.bind_error.bind_error, hread.bind_error.bind_error⟩
  obtain rfl := eq_knownColumns_of_ok hresult
  -- thinned variants have thinned rows, before and after relations are attached
  rcases exists_concludes_mapM hthins fun v => concludes_of_alike (Row.project_alike
    (hcovers.rowAt (cx.config.maxDepth - 1))
    (.of cx.catalog entity (cx.catalog.knownColumns entity)) entity v) with
    ⟨us, vs, hus, hvs, hrows, hsource⟩ | ⟨e, hus, hvs⟩
  case inr => exact ⟨.error e, (hread.bind_ok hvs).bind_error, (hread.bind_ok hus).bind_error⟩
  rcases exists_concludes_mapM hrows fun u => concludes_of_alike
    (hcovers.attachRelations t.relations entity cx.config.maxDepth u) with
    ⟨us', vs', hus', hvs', hrows', hsource'⟩ | ⟨e, hus', hvs'⟩
  case inr =>
    exact ⟨.error e, (hread.bind_ok hvs).bind_ok hvs'.bind_error,
      (hread.bind_ok hus).bind_ok hus'.bind_error⟩
  -- a union drops what equals a member that it has, and a steady row equals its repetition
  have hunion : Ty.union us' = Ty.union vs' := by
    apply hrows'.union
    intro u' hu' m hm
    obtain ⟨u, hu, hattach⟩ := hsource' u' hu'
    obtain ⟨v, -, hproject⟩ := hsource u hu
    obtain rfl := eq_attachedRow_of_ok hattach
    obtain rfl := eq_rowOf_of_project_ok hproject
    exact (Ty.hereditary_steady.attachedRow hcatalog _ entity v _).members m hm
  refine ⟨.ok (some (.union us')), ?_, ?_⟩
  · rw [hunion]
    exact (hread.bind_ok hvs).bind_ok (hvs'.bind_ok (.pure _))
  · exact (hread.bind_ok hus).bind_ok (hus'.bind_ok (.pure _))

end Rows

end QueryTypes
