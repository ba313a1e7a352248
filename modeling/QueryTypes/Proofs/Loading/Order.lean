import QueryTypes.Proofs.Totality
import QueryTypes.Proofs.Loading.Attaching
import QueryTypes.Proofs.Loading.Paths
import QueryTypes.Proofs.Reordering

/-!
# The order of loading

What a query loads depends on the paths of relations alone. Chains that name the same paths, in
whatever order, how often and in how many calls, have the same rows and results up to the order of
properties (`resolve_sameLoads`).

Relations are loaded in the order in which they were named, and under a strict policy the first one
whose target cannot be read decides which failure is reported (`resolveRow_first_failure`). So
chains that name the same paths fail alike, but maybe for different reasons, each of which is the
failure of a row on one of the paths (`LoadFails`).
-/

set_option autoImplicit false

namespace QueryTypes

/-! ## Related results -/

/-- Both results are values that are related, or both are failures that are. -/
inductive ResultRel {α : Type} (R : α → α → Prop) (F : InferError → InferError → Prop) :
    Except InferError α → Except InferError α → Prop where
  | ok {a b : α} (values : R a b) : ResultRel R F (.ok a) (.ok b)
  | error {e e' : InferError} (failures : F e e') : ResultRel R F (.error e) (.error e')

namespace ResultRel

variable {α β : Type} {R : α → α → Prop} {S : β → β → Prop} {F G : InferError → InferError → Prop}

theorem refl (hR : ∀ a, R a a) (hF : ∀ e, F e e) (x : Except InferError α) : ResultRel R F x x := by
  cases x with
  | ok a => exact .ok (hR a)
  | error e => exact .error (hF e)

theorem mono {x y : Except InferError α} (h : ResultRel R F x y) (hFG : ∀ e e', F e e' → G e e') :
    ResultRel R G x y := by
  cases h with
  | ok hab => exact .ok hab
  | error he => exact .error (hFG _ _ he)

theorem bind {x y : Except InferError α} {f g : α → Except InferError β} (h : ResultRel R F x y)
    (hfg : ∀ a b, R a b → ResultRel S F (f a) (g b)) : ResultRel S F (x >>= f) (y >>= g) := by
  cases h with
  | ok hab => exact hfg _ _ hab
  | error he => exact .error he

theorem mapM {f g : α → Except InferError β} {xs : List α}
    (h : ∀ a ∈ xs, ResultRel S F (f a) (g a)) :
    ResultRel (List.Forall₂ S) F (xs.mapM f) (xs.mapM g) := by
  induction xs with
  | nil => exact .ok .nil
  | cons a rest ih =>
    rw [List.forall_mem_cons] at h
    rw [List.mapM_cons, List.mapM_cons]
    refine h.1.bind ?_
    intro b b' hb
    refine (ih h.2).bind ?_
    intro bs bs' hbs
    exact .ok (.cons hb hbs)

end ResultRel

/-! ## Reordered rows -/

namespace Ty.Reordered

/-- Objects whose properties are reordered name by name. -/
theorem object_of_rel {props props' : Entries Ty} (hprops : props.Distinct)
    (hprops' : props'.Distinct)
    (h : ∀ name, Option.Rel Reordered (props.get? name) (props'.get? name)) (origin : Option String)
    (slot : Slot) :
    Reordered (.mk (.object props origin) slot) (.mk (.object props' origin) slot) := by
  refine .object origin slot hprops ?_ ?_
  · rw [List.perm_ext_iff_of_nodup hprops hprops']
    intro name
    rw [← Entries.isSome_get?_iff, ← Entries.isSome_get?_iff]
    have hrel := h name
    generalize props.get? name = found at hrel
    generalize props'.get? name = found' at hrel
    cases hrel with
    | none | some => simp
  · intro name t t' ht ht'
    have hrel := h name
    rw [ht, ht'] at hrel
    cases hrel with
    | some hab => exact hab

theorem loaded {a b : Ty} (h : a.Reordered b) (r : Relation) :
    (r.loaded a).Reordered (r.loaded b) := by
  rw [Relation.loaded, Relation.loaded]
  refine Reordered.withRequired ?_ true
  split
  · exact .item _ _ _ h
  · exact h.nullable

/-- In the envelope of a page only the rows depend on the row. -/
theorem envelope {a b : Ty} (h : a.Reordered b) (kind : PageKind) :
    (kind.envelope a).Reordered (kind.envelope b) := by
  have hput (row : Ty) : PageKind.present (kind.entries row) =
      (PageKind.present (kind.entries .unknown)).put "data"
        ((PageKind.rows row).withRequired true) := by
    cases kind with
    | lengthAware | simple | cursor => rfl
  have hdistinct : (PageKind.present (kind.entries .unknown)).Distinct := by
    rw [Entries.Distinct]
    cases kind with
    | lengthAware | simple | cursor => decide
  rw [PageKind.envelope, PageKind.envelope, hput a, hput b]
  exact .put hdistinct "data" (.item _ _ _ h) _ _

end Ty.Reordered

/-! ## Loading along paths -/

/-- Loading relations along a path fails: the row of a target on the way cannot be computed. -/
def LoadFails (cx : Context) : Nat → String → List String → InferError → Prop
  | depth + 1, entity, name :: rest, e =>
    ∃ r, cx.catalog.shownRelation? entity name = some r ∧
      (outcome (rowAt cx depth r.target) = .error e ∨ LoadFails cx depth r.target rest e)
  | 0, _, _, _ => False
  | _ + 1, _, [], _ => False

/-- Loading the relations of a tree fails along one of its paths. -/
def TreeFails (cx : Context) (depth : Nat) (entity : String) (t : RelationTree) (e : InferError) :
    Prop :=
  ∃ path, t.HasPath path ∧ LoadFails cx depth entity path e

/-- To a depth, loading relations from trees with the same paths gives reordered rows, or fails on
both sides along a path. -/
def LoadsAlike (cx : Context) (depth : Nat) : Prop :=
  ∀ (entity : String) (t t' : RelationTree), t.Distinct → t'.Distinct → t.SamePaths t' →
    ∀ row : Ty, (depth = 0 ∨ row.IsRecord entity) →
      ResultRel Ty.Reordered (fun e e' => TreeFails cx depth entity t e ∧
        TreeFails cx depth entity t' e')
        (outcome (attachRelations cx entity depth t row))
        (outcome (attachRelations cx entity depth t' row))

/-- The target of a relation cannot be computed, or loading relations from it fails. -/
def TargetFails (cx : Context) (depth : Nat) (r : Relation) (nested : RelationTree)
    (e : InferError) : Prop :=
  outcome (rowAt cx depth r.target) = .error e ∨ TreeFails cx depth r.target nested e

section Attaching

variable {cx : Context} {entity name : String} {depth : Nat} {t t' u u' : RelationTree}
  {r : Relation}

theorem TargetFails.treeFails {e : InferError} (h : TargetFails cx depth r u e)
    (hu : (name, u) ∈ t.children) (hr : cx.catalog.shownRelation? entity name = some r) :
    TreeFails cx (depth + 1) entity t e := by
  rcases h with hrow | ⟨path, hpath, hfails⟩
  · exact ⟨[name], ⟨u, hu, trivial⟩, r, hr, .inl hrow⟩
  · exact ⟨name :: path, ⟨u, hu, hpath⟩, r, hr, .inr hfails⟩

namespace LoadsAlike

variable (h : LoadsAlike cx depth) (ht : t.Distinct) (ht' : t'.Distinct) (hpaths : t.SamePaths t')

include h ht ht' hpaths

/-- The targets of a relation under one name of both trees. -/
theorem targetRow (hu : (name, u) ∈ t.children) (hu' : (name, u') ∈ t'.children) (r : Relation) :
    ResultRel Ty.Reordered (fun e e' => TargetFails cx depth r u e ∧ TargetFails cx depth r u' e')
      (r.targetRow cx depth u) (r.targetRow cx depth u') := by
  rw [Relation.targetRow, Relation.targetRow]
  cases hrow : outcome (rowAt cx depth r.target) with
  | error e => exact .error ⟨.inl hrow, .inl hrow⟩
  | ok row =>
    have hrecord : depth = 0 ∨ row.IsRecord r.target := by
      cases depth with
      | zero => exact .inl rfl
      | succ depth =>
        rw [eq_rowOf_of_rowAt_ok hrow]
        exact .inr (isRecord_rowOf cx.catalog depth r.target _ _)
    have hnested :=
      h r.target u u' (ht.nested hu) (ht'.nested hu') (hpaths.nested ht ht' hu hu') row hrecord
    exact hnested.mono fun e e' hfails => ⟨.inr hfails.1, .inr hfails.2⟩

/-- Where relations of one tree are loaded those of the other do not fail. -/
theorem ne_error {before : Entries Ty} {origin : Option String} {slot : Slot} {a row : Ty}
    (hok : t.children.foldlM (loadRelation cx entity depth) (.mk (.object before origin) slot) =
      .ok a)
    (e : InferError) : t'.children.foldlM (loadRelation cx entity depth) row ≠ .error e := by
  intro herror
  obtain ⟨⟨name, u'⟩, hu', r, hr, htarget'⟩ := exists_of_load_error herror
  -- the relation that fails has a partner of its name, which is loaded
  obtain ⟨⟨_, u⟩, hu, rfl⟩ :=
    List.mem_map.1 ((hpaths.mem_keys_iff name).2 (List.mem_map_of_mem hu'))
  obtain ⟨after, -, hloads⟩ := loads_of_load_ok hok
  obtain ⟨target, htarget⟩ := hloads.targets _ hu r hr
  have hrelated := h.targetRow ht ht' hpaths hu hu' r
  rw [htarget, htarget'] at hrelated
  cases hrelated

/-- The properties after loading are reordered, name by name. -/
theorem rel_get? {before after after' : Entries Ty}
    (hloads : Loads cx entity depth t.children before after)
    (hloads' : Loads cx entity depth t'.children before after') (name : String) :
    Option.Rel Ty.Reordered (after.get? name) (after'.get? name) := by
  rcases hloads.found name with ⟨u, r, a, hu, hr, ha, hget⟩ | ⟨hnone, hget⟩
  · rcases hloads'.found name with ⟨u', r', a', hu', hr', ha', hget'⟩ | ⟨hnone', -⟩
    · obtain rfl := Option.some.inj (hr.symm.trans hr')
      have hrelated := h.targetRow ht ht' hpaths hu hu' r
      rw [ha, ha'] at hrelated
      rw [hget, hget']
      cases hrelated with
      | ok hab => exact .some (hab.loaded r)
    · cases hr.symm.trans (hnone' ((hpaths.mem_keys_iff name).1 (List.mem_map_of_mem hu)))
  · rcases hloads'.found name with ⟨u', r', a', hu', hr', -, -⟩ | ⟨-, hget'⟩
    · cases hr'.symm.trans (hnone ((hpaths.mem_keys_iff name).2 (List.mem_map_of_mem hu')))
    · -- the name is that of no relation
      rw [hget, hget']
      cases before.get? name with
      | none => exact .none
      | some a => exact .some (.refl a)

end LoadsAlike

/-- A failure to load the relations of a tree is one along a path. -/
theorem LoadsAlike.treeFails (h : LoadsAlike cx depth) (ht : t.Distinct) {row : Ty} {e : InferError}
    (herror : t.children.foldlM (loadRelation cx entity depth) row = .error e) :
    TreeFails cx (depth + 1) entity t e := by
  obtain ⟨⟨name, u⟩, hu, r, hr, htarget⟩ := exists_of_load_error herror
  -- the target is compared with itself
  have hself := h.targetRow ht ht (fun _ => Iff.rfl) hu hu r
  rw [htarget] at hself
  cases hself with
  | error hfailures => exact hfailures.1.treeFails hu hr

/-- One level of loading is as alike as the levels below it. -/
theorem LoadsAlike.succ (h : LoadsAlike cx depth) : LoadsAlike cx (depth + 1) := by
  intro entity t t' ht ht' hpaths row hrow
  obtain ⟨before, rfl, hbefore⟩ := hrow.resolve_left (Nat.succ_ne_zero depth)
  rw [Ty.object, Ty.ofKind, outcome_attachRelations_object, outcome_attachRelations_object]
  rcases hleft : t.children.foldlM (loadRelation cx entity depth)
    (.mk (.object before (some entity)) {})
    with e | a <;>
  rcases hright : t'.children.foldlM (loadRelation cx entity depth)
    (.mk (.object before (some entity)) {})
    with e' | b
  · exact .error ⟨h.treeFails ht hleft, h.treeFails ht' hright⟩
  · exact absurd hleft (h.ne_error ht' ht hpaths.symm hright e)
  · exact absurd hright (h.ne_error ht ht' hpaths hleft e')
  · obtain ⟨after, rfl, hloads⟩ := loads_of_load_ok hleft
    obtain ⟨after', rfl, hloads'⟩ := loads_of_load_ok hright
    exact .ok (.object_of_rel (hloads.distinct hbefore) (hloads'.distinct hbefore)
      (h.rel_get? ht ht' hpaths hloads hloads') _ _)

theorem loadsAlike (cx : Context) (depth : Nat) : LoadsAlike cx depth := by
  induction depth with
  | zero =>
    -- nothing is loaded
    intro entity t t' _ _ _ row _
    rw [outcome_attachRelations_zero, outcome_attachRelations_zero]
    exact .ok (.refl row)
  | succ depth ih => exact ih.succ

end Attaching

/-! ## Chains -/

/-- Loading the relations that calls name fails along one of the paths. -/
def ChainFails (cx : Context) (entity : String) (steps : List Step) (e : InferError) : Prop :=
  ∃ path, (∃ call ∈ steps, call.LoadsPath path) ∧ LoadFails cx cx.config.maxDepth entity path e

/-- Failures of two chains: the same one, or one along a path that is named on each side. -/
def FailAlike (cx : Context) (entity : String) (steps steps' : List Step) (e e' : InferError) :
    Prop :=
  e = e' ∨ ChainFails cx entity steps e ∧ ChainFails cx entity steps' e'

theorem LoadFails.ne_nil {cx : Context} {depth : Nat} {entity : String} {path : List String}
    {e : InferError} (h : LoadFails cx depth entity path e) : path ≠ [] := by
  rintro rfl
  cases depth with
  | zero => exact h
  | succ depth => exact h

theorem TreeFails.chainFails {cx : Context} {entity : String} {steps : List Step} {e : InferError}
    (h : TreeFails cx cx.config.maxDepth entity (Selection.ofSteps steps).relations e) :
    ChainFails cx entity steps e := by
  obtain ⟨path, hpath, hfails⟩ := h
  rw [Selection.hasPath_relations_ofSteps] at hpath
  exact ⟨path, hpath.resolve_left hfails.ne_nil, hfails⟩

section Chains

variable {cx : Context} {entity : String} {steps steps' : List Step}

theorem SameLoads.rowOutcome (h : SameLoads steps steps') :
    ResultRel (Option.Rel Ty.Reordered) (FailAlike cx entity steps steps')
      ((Selection.ofSteps steps).rowOutcome cx entity)
      ((Selection.ofSteps steps').rowOutcome cx entity) := by
  -- loading does not change which columns are selected, so both sides load into the same rows
  rw [Selection.rowOutcome, Selection.rowOutcome, h.variants_eq]
  cases hrows : outcome (projectedRows cx entity (Selection.ofSteps steps').variants) with
  | error e => exact .error (.inl rfl)
  | ok rows =>
    have hrecord (row : Ty) (hrow : row ∈ rows) : cx.config.maxDepth = 0 ∨ row.IsRecord entity := by
      by_cases hdepth : cx.config.maxDepth = 0
      · exact .inl hdepth
      · rw [eq_map_of_projectedRows hdepth hrows] at hrow
        obtain ⟨v, -, rfl⟩ := List.mem_map.1 hrow
        rw [← Nat.sub_one_add_one hdepth]
        exact .inr (isRecord_rowOf cx.catalog _ entity v _)
    have hattached : ResultRel (List.Forall₂ Ty.Reordered) (FailAlike cx entity steps steps')
        (rows.mapM fun row => outcome (attachRelations cx entity cx.config.maxDepth
          (Selection.ofSteps steps).relations row))
        (rows.mapM fun row => outcome (attachRelations cx entity cx.config.maxDepth
          (Selection.ofSteps steps').relations row)) := by
      refine .mapM fun row hrow => ?_
      have hrow := loadsAlike cx cx.config.maxDepth entity _ _
        (Selection.distinct_relations_ofSteps steps)
        (Selection.distinct_relations_ofSteps steps') h.samePaths
        row (hrecord row hrow)
      exact hrow.mono fun e e' hfails => .inr ⟨hfails.1.chainFails, hfails.2.chainFails⟩
    refine hattached.bind ?_
    intro loaded loaded' hloaded
    exact .ok (.some (.union_of_forall₂ hloaded))

theorem reordered_rel_refl (row? : Option Ty) : Option.Rel Ty.Reordered row? row? := by
  cases row? with
  | none => exact .none
  | some row => exact .some (.refl row)

theorem SameLoads.resolveRow (h : SameLoads steps steps') :
    ResultRel (Option.Rel Ty.Reordered) (FailAlike cx entity steps steps')
      (outcome (resolveRow cx ⟨some entity, steps⟩))
      (outcome (resolveRow cx ⟨some entity, steps'⟩)) := by
  have hmisuse := h.misuse?_eq cx
  cases hwhat : misuse? cx steps' with
  | some what =>
    rw [hwhat] at hmisuse
    rw [QueryTypes.resolveRow, QueryTypes.resolveRow, hmisuse, hwhat]
    exact .refl reordered_rel_refl (fun e => .inl rfl) _
  | none =>
    rw [hwhat] at hmisuse
    rw [resolveRow_eq_row hmisuse, resolveRow_eq_row hwhat, (concludes_row _).outcome_eq,
      (concludes_row _).outcome_eq]
    exact h.rowOutcome

/-- What the last call makes of reordered rows. -/
theorem finish_related (last : Step) {row row' : Ty} (h : row.Reordered row') :
    ResultRel (Option.Rel Ty.Reordered) (FailAlike cx entity steps steps')
      (outcome (finish cx entity last row)) (outcome (finish cx entity last row')) := by
  rw [finish, finish]
  cases Ending.ofMethod last.name with
  | rows => exact .ok (.some (.item _ _ _ h))
  | rowOrNull => exact .ok (.some h.nullable)
  | row => exact .ok (.some h)
  | page kind => exact .ok (.some (h.envelope kind))
  -- the other endings do not look at the row
  | pluck | value | count | test | declared => exact .refl reordered_rel_refl (fun e => .inl rfl) _

theorem outcome_resolveResult {last : Step} (hlast : steps.getLast? = some last) :
    outcome (resolveResult cx ⟨some entity, steps⟩) =
      outcome (resolveRow cx ⟨some entity, steps⟩) >>= fun row? =>
        row?.elim (.ok none) fun row => outcome (finish cx entity last row) := by
  have hcovers := covers_keptRows cx (computedRow cx.catalog)
  rw [resolveResult]
  simp only [hlast]
  apply Concludes.outcome_eq
  refine (concludes_outcome (hcovers.resolveRow ⟨some entity, steps⟩)).bind ?_
  intro row? _
  cases row? with
  | none => exact .pure none
  | some row => exact concludes_outcome (hcovers.finish entity last row)

theorem SameLoads.resolveResult (h : SameLoads steps steps') :
    ResultRel (Option.Rel Ty.Reordered) (FailAlike cx entity steps steps')
      (outcome (resolveResult cx ⟨some entity, steps⟩))
      (outcome (resolveResult cx ⟨some entity, steps'⟩)) := by
  cases hlast : steps'.getLast? with
  | none =>
    have hlast' := h.last.trans hlast
    rw [QueryTypes.resolveResult, QueryTypes.resolveResult]
    simp only [hlast, hlast']
    exact .refl reordered_rel_refl (fun e => .inl rfl) _
  | some last =>
    rw [outcome_resolveResult hlast, outcome_resolveResult (h.last.trans hlast)]
    refine h.resolveRow.bind ?_
    intro row? row?' hrow
    cases hrow with
    | none => exact .ok .none
    | some hrow => exact finish_related last hrow

/-- What never fails under a lenient policy fails under a strict one only. -/
theorem ResultRel.strict {R : Option Ty → Option Ty → Prop} {F : InferError → InferError → Prop}
    {x y : Infer (Option Ty)} (h : ResultRel R F (outcome x) (outcome y))
    (hlenient : cx.config.strict = false → ∃ a, outcome x = .ok a) :
    ResultRel R (fun e e' => cx.config.strict = true ∧ F e e') (outcome x) (outcome y) := by
  cases hstrict : cx.config.strict with
  | true => exact h.mono fun e e' hfails => ⟨rfl, hfails⟩
  | false =>
    obtain ⟨a, ha⟩ := hlenient hstrict
    rw [ha] at h ⊢
    generalize outcome y = r at h
    cases h with
    | ok hab => exact .ok hab

/-- Chains on one entity with the same calls but for those that load relations, and with the same
paths of relations. Their rows are the same up to the order of properties, and so are their results.
If one of them fails, as is possible under a strict policy only, so does the other, with the same
failure or each with that of a row on one of the paths. -/
theorem resolve_sameLoads (cx : Context) (entity : String) (h : SameLoads steps steps')
    {p q : Progress} (hp : p.rows.Sound cx.catalog) (hq : q.rows.Sound cx.catalog) :
    ResultRel (Option.Rel Ty.Reordered)
        (fun e e' => cx.config.strict = true ∧ FailAlike cx entity steps steps' e e')
        (runFrom (resolveRow cx ⟨some entity, steps⟩) p).1
        (runFrom (resolveRow cx ⟨some entity, steps'⟩) q).1 ∧
      ResultRel (Option.Rel Ty.Reordered)
        (fun e e' => cx.config.strict = true ∧ FailAlike cx entity steps steps' e e')
        (runFrom (resolveResult cx ⟨some entity, steps⟩) p).1
        (runFrom (resolveResult cx ⟨some entity, steps'⟩) q).1 := by
  have hcovers := covers_keptRows cx (computedRow cx.catalog)
  -- rows that were kept from earlier runs make no difference
  have hrow {p : Progress} (hp : p.rows.Sound cx.catalog) (chain : Chain) :
      (runFrom (resolveRow cx chain) p).1 = outcome (resolveRow cx chain) :=
    (concludes_outcome (hcovers.resolveRow chain)).result hp.answer_eq
  have hresult {p : Progress} (hp : p.rows.Sound cx.catalog) (chain : Chain) :
      (runFrom (resolveResult cx chain) p).1 = outcome (resolveResult cx chain) :=
    (concludes_outcome (hcovers.resolveResult chain)).result hp.answer_eq
  rw [hrow hp, hrow hq, hresult hp, hresult hq]
  constructor
  · exact h.resolveRow.strict fun hlenient => (total_resolveRow hlenient _).exists_ok {}
  · exact h.resolveResult.strict fun hlenient => (total_resolveResult hlenient _).exists_ok {}

end Chains

/-- An article has an author and comments, which have authors. Its cover and its topic are entities
that are not described. -/
def articleCatalog : Catalog where
  entities :=
    [("Article",
        { columns := [⟨"id", .resolved .integer, false⟩]
          relations :=
            [("author", ⟨"Person", false⟩), ("comments", ⟨"Comment", true⟩),
              ("cover", ⟨"Image", false⟩), ("topic", ⟨"Topic", false⟩)] }),
      ("Comment",
        { columns := [⟨"body", .resolved .string, false⟩]
          relations := [("author", ⟨"Person", false⟩)] }),
      ("Person", { columns := [⟨"name", .resolved .string, false⟩] })]

/-- A call that loads relations, with an argument for each path. -/
def loadCall (paths : List String) : Step :=
  ⟨"with", paths.map fun path => ⟨.ofLiteral (.str path), none⟩⟩

/-- Paths in another order, in other calls, with columns and with their beginnings repeated. -/
theorem resolve_sameLoads_article :
    let cx : Context := ⟨{}, articleCatalog⟩
    let steps : List Step := [loadCall ["comments.author"], loadCall ["author"], ⟨"get", []⟩]
    let steps' : List Step :=
      [loadCall ["author:name", "comments"], loadCall [" comments . author :name"], ⟨"get", []⟩]
    SameLoads steps steps' ∧
      ∃ row row', (runFrom (resolveRow cx ⟨some "Article", steps⟩) {}).1 = .ok (some row) ∧
        (runFrom (resolveRow cx ⟨some "Article", steps'⟩) {}).1 = .ok (some row') ∧
          row.Reordered row' := by
  intro cx steps steps'
  have hsame : SameLoads steps steps' :=
    .of_namedPaths rfl rfl (by decide +kernel) (by decide +kernel)
  have hsound : ({} : Progress).rows.Sound cx.catalog := RowCache.sound_nil articleCatalog
  have hrelated := (resolve_sameLoads cx "Article" hsame hsound hsound).1
  have hrows (calls : List Step) (hallowed : Step.Allowed cx calls) :
      ∃ row, (runFrom (resolveRow cx ⟨some "Article", calls⟩) {}).1 = .ok (some row) :=
    exists_row_of_allowed rfl (by decide) hallowed hsound
  obtain ⟨row, hrow⟩ := hrows steps ⟨by decide, by decide⟩
  obtain ⟨row', hrow'⟩ := hrows steps' ⟨by decide, by decide⟩
  rw [hrow, hrow'] at hrelated
  refine ⟨hsame, row, row', hrow, hrow', ?_⟩
  cases hrelated with
  | ok hrows =>
    cases hrows with
    | some hreordered => exact hreordered

/-- Under a strict policy the first relation whose target is not described decides the failure. -/
theorem resolveRow_first_failure :
    let cx : Context := ⟨{ strict := true }, articleCatalog⟩
    let steps : List Step := [loadCall ["cover"], loadCall ["topic"], ⟨"get", []⟩]
    let steps' : List Step := [loadCall ["topic"], loadCall ["cover"], ⟨"get", []⟩]
    SameLoads steps steps' ∧
      (runFrom (resolveRow cx ⟨some "Article", steps⟩) {}).1 =
        .error (.catalog "Image" (.unknownEntity "Image")) ∧
      (runFrom (resolveRow cx ⟨some "Article", steps'⟩) {}).1 =
        .error (.catalog "Topic" (.unknownEntity "Topic")) := by
  refine ⟨.of_namedPaths rfl rfl ?_ ?_, rfl, rfl⟩
  · decide +kernel
  · decide +kernel

end QueryTypes
