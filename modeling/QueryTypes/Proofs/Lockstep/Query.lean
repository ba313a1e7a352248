import QueryTypes.Proofs.Lockstep.Basic
import QueryTypes.Proofs.Structure

/-!
# Rows and results of queries in step

The strictness of the policy is consulted in one way only: to fail, or to record a note and go on
with a default (`giveUp`). Whole rows are kept under a key that holds it. A discipline that covers
these two (`Discipline.Covers`) covers everything that queries are made of, up to the result of a
chain (`Covers.resolveResult`). The arguments of a chain matter by their types alone
(`resolveResult_congr`).
-/

set_option autoImplicit false

namespace QueryTypes

variable {α : Type}

/-! ## Strictness -/

/-- The context with a policy that is strict or not. -/
def Context.strictly (cx : Context) (strict : Bool) : Context :=
  { cx with config := { cx.config with strict } }

theorem Context.strictly_self (cx : Context) : cx.strictly cx.config.strict = cx := rfl

@[simp] theorem Context.catalog_strictly (cx : Context) (strict : Bool) :
    (cx.strictly strict).catalog = cx.catalog := rfl

@[simp] theorem misuse?_strictly (cx : Context) (strict : Bool) (steps : List Step) :
    misuse? (cx.strictly strict) steps = misuse? cx steps := rfl

/-- Give up on something: fail under a strict policy, otherwise record a note and go on with a
default. -/
def giveUp (cx : Context) (error : InferError) (entity : Option String) (cause : Cause)
    (default : α) : Infer α :=
  if cx.config.strict then throw error
  else do
    note entity cause
    return default

theorem unresolved_eq_giveUp (cx : Context) (entity : Option String) (what : Subject) :
    (unresolved cx entity what : Infer (Option α)) =
      giveUp cx (.unresolvable what entity) entity (.unresolved what) none := rfl

theorem catalogColumns_eq (cx : Context) (entity : String) :
    catalogColumns cx entity = match cx.catalog.columns entity with
      | .ok columns => pure columns
      | .error source =>
        giveUp cx (.catalog entity source) (some entity) (.catalogUnavailable source) [] := rfl

namespace Discipline

/-- Under one policy giving up is alike. -/
theorem Alike.giveUp {D : Discipline} (cx : Context) (error : InferError) (entity : Option String)
    (cause : Cause) (a : α) :
    D.Alike (giveUp cx error entity cause a) (giveUp cx error entity cause a) := by
  unfold QueryTypes.giveUp
  split
  · exact .throw error
  · exact Alike.bind (alikeTracked_note _ _) fun _ => .pure a

/-- A discipline covers the rows under two policies that differ at most in strictness: giving up is
alike under both. -/
structure CoversRows (D : Discipline) (cx : Context) (s s' : Bool) : Prop where
  giveUp : ∀ {α : Type} (error : InferError) (entity : Option String) (cause : Cause) (a : α),
    D.Alike (giveUp (cx.strictly s) error entity cause a)
      (giveUp (cx.strictly s') error entity cause a)

/-- Every discipline covers the rows under one policy. -/
theorem coversRows_self (D : Discipline) (cx : Context) :
    D.CoversRows cx cx.config.strict cx.config.strict := by
  constructor
  intro α error entity cause a
  rw [cx.strictly_self]
  exact .giveUp cx error entity cause a

/-- A discipline covers queries if it covers the rows and looking up a row that is computed alike is
alike. -/
structure Covers (D : Discipline) (cx : Context) (s s' : Bool) : Prop extends
    D.CoversRows cx s s' where
  entityRow : ∀ entity,
    D.Alike (rowAt (cx.strictly s) cx.config.maxDepth entity)
      (rowAt (cx.strictly s') cx.config.maxDepth entity) →
    D.Alike (entityRow (cx.strictly s) entity) (entityRow (cx.strictly s') entity)

end Discipline

/-! ## Kept rows -/

/-- The state with one more kept row. -/
def Progress.kept (p : Progress) (key : RowKey) (row : Ty) : Progress :=
  { p with rows := p.rows ++ [(key, row)] }

theorem Progress.grows_kept (p : Progress) (key : RowKey) (row : Ty) : p.Grows (p.kept key row) :=
  ⟨List.prefix_append _ _, List.prefix_refl _⟩

theorem RowCache.find?_kept (rows : RowCache) (key key' : RowKey) (row : Ty) :
    RowCache.find? (rows ++ [(key, row)]) key' =
      (rows.find? key').or (if key' = key then some row else none) := by
  rw [RowCache.find?, RowCache.find?, List.lookup_append, List.lookup_cons]
  by_cases hkey : key' = key
  · rw [if_pos hkey, beq_iff_eq.2 hkey]
  · rw [if_neg hkey, beq_eq_false_iff_ne.2 hkey]
    rfl

theorem entityRow_zero (cx : Context) (h : cx.config.maxDepth = 0) (entity : String) :
    entityRow cx entity = pure .unknown := if_pos h

section Kept

variable (cx : Context) {entity : String} {p : Progress}

/-- Compute the row of an entity and keep it. -/
def computeRow (cx : Context) (entity : String) : Infer Ty := do
  let row ← rowAt cx cx.config.maxDepth entity
  modify fun p => p.kept (cx.rowKey entity) row
  return row

theorem runFrom_entityRow (hdepth : cx.config.maxDepth ≠ 0) (entity : String) (p : Progress) :
    runFrom (entityRow cx entity) p =
      (p.rows.find? (cx.rowKey entity)).elim (runFrom (computeRow cx entity) p)
        fun row => (.ok row, p) := by
  rw [entityRow, if_neg hdepth]
  refine (runFrom_bind_ok (a := p) (q := p) rfl).trans ?_
  cases p.rows.find? (cx.rowKey entity) with
  | none => rfl
  | some row => rfl

/-- A row that is known already. -/
theorem runFrom_entityRow_hit {row : Ty} (hdepth : cx.config.maxDepth ≠ 0)
    (h : p.rows.find? (cx.rowKey entity) = some row) :
    runFrom (entityRow cx entity) p = (.ok row, p) := by
  rw [runFrom_entityRow cx hdepth, h, Option.elim_some]

/-- A row that is computed and kept. -/
theorem runFrom_entityRow_ok {row : Ty} {q : Progress} (hdepth : cx.config.maxDepth ≠ 0)
    (h : p.rows.find? (cx.rowKey entity) = none)
    (hrow : runFrom (rowAt cx cx.config.maxDepth entity) p = (.ok row, q)) :
    runFrom (entityRow cx entity) p = (.ok row, q.kept (cx.rowKey entity) row) := by
  rw [runFrom_entityRow cx hdepth, h, Option.elim_none]
  exact runFrom_bind_ok hrow

/-- A row that cannot be computed, and is not kept. -/
theorem runFrom_entityRow_error {e : InferError} {q : Progress} (hdepth : cx.config.maxDepth ≠ 0)
    (h : p.rows.find? (cx.rowKey entity) = none)
    (hrow : runFrom (rowAt cx cx.config.maxDepth entity) p = (.error e, q)) :
    runFrom (entityRow cx entity) p = (.error e, q) := by
  rw [runFrom_entityRow cx hdepth, h, Option.elim_none]
  exact runFrom_bind_error hrow

theorem grows_entityRow
    (h : ∀ p, Progress.Grows p (runFrom (rowAt cx cx.config.maxDepth entity) p).2) (p : Progress) :
    p.Grows (runFrom (entityRow cx entity) p).2 := by
  by_cases hdepth : cx.config.maxDepth = 0
  · rw [entityRow_zero cx hdepth]
    exact .refl p
  · cases hfind : p.rows.find? (cx.rowKey entity) with
    | some row => rw [runFrom_entityRow_hit cx hdepth hfind]; exact .refl p
    | none =>
      have hgrows := h p
      rcases hrow : runFrom (rowAt cx cx.config.maxDepth entity) p with ⟨r, q⟩
      rw [hrow] at hgrows
      cases r with
      | ok row =>
        rw [runFrom_entityRow_ok cx hdepth hfind hrow]
        exact hgrows.trans (q.grows_kept _ _)
      | error e =>
        rw [runFrom_entityRow_error cx hdepth hfind hrow]
        exact hgrows

end Kept

/-! ## Rows -/

section Rows

variable {D : Discipline} {row row' : String → Infer Ty}

namespace Row

theorem expandList_alike {ts : List Ty} (h : ∀ t ∈ ts, D.Alike (expand row t) (expand row' t)) :
    D.Alike (expandList row ts) (expandList row' ts) := by
  induction ts with
  | nil => exact .pure []
  | cons t rest ih =>
    refine (h t List.mem_cons_self).bind fun first => ?_
    exact (ih fun t ht => h t (List.mem_cons_of_mem _ ht)).bind fun others => .pure _

theorem expand_alike (h : ∀ e, D.Alike (row e) (row' e)) (t : Ty) :
    D.Alike (expand row t) (expand row' t) := by
  induction t using Ty.rec' with
  | unknown slot => exact .pure _
  | scalar s slot => exact .pure _
  | array item key shape origin slot => exact .pure _
  | object properties origin slot =>
    -- an object stands for an entity only as long as nothing is known of its properties
    cases properties with
    | nil =>
      cases origin with
      | none => exact .pure _
      | some target => exact (h target).bind fun t => .pure _
    | cons e rest => exact .pure _
  | union members slot ih => exact (expandList_alike ih).bind fun ts => .pure _

theorem columnType_alike (h : ∀ e, D.Alike (row e) (row' e)) (c : Column) :
    D.Alike (columnType row c) (columnType row' c) :=
  (expand_alike h c.ty).bind fun _ => .pure _

theorem refType_alike (h : ∀ e, D.Alike (row e) (row' e)) (columns : List Column)
    (table : Option String) (ref : ColumnRef) :
    D.Alike (refType row columns table ref) (refType row' columns table ref) := by
  unfold refType
  split
  · split
    · exact columnType_alike h _
    · exact .pure _
  · exact .pure _

theorem putAll_alike (h : ∀ e, D.Alike (row e) (row' e)) (frame : Frame) (props : Entries Ty) :
    D.Alike (putAll row frame props) (putAll row' frame props) :=
  .foldlM _ (fun _ c => (columnType_alike h c).bind fun _ => .pure _) props

theorem putRef_alike (h : ∀ e, D.Alike (row e) (row' e)) (frame : Frame) (props : Entries Ty)
    (ref : ColumnRef) : D.Alike (putRef row frame props ref) (putRef row' frame props ref) := by
  unfold putRef
  split
  · split
    · exact putAll_alike h frame props
    · exact .pure _
  · split
    · exact (refType_alike h _ _ ref).bind fun _ => .pure _
    · exact .pure _

theorem project_alike (h : ∀ e, D.Alike (row e) (row' e)) (frame : Frame) (entity : String)
    (p : Projection) : D.Alike (project row frame entity p) (project row' frame entity p) := by
  have hrefs (props : Entries Ty) :
      D.Alike (p.columns.foldlM (putRef row frame) props >>= fun ps =>
        pure (Ty.object ps (some entity)))
        (p.columns.foldlM (putRef row' frame) props >>= fun ps =>
          pure (Ty.object ps (some entity))) :=
    (Discipline.Alike.foldlM _ (fun ps ref => putRef_alike h frame ps ref) props).bind
      fun _ => .pure _
  unfold project
  split
  · exact (putAll_alike h frame []).bind hrefs
  · exact (Discipline.Alike.pure []).bind hrefs

end Row

end Rows

namespace Discipline.CoversRows

variable {D : Discipline} {cx : Context} {s s' : Bool}

theorem unresolved (h : D.CoversRows cx s s') (entity : Option String) (what : Subject) :
    D.Alike (unresolved (cx.strictly s) entity what : Infer (Option α))
      (unresolved (cx.strictly s') entity what) := by
  rw [unresolved_eq_giveUp, unresolved_eq_giveUp]
  exact h.giveUp _ _ _ _

theorem catalogColumns (h : D.CoversRows cx s s') (entity : String) :
    D.Alike (catalogColumns (cx.strictly s) entity) (catalogColumns (cx.strictly s') entity) := by
  rw [catalogColumns_eq, catalogColumns_eq, cx.catalog_strictly, cx.catalog_strictly]
  cases cx.catalog.columns entity with
  | ok columns => exact .pure columns
  | error source => exact h.giveUp _ _ _ _

theorem rowAt (h : D.CoversRows cx s s') (depth : Nat) :
    ∀ entity, D.Alike (rowAt (cx.strictly s) depth entity)
      (rowAt (cx.strictly s') depth entity) := by
  induction depth with
  | zero => exact fun _ => .pure _
  | succ depth ih =>
    -- the rows inside a row have one level less, also where entities refer to each other
    intro entity
    exact (h.catalogColumns entity).bind fun columns => Row.project_alike ih _ entity _

/-! ## Relations -/

mutual

theorem attachRelations (h : D.CoversRows cx s s') :
    ∀ (tree : RelationTree) (entity : String) (depth : Nat) (row : Ty),
      D.Alike (attachRelations (cx.strictly s) entity depth tree row)
        (attachRelations (cx.strictly s') entity depth tree row)
  | .node children, entity, depth, row => by
    unfold QueryTypes.attachRelations
    split
    · exact .pure _
    · exact attachList h children entity (depth - 1) row

theorem attachList (h : D.CoversRows cx s s') :
    ∀ (children : List (String × RelationTree)) (entity : String) (depth : Nat) (row : Ty),
      D.Alike (attachList (cx.strictly s) entity depth children row)
        (attachList (cx.strictly s') entity depth children row)
  | [], _, _, row => by
    unfold QueryTypes.attachList
    exact .pure row
  | (name, nested) :: rest, entity, depth, row => by
    have hrest := attachList h rest entity depth
    rw [QueryTypes.attachList, QueryTypes.attachList, cx.catalog_strictly, cx.catalog_strictly]
    split
    · exact hrest row
    · -- only a relation that the entity has loads a row, and both sides agree on that
      cases cx.catalog.relation? entity name with
      | none => exact Alike.bind (alikeTracked_note _ _) fun _ => hrest row
      | some relation =>
        refine (h.rowAt depth relation.target).bind fun target => ?_
        refine (attachRelations h nested relation.target depth target).bind fun target => ?_
        exact hrest _

end

end Discipline.CoversRows

/-! ## Chains by their words -/

/-- A call as a query reads it: the method and the types of the arguments. -/
def Step.words (s : Step) : String × List Ty := (s.name, s.argTypes)

theorem Step.map_name_eq {steps steps' : List Step}
    (h : steps.map Step.words = steps'.map Step.words) :
    steps.map Step.name = steps'.map Step.name := by
  have := congrArg (List.map Prod.fst) h
  rwa [List.map_map, List.map_map] at this

theorem Selection.step_congr (s : Selection) {call call' : Step} (h : call.words = call'.words) :
    s.step call = s.step call' := by
  obtain ⟨hname, htypes⟩ := Prod.mk.inj h
  unfold Selection.step
  rw [hname, htypes]

theorem Selection.ofSteps_congr {steps steps' : List Step}
    (h : steps.map Step.words = steps'.map Step.words) :
    Selection.ofSteps steps = Selection.ofSteps steps' := by
  suffices key : ∀ s : Selection, steps.foldl Selection.step s = steps'.foldl Selection.step s from
    key {}
  induction steps generalizing steps' with
  | nil =>
    rw [List.map_nil, eq_comm, List.map_eq_nil_iff] at h
    rw [h]
    exact fun _ => rfl
  | cons call rest ih =>
    rw [List.map_cons, eq_comm, List.map_eq_cons_iff] at h
    obtain ⟨call', rest', rfl, hcall, hrest⟩ := h
    intro s
    rw [List.foldl_cons, List.foldl_cons, s.step_congr hcall.symm]
    exact ih hrest.symm _

theorem misuse?_congr (cx : Context) {steps steps' : List Step}
    (h : steps.map Step.name = steps'.map Step.name) : misuse? cx steps = misuse? cx steps' := by
  -- both checks read the names alone
  have key (steps : List Step) : misuse? cx steps =
      (((steps.map Step.name).dropLast.find? isFinisher).map Subject.earlyFinisher).or
        (if cx.config.verifyMethods then
          ((steps.map Step.name).find? fun name => !Contract.anyHas name).map .notBuilderMethod
        else none) := by
    rw [← List.map_dropLast, List.find?_map, List.find?_map, Option.map_map, Option.map_map,
      misuse?]
    simp only [Function.comp_def]
    cases steps.dropLast.find? fun s => isFinisher s.name with
    | none => rfl
    | some last => rfl
  rw [key, key, h]

/-- Whether the calls are a query does not depend on which declared method runs it. -/
theorem misuse?_snoc (cx : Context) (steps : List Step) {last last' : Step}
    (hlast : Contract.anyHas last.name = true) (hlast' : Contract.anyHas last'.name = true) :
    misuse? cx (steps ++ [last]) = misuse? cx (steps ++ [last']) := by
  rw [misuse?, misuse?, List.dropLast_concat, List.dropLast_concat, List.find?_append,
    List.find?_append]
  simp [hlast, hlast']

/-- A declared method that does not run the query makes no difference before the last call. -/
theorem misuse?_insert (cx : Context) (before : List Step) {call : Step}
    (hfinisher : isFinisher call.name = false) (hcall : Contract.anyHas call.name = true)
    {after : List Step} (hafter : after ≠ []) :
    misuse? cx (before ++ call :: after) = misuse? cx (before ++ after) := by
  rw [misuse?, misuse?, List.dropLast_append_of_ne_nil (List.cons_ne_nil _ _),
    List.dropLast_append_of_ne_nil hafter, List.dropLast_cons_of_ne_nil hafter]
  simp [List.find?_append, hfinisher, hcall]

/-- The row of a chain depends on where it starts, on what is wrong with it and on its selection. -/
theorem resolveRow_of_selection (cx : Context) {c c' : Chain} (hroot : c.root = c'.root)
    (hmisuse : misuse? cx c.steps = misuse? cx c'.steps)
    (hselection : Selection.ofSteps c.steps = Selection.ofSteps c'.steps) :
    resolveRow cx c = resolveRow cx c' := by
  rw [resolveRow, resolveRow, hroot, hmisuse, hselection]

theorem resolveRow_congr (cx : Context) (c c' : Chain) (hroot : c.root = c'.root)
    (h : c.steps.map Step.words = c'.steps.map Step.words) :
    resolveRow cx c = resolveRow cx c' :=
  resolveRow_of_selection cx hroot (misuse?_congr cx (Step.map_name_eq h))
    (Selection.ofSteps_congr h)

theorem finish_congr (cx : Context) (entity : String) {last last' : Step}
    (h : last.words = last'.words) (row : Ty) :
    finish cx entity last row = finish cx entity last' row := by
  obtain ⟨hname, htypes⟩ := Prod.mk.inj h
  unfold finish
  rw [hname, htypes]

/-- A query depends on where its chain starts and on the words of its calls. -/
theorem resolveResult_congr (cx : Context) (c c' : Chain) (hroot : c.root = c'.root)
    (h : c.steps.map Step.words = c'.steps.map Step.words) :
    resolveResult cx c = resolveResult cx c' := by
  have hlast : c.steps.getLast?.map Step.words = c'.steps.getLast?.map Step.words := by
    rw [← List.getLast?_map, ← List.getLast?_map, h]
  unfold resolveResult
  rw [resolveRow_congr cx c c' hroot h, hroot]
  cases hl : c.steps.getLast? with
  | none => rw [hl, Option.map_none, eq_comm, Option.map_eq_none_iff] at hlast; rw [hlast]
  | some last =>
    rw [hl, Option.map_some, eq_comm, Option.map_eq_some_iff] at hlast
    obtain ⟨last', hl', hwords⟩ := hlast
    rw [hl']
    refine bind_congr fun row => ?_
    cases row with
    | none => rfl
    | some row => exact finish_congr cx _ hwords.symm row

/-! ## Results -/

namespace Discipline.Covers

variable {D : Discipline} {cx : Context} {s s' : Bool}

theorem projectedRows (h : D.Covers cx s s') (entity : String) (variants : List Projection) :
    D.Alike (projectedRows (cx.strictly s) entity variants)
      (projectedRows (cx.strictly s') entity variants) := by
  unfold QueryTypes.projectedRows
  split
  · exact (h.entityRow entity (h.rowAt _ entity)).bind fun _ => .pure _
  · refine (h.catalogColumns entity).bind fun columns => ?_
    exact .mapM _ fun p _ => Row.project_alike (h.rowAt _) _ entity p

theorem resolveRow (h : D.Covers cx s s') (c : Chain) :
    D.Alike (resolveRow (cx.strictly s) c) (resolveRow (cx.strictly s') c) := by
  unfold QueryTypes.resolveRow
  cases c.root with
  | none => exact h.unresolved _ _
  | some entity =>
    rw [misuse?_strictly, misuse?_strictly]
    cases misuse? cx c.steps with
    | some what => exact h.unresolved _ _
    | none =>
      refine (h.projectedRows entity _).bind fun rows => ?_
      exact (Alike.mapM rows fun row _ => h.attachRelations _ entity _ row).bind fun _ => .pure _

theorem pluckedColumns (h : D.Covers cx s s') (entity : String) (columns : List Column) (arg : Ty) :
    D.Alike (pluckedColumns (cx.strictly s) entity columns arg)
      (pluckedColumns (cx.strictly s') entity columns arg) := by
  unfold QueryTypes.pluckedColumns
  split
  · exact Alike.bind (alikeTracked_note _ _) fun _ => .pure _
  · refine (Alike.mapM _ fun name _ => ?_).bind fun _ => .pure _
    exact (Row.refType_alike (h.rowAt _) _ _ _).bind fun _ => .pure _

theorem pluckedArgument (h : D.Covers cx s s') (entity : String) (columns : List Column)
    (arg : Option Ty) :
    D.Alike (pluckedArgument (cx.strictly s) entity columns arg)
      (pluckedArgument (cx.strictly s') entity columns arg) := by
  cases arg with
  | none => exact .pure _
  | some arg => exact h.pluckedColumns entity columns arg

theorem finish (h : D.Covers cx s s') (entity : String) (last : Step) (row : Ty) :
    D.Alike (finish (cx.strictly s) entity last row) (finish (cx.strictly s') entity last row) := by
  unfold QueryTypes.finish
  cases Ending.ofMethod last.name with
  | pluck =>
    refine (h.catalogColumns entity).bind fun columns => ?_
    refine (h.pluckedArgument entity columns _).bind fun value => ?_
    exact (h.pluckedArgument entity columns _).bind fun key => .pure _
  | value =>
    refine (h.catalogColumns entity).bind fun columns => ?_
    cases last.argTypes[0]? with
    | none => exact .pure _
    | some arg => exact (h.pluckedColumns entity columns arg).bind fun _ => .pure _
  | declared =>
    cases Contract.declaredReturn? last.name with
    | none => exact h.unresolved _ _
    | some t => exact .pure _
  | rows | rowOrNull | row | count | test | page kind => exact .pure _

theorem resolveResult (h : D.Covers cx s s') (c : Chain) :
    D.Alike (resolveResult (cx.strictly s) c) (resolveResult (cx.strictly s') c) := by
  unfold QueryTypes.resolveResult
  cases c.steps.getLast? with
  | none => exact h.unresolved _ _
  | some last =>
    refine (h.resolveRow c).bind fun row => ?_
    cases row with
    | none => exact .pure _
    | some row => exact h.finish _ last row

end Discipline.Covers

end QueryTypes
