import QueryTypes.Proofs.Lockstep.Engine

/-!
# Kept rows do not show

Tasks of a session share the rows that were computed for whole entities. A kept row is the one that
would be computed under its key (`RowCache.Sound`), every inference preserves this, and from any two
sound states an inference returns the same (the discipline `sharedRows`).

By induction over a session, every task answers as if it were the first one, no kept row is changed
or dropped, and a row that cannot be computed is never kept (`runSession_transparent`).
-/

set_option autoImplicit false

namespace QueryTypes

/-! ## Sound rows -/

/-- The row of an entity to the full depth, computed from nothing. -/
def computedRow (catalog : Catalog) (config : Config) (entity : String) : Except InferError Ty :=
  (runFrom (rowAt ⟨config, catalog⟩ config.maxDepth entity) {}).1

theorem rowAt_congr (cx cx' : Context) (hcatalog : cx.catalog = cx'.catalog)
    (hstrict : cx.config.strict = cx'.config.strict) (depth : Nat) :
    rowAt cx depth = rowAt cx' depth := by
  have hcolumns : catalogColumns cx = catalogColumns cx' := by
    funext entity
    unfold catalogColumns
    rw [hcatalog, hstrict]
  induction depth with
  | zero => rfl
  | succ depth ih =>
    funext entity
    unfold rowAt
    rw [hcolumns, ih, hcatalog]

/-- A row depends on the policy through its key only. -/
theorem computedRow_congr {catalog : Catalog} {config config' : Config} {entity entity' : String}
    (h : Context.rowKey ⟨config, catalog⟩ entity = Context.rowKey ⟨config', catalog⟩ entity') :
    computedRow catalog config entity = computedRow catalog config' entity' := by
  injection h with hentity hdepth hstrict
  have hrow := rowAt_congr ⟨config, catalog⟩ ⟨config', catalog⟩ rfl hstrict
  unfold computedRow
  rw [hrow, hentity]
  exact congrArg (fun depth => (runFrom (rowAt _ depth entity') {}).1) hdepth

/-- Every kept row is the one that is computed under its key. -/
def RowCache.Sound (catalog : Catalog) (rows : RowCache) : Prop :=
  ∀ config entity row, rows.find? (Context.rowKey ⟨config, catalog⟩ entity) = some row →
    computedRow catalog config entity = .ok row

theorem RowCache.sound_nil (catalog : Catalog) : RowCache.Sound catalog [] := by
  intro config entity row h
  exact absurd h (by simp [RowCache.find?])

theorem RowCache.Sound.kept {catalog : Catalog} {rows : RowCache} (h : rows.Sound catalog)
    {config : Config} {entity : String} {row : Ty}
    (hrow : computedRow catalog config entity = .ok row) :
    RowCache.Sound catalog (rows ++ [(Context.rowKey ⟨config, catalog⟩ entity, row)]) := by
  intro config' entity' row' hfind
  unfold RowCache.find? at hfind
  rw [List.lookup_append, Option.or_eq_some_iff] at hfind
  rcases hfind with hold | ⟨-, hnew⟩
  · exact h config' entity' row' hold
  · -- the new row may be asked for under another policy, as long as that has the same key
    rw [List.lookup_cons] at hnew
    by_cases hkey : Context.rowKey ⟨config', catalog⟩ entity' =
      Context.rowKey ⟨config, catalog⟩ entity
    · rw [hkey, beq_self_eq_true] at hnew
      rw [computedRow_congr hkey, hrow]
      exact congrArg Except.ok (Option.some.inj hnew)
    · rw [beq_eq_false_iff_ne.2 hkey] at hnew
      exact absurd hnew (by simp)

/-! ## Runs on sound rows -/

/-- Runs that may find different rows kept, all of them sound. They return the same value or fail
for the same reason. -/
def sharedRows (catalog : Catalog) : Discipline :=
  .together (fun p q => p.rows.Sound catalog ∧ q.rows.Sound catalog) fun _ _ _ h => h

/-- On sound rows an entity has the row that is computed from nothing, and the rows stay sound. -/
theorem runFrom_entityRow_sound {cx : Context} {entity : String}
    (h : (sharedRows cx.catalog).Alike (rowAt cx cx.config.maxDepth entity)
      (rowAt cx cx.config.maxDepth entity))
    (hdepth : cx.config.maxDepth ≠ 0) {p : Progress} (hp : p.rows.Sound cx.catalog) :
    (runFrom (entityRow cx entity) p).1 = computedRow cx.catalog cx.config entity ∧
      (runFrom (entityRow cx entity) p).2.rows.Sound cx.catalog := by
  cases hfind : p.rows.find? (cx.rowKey entity) with
  | some row =>
    rw [runFrom_entityRow_hit cx hdepth hfind]
    exact ⟨(hp cx.config entity row hfind).symm, hp⟩
  | none =>
    -- computing the row from here is compared with computing it from nothing
    have hends := h.ends (q := {}) ⟨hp, RowCache.sound_nil cx.catalog⟩
    obtain ⟨hresult, hafter, -⟩ := Discipline.matches_together_iff.1 hends
    rcases hrow : runFrom (rowAt cx cx.config.maxDepth entity) p with ⟨r, q⟩
    rw [hrow] at hresult hafter
    cases r with
    | ok row =>
      rw [runFrom_entityRow_ok cx hdepth hfind hrow]
      exact ⟨hresult, hafter.kept hresult.symm⟩
    | error e =>
      rw [runFrom_entityRow_error cx hdepth hfind hrow]
      exact ⟨hresult, hafter⟩

theorem covers_sharedRows (cx : Context) :
    (sharedRows cx.catalog).Covers cx cx.config.strict cx.config.strict where
  toCoversRows := Discipline.coversRows_self _ cx
  entityRow entity h := by
    rw [cx.strictly_self] at h ⊢
    refine ⟨grows_entityRow cx h.grows_left, grows_entityRow cx h.grows_right, ?_⟩
    rintro p q ⟨hp, hq⟩
    by_cases hdepth : cx.config.maxDepth = 0
    · rw [entityRow_zero cx hdepth]
      exact .ok ⟨hp, hq⟩
    · obtain ⟨hl, hlsound⟩ := runFrom_entityRow_sound h hdepth hp
      obtain ⟨hr, hrsound⟩ := runFrom_entityRow_sound h hdepth hq
      exact Discipline.matches_together_iff.2 ⟨hl.trans hr.symm, hlsound, hrsound⟩

/-! ## Sessions -/

/-- Every row that is kept stays as it is. -/
def RowCache.KeptIn (rows rows' : RowCache) : Prop :=
  ∀ key row, rows.find? key = some row → rows'.find? key = some row

theorem RowCache.keptIn_of_prefix {rows rows' : RowCache} (h : rows <+: rows') :
    rows.KeptIn rows' := by
  intro key row hfind
  obtain ⟨more, rfl⟩ := h
  unfold RowCache.find? at hfind ⊢
  rw [List.lookup_append, hfind, Option.some_or]

/-- A task on sound rows answers as on none, and leaves more rows, all sound. -/
theorem Task.run_sound (catalog : Catalog) (config : Config) (task : Task) {rows : RowCache}
    (h : rows.Sound catalog) :
    (task.run catalog config rows).result = (task.run catalog config []).result ∧
      rows.KeptIn (task.run catalog config rows).rows ∧
      (task.run catalog config rows).rows.Sound catalog := by
  have halike := (covers_sharedRows ⟨config, catalog⟩).task task
  have hends := halike.ends (p := { rows }) (q := {}) ⟨h, RowCache.sound_nil catalog⟩
  obtain ⟨hresult, hsound, -⟩ := Discipline.matches_together_iff.1 hends
  exact ⟨hresult, RowCache.keptIn_of_prefix (halike.grows_left { rows }).rows, hsound⟩

theorem runSession_sound (catalog : Catalog) (steps : List (Config × Task)) {rows : RowCache}
    (h : rows.Sound catalog) :
    (runSession catalog rows steps).map Report.result =
        steps.map (fun step => (step.2.run catalog step.1 []).result) ∧
      List.IsChain RowCache.KeptIn (rows :: (runSession catalog rows steps).map Report.rows) ∧
      ∀ report ∈ runSession catalog rows steps, report.rows.Sound catalog := by
  induction steps generalizing rows with
  | nil => exact ⟨rfl, .singleton rows, fun _ hmem => absurd hmem List.not_mem_nil⟩
  | cons step rest ih =>
    obtain ⟨config, task⟩ := step
    obtain ⟨hresult, hkept, hsound⟩ := task.run_sound catalog config h
    -- the rest of the session starts from what the task has left
    obtain ⟨hresults, hchain, hsounds⟩ := ih hsound
    refine ⟨?_, ?_, ?_⟩
    · rw [runSession, List.map_cons, List.map_cons, hresults, hresult]
    · exact .cons_cons hkept hchain
    · intro report hmem
      rcases List.mem_cons.1 hmem with rfl | hmem
      · exact hsound
      · exact hsounds report hmem

/-- Kept rows do not show: in a session that starts with none, every task returns what it returns on
its own, every row that is kept stays as it is from task to task, and no row is ever kept under a
key for which the computation fails. -/
theorem runSession_transparent (catalog : Catalog) (steps : List (Config × Task)) :
    (runSession catalog [] steps).map Report.result =
        steps.map (fun step => (step.2.run catalog step.1 []).result) ∧
      List.IsChain RowCache.KeptIn ([] :: (runSession catalog [] steps).map Report.rows) ∧
      ∀ report ∈ runSession catalog [] steps, ∀ config entity error,
        computedRow catalog config entity = .error error →
          report.rows.find? (Context.rowKey ⟨config, catalog⟩ entity) = none := by
  obtain ⟨hresults, hchain, hsound⟩ := runSession_sound catalog steps (RowCache.sound_nil catalog)
  refine ⟨hresults, hchain, ?_⟩
  intro report hmem config entity error herror
  cases hfind : report.rows.find? (Context.rowKey ⟨config, catalog⟩ entity) with
  | none => rfl
  | some row =>
    have hok := hsound report hmem config entity row hfind
    exact absurd (hok.symm.trans herror) (by simp)

/-- A strict task on an entity that the catalog does not have, after a lenient one that kept a row
of the same entity. -/
theorem runSession_transparent_unknown_entity :
    let steps : List (Config × Task) :=
      [({}, .infer [] (.staticCall "User" "get" [])),
        ({ strict := true }, .infer [] (.staticCall "User" "get" []))]
    computedRow {} { strict := true } "User" =
        .error (.catalog "User" (.unknownEntity "User")) ∧
      (runSession {} [] steps).map Report.result =
        steps.map (fun step => (step.2.run {} step.1 []).result) ∧
      ∀ report ∈ runSession {} [] steps, report.rows.find? ⟨"User", defaultDepth, true⟩ = none := by
  intro steps
  have herror : computedRow {} { strict := true } "User" =
      .error (.catalog "User" (.unknownEntity "User")) := by rfl
  obtain ⟨hresults, -, hfailed⟩ := runSession_transparent {} steps
  exact ⟨herror, hresults, fun report hmem =>
    hfailed report hmem { strict := true } "User" _ herror⟩

end QueryTypes
