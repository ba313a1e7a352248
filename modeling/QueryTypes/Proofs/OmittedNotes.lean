import QueryTypes.Proofs.RowCache
import QueryTypes.Proofs.Rows.ClosedForm

/-!
# Notes behind kept rows

A row that is kept is returned without the notes that were recorded when it was computed. So the
notes of a task depend on what ran before it in the session, and this module says how far: they are
the notes that the task records on its own, without some that an earlier task of the session has
recorded (`runSession_notes`). Only failures to read the catalog can be left out, only under a
lenient policy, and only if the earlier task had the same depth. That some are in fact left out is
`runSession_notes_kept_row`.

Computing a row has one outcome, whatever the state it starts from (`runFrom_rowAt`). A task on kept
rows is compared with the same task on none (`Trails`): it has found at least the rows that the
other has, and its notes are those of the other but for notes behind rows that were kept before.
From this one step the session follows by induction, with every kept row backed by the reports so
far (`RowCache.Backed`).
-/

set_option autoImplicit false

namespace QueryTypes

/-! ## Left out notes -/

/-- The second list is the first one without some notes, each of which may be left out. -/
inductive Omits (P : Note → Prop) : List Note → List Note → Prop
  | nil : Omits P [] []
  | keep (n : Note) {all some : List Note} : Omits P all some → Omits P (n :: all) (n :: some)
  | skip {n : Note} {all some : List Note} : P n → Omits P all some → Omits P (n :: all) some

namespace Omits

variable {P : Note → Prop}

theorem refl (notes : List Note) : Omits P notes notes := by
  induction notes with
  | nil => exact .nil
  | cons n rest ih => exact .keep n ih

theorem append {all some more less : List Note} (h : Omits P all some) (h' : Omits P more less) :
    Omits P (all ++ more) (some ++ less) := by
  induction h with
  | nil => exact h'
  | keep n _ ih => exact .keep n ih
  | skip hn _ ih => exact .skip hn ih

theorem nil_right {notes : List Note} (h : ∀ n ∈ notes, P n) : Omits P notes [] := by
  induction notes with
  | nil => exact .nil
  | cons n rest ih =>
    rw [List.forall_mem_cons] at h
    exact .skip h.1 (ih h.2)

theorem eq_of_forall_not {all some : List Note} (h : Omits P all some) (hP : ∀ n, ¬ P n) :
    some = all := by
  induction h with
  | nil => rfl
  | keep n _ ih => rw [ih]
  | skip hn _ _ => exact absurd hn (hP _)

end Omits

/-- The note of a catalog that could not be read. -/
def Note.IsOutage (n : Note) : Prop := ∃ source, n.cause = .catalogUnavailable source

/-! ## Computing a row -/

/-- The state with more notes. -/
def Progress.annotated (p : Progress) (notes : List Note) : Progress :=
  { p with notes := p.notes ++ notes }

@[simp] theorem Progress.annotated_nil (p : Progress) : p.annotated [] = p := by
  simp [annotated]

/-- Runs from a state and from nothing that keep no rows and add the same notes. -/
def reciting (start : Progress) : Discipline :=
  .together (fun p q => p = start.annotated q.notes ∧ q.rows = []) (by
    rintro _ q n ⟨rfl, hrows⟩
    refine ⟨?_, hrows⟩
    simp [Progress.annotated, Progress.noted])

/-- The notes that computing the row of an entity adds. -/
def rowNotes (catalog : Catalog) (config : Config) (entity : String) : List Note :=
  (runFrom (rowAt ⟨config, catalog⟩ config.maxDepth entity) {}).2.notes

/-- Computing a row has one outcome, whatever the state it starts from. -/
theorem runFrom_rowAt (cx : Context) (entity : String) (p : Progress) :
    runFrom (rowAt cx cx.config.maxDepth entity) p =
      (computedRow cx.catalog cx.config entity,
        p.annotated (rowNotes cx.catalog cx.config entity)) := by
  have halike := ((reciting p).coversRows_self cx).rowAt cx.config.maxDepth entity
  rw [cx.strictly_self] at halike
  have hends := halike.ends (p := p) (q := {}) ⟨p.annotated_nil.symm, rfl⟩
  obtain ⟨hresult, hstate, -⟩ := Discipline.matches_together_iff.1 hends
  exact Prod.ext hresult hstate

theorem outage_of_mem_rowNotes {catalog : Catalog} {config : Config} {entity : String} {n : Note}
    (hn : n ∈ rowNotes catalog config entity) : config.strict = false ∧ n.IsOutage := by
  let C : Conduct := .noting (fun n => config.strict = false ∧ n.IsOutage) fun _ => True
  have hcolumns : C.ReadsColumns ⟨config, catalog⟩ := fun _ source _ =>
    ⟨fun _ => trivial, fun hlenient => Conduct.records_noting _ fun _ => ⟨hlenient, source, rfl⟩⟩
  obtain ⟨-, ⟨notes, hnotes, houtages⟩, -⟩ := hcolumns.rowAt config.maxDepth entity {} trivial
  rw [rowNotes, hnotes] at hn
  exact houtages n hn

/-- The notes behind a row depend on the policy through its key only. -/
theorem rowNotes_congr {catalog : Catalog} {config config' : Config} {entity entity' : String}
    (h : Context.rowKey ⟨config, catalog⟩ entity = Context.rowKey ⟨config', catalog⟩ entity') :
    rowNotes catalog config entity = rowNotes catalog config' entity' := by
  injection h with hentity hdepth hstrict
  have hrow := rowAt_congr ⟨config, catalog⟩ ⟨config', catalog⟩ rfl hstrict
  rw [rowNotes, rowNotes, hrow, hentity]
  exact congrArg (fun depth => (runFrom (rowAt _ depth entity') {}).2.notes) hdepth

/-! ## Backed rows -/

/-- Two policies under which rows are kept in common. -/
def Config.SharesRows (config config' : Config) : Prop :=
  config.maxDepth = config'.maxDepth ∧ config.strict = config'.strict

/-- The notes behind every kept row have been seen under its policy. -/
def RowCache.Backed (catalog : Catalog) (seen : Config → Note → Prop) (rows : RowCache) : Prop :=
  ∀ config entity row, rows.find? (Context.rowKey ⟨config, catalog⟩ entity) = some row →
    ∀ n ∈ rowNotes catalog config entity, seen config n

theorem RowCache.find?_kept_eq_none {rows : RowCache} {key key' : RowKey} {row : Ty} :
    RowCache.find? (rows ++ [(key, row)]) key' = none ↔ rows.find? key' = none ∧ key' ≠ key := by
  rw [RowCache.find?_kept, Option.or_eq_none_iff, ite_eq_right_iff]
  simp

/-! ## A run behind another -/

/-- The first run started without rows, the second one with some. The second has found at least the
rows that the first has, and its notes are those of the first, but for notes behind rows that only
the second had. -/
structure Trails (cx : Context) (seen : Config → Note → Prop) (p q : Progress) : Prop where
  sound_left : p.rows.Sound cx.catalog
  sound_right : q.rows.Sound cx.catalog
  found : ∀ entity, q.rows.find? (cx.rowKey entity) = none → p.rows.find? (cx.rowKey entity) = none
  ahead : ∀ entity, p.rows.find? (cx.rowKey entity) = none →
    q.rows.find? (cx.rowKey entity) ≠ none → ∀ n ∈ rowNotes cx.catalog cx.config entity,
      seen cx.config n
  notes : Omits (fun n => cx.config.strict = false ∧ n.IsOutage ∧ seen cx.config n) p.notes q.notes
  backed : q.rows.Backed cx.catalog fun config n =>
    seen config n ∨ (cx.config.SharesRows config ∧ n ∈ q.notes)

namespace Trails

variable {cx : Context} {seen : Config → Note → Prop} {p q : Progress} {entity : String} {row : Ty}

theorem start {rows : RowCache} (hsound : rows.Sound cx.catalog)
    (hbacked : rows.Backed cx.catalog seen) : Trails cx seen {} { rows } where
  sound_left := RowCache.sound_nil cx.catalog
  sound_right := hsound
  found _ _ := rfl
  ahead entity _ hfind := by
    obtain ⟨row, hrow⟩ := Option.ne_none_iff_exists'.1 hfind
    exact hbacked cx.config entity row hrow
  notes := .nil
  backed config entity row hrow n hn := .inl (hbacked config entity row hrow n hn)

theorem annotated (h : Trails cx seen p q) (notes : List Note) :
    Trails cx seen (p.annotated notes) (q.annotated notes) where
  sound_left := h.sound_left
  sound_right := h.sound_right
  found := h.found
  ahead := h.ahead
  notes := h.notes.append (.refl notes)
  backed config entity row hrow n hn := by
    rcases h.backed config entity row hrow n hn with hseen | ⟨hshares, hmem⟩
    · exact .inl hseen
    · exact .inr ⟨hshares, List.mem_append_left _ hmem⟩

/-- Both runs keep a row whose notes the second one has. -/
theorem kept (h : Trails cx seen p q) (hrow : computedRow cx.catalog cx.config entity = .ok row)
    (hnotes : ∀ n ∈ rowNotes cx.catalog cx.config entity, n ∈ q.notes) :
    Trails cx seen (p.kept (cx.rowKey entity) row) (q.kept (cx.rowKey entity) row) where
  sound_left := h.sound_left.kept hrow
  sound_right := h.sound_right.kept hrow
  found entity' hnone := by
    obtain ⟨hnone, hkey⟩ := RowCache.find?_kept_eq_none.1 hnone
    exact RowCache.find?_kept_eq_none.2 ⟨h.found entity' hnone, hkey⟩
  ahead entity' hnone hfind := by
    obtain ⟨hnone, hkey⟩ := RowCache.find?_kept_eq_none.1 hnone
    apply h.ahead entity' hnone
    intro hmissing
    exact hfind (RowCache.find?_kept_eq_none.2 ⟨hmissing, hkey⟩)
  notes := h.notes
  backed config entity' row' hfind n hn := by
    have hfind : RowCache.find? (q.rows ++ [(cx.rowKey entity, row)])
        (Context.rowKey ⟨config, cx.catalog⟩ entity') = some row' := hfind
    rw [RowCache.find?_kept, Option.or_eq_some_iff] at hfind
    rcases hfind with hold | ⟨-, hnew⟩
    · exact h.backed config entity' row' hold n hn
    · -- the new row stands under the key of this run, and the run has recorded its notes
      obtain ⟨hkey, -⟩ := Option.ite_none_right_eq_some.1 hnew
      have hsame : rowNotes cx.catalog config entity' = rowNotes cx.catalog cx.config entity :=
        rowNotes_congr hkey
      rw [hsame] at hn
      injection hkey with _ hdepth hstrict
      exact .inr ⟨⟨hdepth.symm, hstrict.symm⟩, hnotes n hn⟩

/-- The first run computes a row that the second one had. -/
theorem computed (h : Trails cx seen p q) (hleft : p.rows.find? (cx.rowKey entity) = none)
    (hright : q.rows.find? (cx.rowKey entity) = some row) :
    Trails cx seen
      ((p.annotated (rowNotes cx.catalog cx.config entity)).kept (cx.rowKey entity) row) q where
  sound_left := h.sound_left.kept (h.sound_right cx.config entity row hright)
  sound_right := h.sound_right
  found entity' hnone := by
    refine RowCache.find?_kept_eq_none.2 ⟨h.found entity' hnone, ?_⟩
    intro hkey
    rw [hkey, hright] at hnone
    cases hnone
  ahead entity' hnone hfind := h.ahead entity' (RowCache.find?_kept_eq_none.1 hnone).1 hfind
  notes := by
    have hskipped : Omits (fun n => cx.config.strict = false ∧ n.IsOutage ∧ seen cx.config n)
        (rowNotes cx.catalog cx.config entity) [] := by
      apply Omits.nil_right
      intro n hn
      obtain ⟨hlenient, houtage⟩ := outage_of_mem_rowNotes hn
      exact ⟨hlenient, houtage, h.ahead entity hleft (by rw [hright]; simp) n hn⟩
    have hnotes := h.notes.append hskipped
    rwa [List.append_nil] at hnotes
  backed := h.backed

end Trails

/-- A run on no rows and one on rows that were kept before. -/
def trailing (cx : Context) (seen : Config → Note → Prop) : Discipline :=
  .together (Trails cx seen) fun _ _ n h => h.annotated [n]

/-- Looking up a row keeps the second run behind the first. -/
theorem matches_entityRow {cx : Context} {seen : Config → Note → Prop} (entity : String)
    {p q : Progress} (h : Trails cx seen p q) :
    (trailing cx seen).Matches (runFrom (entityRow cx entity) p)
      (runFrom (entityRow cx entity) q) := by
  by_cases hdepth : cx.config.maxDepth = 0
  · rw [entityRow_zero cx hdepth]
    exact .ok h
  · cases hright : q.rows.find? (cx.rowKey entity) with
    | none =>
      -- neither run has the row, so both compute it
      have hleft := h.found entity hright
      have hp := runFrom_rowAt cx entity p
      have hq := runFrom_rowAt cx entity q
      have hnoted := h.annotated (rowNotes cx.catalog cx.config entity)
      cases hrow : computedRow cx.catalog cx.config entity with
      | ok row =>
        rw [hrow] at hp hq
        rw [runFrom_entityRow_ok cx hdepth hleft hp, runFrom_entityRow_ok cx hdepth hright hq]
        exact .ok (hnoted.kept hrow fun n hn => List.mem_append_right _ hn)
      | error e =>
        rw [hrow] at hp hq
        rw [runFrom_entityRow_error cx hdepth hleft hp, runFrom_entityRow_error cx hdepth hright hq]
        exact Discipline.matches_together_iff.2 ⟨rfl, hnoted⟩
    | some row =>
      have hrow := h.sound_right cx.config entity row hright
      rw [runFrom_entityRow_hit cx hdepth hright]
      cases hleft : p.rows.find? (cx.rowKey entity) with
      | some row' =>
        rw [runFrom_entityRow_hit cx hdepth hleft]
        have hrow' := h.sound_left cx.config entity row' hleft
        obtain rfl : row' = row := Except.ok.inj (hrow'.symm.trans hrow)
        exact .ok h
      | none =>
        have hp := runFrom_rowAt cx entity p
        rw [hrow] at hp
        rw [runFrom_entityRow_ok cx hdepth hleft hp]
        exact .ok (h.computed hleft hright)

theorem covers_trailing (cx : Context) (seen : Config → Note → Prop) :
    (trailing cx seen).Covers cx cx.config.strict cx.config.strict where
  toCoversRows := Discipline.coversRows_self _ cx
  entityRow entity h := by
    rw [cx.strictly_self] at h ⊢
    exact ⟨grows_entityRow cx h.grows_left, grows_entityRow cx h.grows_right,
      matches_entityRow entity⟩

/-! ## Sessions -/

/-- A step of a session and what was reported about it. -/
abbrev SessionEntry := (Config × Task) × Report (Except InferError (Option Ty))

/-- A note was reported under a policy that shares its rows with this one. -/
def ReportedIn (history : List SessionEntry) (config : Config) (n : Note) : Prop :=
  ∃ entry ∈ history, entry.1.1.SharesRows config ∧ n ∈ entry.2.notes

/-- A task on backed rows leaves out notes that have been seen, and its own rows are backed by what
has been seen and what it reports. -/
theorem Task.run_trails (catalog : Catalog) (config : Config) (task : Task) {rows : RowCache}
    {seen : Config → Note → Prop} (hsound : rows.Sound catalog)
    (hbacked : rows.Backed catalog seen) :
    Omits (fun n => config.strict = false ∧ n.IsOutage ∧ seen config n)
        (task.run catalog config []).notes (task.run catalog config rows).notes ∧
      (task.run catalog config rows).rows.Backed catalog fun config' n =>
        seen config' n ∨
          (config.SharesRows config' ∧ n ∈ (task.run catalog config rows).notes) := by
  have halike := (covers_trailing ⟨config, catalog⟩ seen).task task
  have hends := halike.ends (p := {}) (q := { rows }) (Trails.start hsound hbacked)
  obtain ⟨-, htrails⟩ := Discipline.matches_together_iff.1 hends
  exact ⟨htrails.notes, htrails.backed⟩

/-- The rows that are known after some steps. -/
def rowsAfter (catalog : Catalog) (rows : RowCache) (steps : List (Config × Task)) : RowCache :=
  steps.foldl (fun rows step => (step.2.run catalog step.1 rows).rows) rows

theorem runSession_append (catalog : Catalog) (before after : List (Config × Task))
    (rows : RowCache) :
    runSession catalog rows (before ++ after) =
      runSession catalog rows before ++
        runSession catalog (rowsAfter catalog rows before) after := by
  induction before generalizing rows with
  | nil => rfl
  | cons step rest ih =>
    rw [List.cons_append, runSession, runSession, ih]
    rfl

theorem reportedIn_cons {entry : SessionEntry} {history : List SessionEntry} {config : Config}
    {n : Note} :
    ReportedIn (entry :: history) config n ↔
      (entry.1.1.SharesRows config ∧ n ∈ entry.2.notes) ∨ ReportedIn history config n := by
  simp [ReportedIn]

/-- After some steps every kept row is sound and backed by the reports. -/
theorem backed_rowsAfter (catalog : Catalog) (steps : List (Config × Task)) {rows : RowCache}
    {seen : Config → Note → Prop} (hsound : rows.Sound catalog)
    (hbacked : rows.Backed catalog seen) :
    (rowsAfter catalog rows steps).Sound catalog ∧
      (rowsAfter catalog rows steps).Backed catalog fun config n =>
        seen config n ∨ ReportedIn (steps.zip (runSession catalog rows steps)) config n := by
  induction steps generalizing rows seen with
  | nil =>
    exact ⟨hsound, fun config entity row hrow n hn => .inl (hbacked config entity row hrow n hn)⟩
  | cons step rest ih =>
    obtain ⟨config, task⟩ := step
    obtain ⟨-, -, hsound'⟩ := task.run_sound catalog config hsound
    obtain ⟨-, hbacked'⟩ := task.run_trails catalog config hsound hbacked
    -- the rest of the session has seen what this step reports
    obtain ⟨hrest, hrestBacked⟩ := ih hsound' hbacked'
    refine ⟨hrest, ?_⟩
    intro config' entity row hrow n hn
    rw [runSession, List.zip_cons_cons, reportedIn_cons, ← or_assoc]
    exact hrestBacked config' entity row hrow n hn

/-- The notes of a step of a session are those that its task records on its own, without some
failures to read the catalog that the session has reported before, in a step of the same depth, and
that neither step takes for an error. If there is no such report, no note is left out. -/
theorem runSession_notes (catalog : Catalog) (before after : List (Config × Task)) (config : Config)
    (task : Task) :
    ∃ report later,
      runSession catalog [] (before ++ (config, task) :: after) =
          runSession catalog [] before ++ report :: later ∧
        Omits (fun n => config.strict = false ∧ n.IsOutage ∧
            ReportedIn (before.zip (runSession catalog [] before)) config n)
          (task.run catalog config []).notes report.notes ∧
        ((config.strict = true ∨ ∀ n, n.IsOutage →
            ¬ ReportedIn (before.zip (runSession catalog [] before)) config n) →
          report.notes = (task.run catalog config []).notes) := by
  have hnone : RowCache.Backed catalog (fun _ _ => False) [] := by
    intro config entity row hrow
    exact absurd hrow (by simp [RowCache.find?])
  obtain ⟨hsound, hbacked⟩ := backed_rowsAfter catalog before (RowCache.sound_nil catalog) hnone
  simp only [false_or] at hbacked
  obtain ⟨homits, -⟩ := task.run_trails catalog config hsound hbacked
  refine ⟨_, _, runSession_append catalog before _ [], homits, ?_⟩
  intro hclear
  apply homits.eq_of_forall_not
  rintro n ⟨hlenient, houtage, hreported⟩
  rcases hclear with hstrict | hclear
  · rw [hstrict] at hlenient
    cases hlenient
  · exact hclear n houtage hreported

/-- The same task twice on an entity that the catalog does not have: the second time the row is
kept, and the step has no note, although its task records one on its own. -/
theorem runSession_notes_kept_row :
    let task : Task := .infer [] (.staticCall "User" "get" [])
    let outage : Note := ⟨some "User", .catalogUnavailable (.unknownEntity "User")⟩
    (runSession {} [] [({}, task), ({}, task)]).map Report.notes = [[outage], []] ∧
      (task.run {} {} []).notes = [outage] := by
  decide +kernel

/-- The same task to another depth: the row is computed again, and the failure is reported again. -/
theorem runSession_notes_other_depth :
    let task : Task := .infer [] (.staticCall "User" "get" [])
    let before : List (Config × Task) := [({}, task)]
    let outage : Note := ⟨some "User", .catalogUnavailable (.unknownEntity "User")⟩
    ∃ report later,
      runSession {} [] (before ++ [({ maxDepth := 2 }, task)]) =
          runSession {} [] before ++ report :: later ∧
        report.notes = [outage] := by
  intro task before outage
  obtain ⟨report, later, hsession, -, hclear⟩ :=
    runSession_notes {} before [] { maxDepth := 2 } task
  have hnotes : (task.run {} { maxDepth := 2 } []).notes = [outage] := by decide +kernel
  refine ⟨report, later, hsession, ?_⟩
  rw [← hnotes]
  apply hclear
  right
  rintro n - ⟨entry, hentry, ⟨hdepth, -⟩, -⟩
  -- the only step before had the default depth
  have hstep : entry.1 ∈ before := (List.of_mem_zip hentry).1
  rw [List.mem_singleton.1 hstep] at hdepth
  exact absurd hdepth (by decide)

end QueryTypes
