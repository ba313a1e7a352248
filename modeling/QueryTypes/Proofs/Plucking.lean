import QueryTypes.Proofs.ColumnGrammar
import QueryTypes.Proofs.Continuation
import QueryTypes.Proofs.Rows.Layout

/-!
# Plucking from a query and from its rows

A column can be plucked by the query (`pluck` as the call that runs it) or from the collection of
rows that the query gives (`get` and then `pluck`). The first looks the column up in the catalog,
the second in the row. Where both can tell, they say the same (`infer_pluck_get`): if the columns
have distinct names, a row has under each name that the entity shows the type that the column has by
itself (`concludes_refType_of_rowAt`), and a name that is a single identifier means the same to both
(`ColumnRef.ofString_of_isIdent`, `fieldAt_of_isIdent`).

They differ where an argument names no column: see `infer_pluck_get_mixed`.
-/

set_option autoImplicit false

namespace QueryTypes

/-! ## Identifiers -/

/-- The spelling of an identifier by itself. -/
def ColumnRef.Spelling.ofIdent (name : List Char) (h : isIdent name = true) : Spelling where
  lead := []
  table := none
  column := name
  label := none
  trail := []
  lead_blank := nofun
  table_ident := nofun
  column_name := .inr h
  trail_blank := nofun

/-- An identifier is a column without a table and without an alias. -/
theorem ColumnRef.ofString_of_isIdent {name : String} (h : isIdent name.toList = true) :
    ofString name = .column none name none := by
  have htext : (Spelling.ofIdent name.toList h).text = name := by
    simp [Spelling.ofIdent, Spelling.text, Spelling.ending]
  have hplain := plain?_text (Spelling.ofIdent name.toList h)
  rw [htext] at hplain
  rw [ofString, hplain]
  simp [Spelling.ofIdent, Spelling.ref]

theorem Text.splitChars_of_not_mem {sep : Char} {cs : List Char} (h : sep ∉ cs) :
    splitChars sep cs = [cs] := by
  induction cs with
  | nil => rfl
  | cons c rest ih =>
    rw [List.mem_cons, not_or] at h
    rw [splitChars, ih h.2]
    have hc : (c == sep) = false := beq_eq_false_iff_ne.2 fun heq => h.1 heq.symm
    simp only [hc, Bool.false_eq_true, if_false]

/-- An identifier is a path of one name. -/
theorem fieldAt_of_isIdent {name : String} (h : ColumnRef.isIdent name.toList = true) (t : Ty) :
    Collection.fieldAt t name = t.field name := by
  have hdot : '.' ∉ name.toList := by
    intro hmem
    have hword : Text.isWordChar '.' = true := by
      cases hcs : name.toList with
      | nil =>
        rw [hcs] at hmem
        cases hmem
      | cons c rest =>
        rw [hcs] at h hmem
        rw [ColumnRef.isIdent, Bool.and_eq_true] at h
        rcases List.mem_cons.1 hmem with heq | hmem
        · rw [heq]
          exact Text.isWordChar_of_isIdentStart c h.1
        · exact List.all_eq_true.1 h.2 _ hmem
    exact absurd hword (by decide)
  rw [Collection.fieldAt, Text.splitOn, Text.splitChars_of_not_mem hdot, List.map_singleton,
    String.ofList_toList]
  rfl

/-! ## Columns of a row -/

/-- Columns of distinct names are found under their names, and nothing else is. -/
theorem get?_of_foldlM_put {type : Column → Except InferError Ty} {columns : List Column}
    (hdistinct : (columns.map Column.name).Nodup) {props out : Entries Ty}
    (h : columns.foldlM (fun props c => type c >>= fun t => .ok (Entries.put props c.name t))
      props = .ok out) :
    (∀ c ∈ columns, ∃ t, type c = .ok t ∧ out.get? c.name = some t) ∧
      ∀ name, name ∉ columns.map Column.name → out.get? name = props.get? name := by
  induction columns generalizing props with
  | nil =>
    obtain rfl := Except.ok.inj h
    exact ⟨fun c hc => absurd hc List.not_mem_nil, fun name _ => rfl⟩
  | cons first rest ih =>
    rw [List.foldlM_cons] at h
    rw [List.map_cons, List.nodup_cons] at hdistinct
    cases htype : type first with
    | error e =>
      rw [htype] at h
      cases h
    | ok t =>
      rw [htype] at h
      obtain ⟨hrest, hother⟩ := ih hdistinct.2 h
      constructor
      · intro c hc
        rcases List.mem_cons.1 hc with rfl | hc
        · -- no later column takes its place
          refine ⟨t, htype, ?_⟩
          rw [hother c.name hdistinct.1, Entries.get?_put_self]
        · exact hrest c hc
      · intro name hname
        rw [List.map_cons, List.mem_cons, not_or] at hname
        rw [hother name hname.2, Entries.get?_put_of_ne _ _ fun heq => hname.1 heq.symm]

section Lookup

variable (row : String → Infer Ty) {columns : List Column} (table : Option String) {name : String}

/-- A plain name has the type of the column of that name. -/
theorem Row.refType_of_find? {c : Column} (h : columns.find? (fun c => c.name == name) = some c) :
    refType row columns table (.column none name none) = columnType row c := by
  have htext : (ColumnRef.column none name none).text = name := rfl
  rw [refType, if_pos (by rfl), htext, h]

/-- A plain name that no column has is unknown. -/
theorem Row.refType_of_find?_none (h : columns.find? (fun c => c.name == name) = none) :
    refType row columns table (.column none name none) = pure .unknown := by
  have htext : (ColumnRef.column none name none).text = name := rfl
  rw [refType, if_pos (by rfl), htext, h]

end Lookup

section Rows

variable {cx : Context} {entity : String} {p : Progress}

/-- The columns that are read are the known ones. -/
theorem eq_knownColumns_of_concludes {columns : List Column}
    (h : Concludes cx.catalog (p.rows.answer cx.catalog) (catalogColumns cx entity) (.ok columns)) :
    columns = cx.catalog.knownColumns entity := by
  have hresult := h.result rfl
  rw [catalogColumns] at hresult
  rw [Catalog.knownColumns]
  cases hcolumns : cx.catalog.columns entity with
  | ok known =>
    rw [hcolumns] at hresult
    exact (Except.ok.inj hresult).symm
  | error source =>
    rw [hcolumns] at hresult
    dsimp only at hresult
    split at hresult
    · cases hresult
    · exact (Except.ok.inj hresult).symm

/-- The type of a column is the same from all states whose rows give the same answers. -/
theorem concludes_columnType (cx : Context) (p : Progress) (depth : Nat) (c : Column) :
    Concludes cx.catalog (p.rows.answer cx.catalog) (Row.columnType (rowAt cx depth) c)
      (runFrom (Row.columnType (rowAt cx depth) c) p).1 :=
  concludes_of_alike
    (Row.columnType_alike ((covers_keptRows cx (p.rows.answer cx.catalog)).rowAt depth) c)

/-- A row that can be computed holds the columns that the entity shows, each with its own type. -/
theorem exists_puts_of_rowAt {depth : Nat} {row : Ty}
    (hrow : Concludes cx.catalog (p.rows.answer cx.catalog) (rowAt cx (depth + 1) entity)
      (.ok row)) :
    ∃ columns props,
      Concludes cx.catalog (p.rows.answer cx.catalog) (catalogColumns cx entity) (.ok columns) ∧
      row = .object props (some entity) ∧
      (columns.filter fun c => (cx.catalog.visibility entity).allows c.name).foldlM (fun props c =>
        (runFrom (Row.columnType (rowAt cx depth) c) p).1 >>= fun t =>
          .ok (Entries.put props c.name t)) [] = .ok props := by
  have halike := (covers_keptRows cx (p.rows.answer cx.catalog)).catalogColumns entity
  rcases concludes_cases halike with ⟨columns, -, hcolumns⟩ | ⟨e, hfails⟩
  · let shown := columns.filter fun c => (cx.catalog.visibility entity).allows c.name
    have hfold : Concludes cx.catalog (p.rows.answer cx.catalog)
        (Row.putAll (rowAt cx depth) (.of cx.catalog entity columns) []) _ :=
      .foldlM shown (fun props c => (concludes_columnType cx p depth c).bind fun t _ =>
        .pure (Entries.put props c.name t)) []
    have hobject : Concludes cx.catalog (p.rows.answer cx.catalog)
        (rowAt cx (depth + 1) entity) _ :=
      hcolumns.bind_ok (hfold.bind fun props _ => .pure (Ty.object props (some entity)))
    have hprops := (hrow.result rfl).symm.trans (hobject.result rfl)
    cases hputs : shown.foldlM (fun props c => (runFrom (Row.columnType (rowAt cx depth) c) p).1 >>=
        fun t => .ok (Entries.put props c.name t)) [] with
    | error e =>
      rw [hputs] at hprops
      cases hprops
    | ok props =>
      rw [hputs] at hprops
      exact ⟨columns, props, hcolumns, Except.ok.inj hprops, hputs⟩
  · -- without its columns the entity has no row
    have hnone := hfails.bind_error (f := fun columns =>
      Row.project (rowAt cx depth) (.of cx.catalog entity columns) entity .everything)
    cases (hrow.result rfl).symm.trans (hnone.result rfl)

/-- A row that can be computed has, under every name that the entity shows, what the column of that
name has by itself. -/
theorem concludes_refType_of_rowAt {depth : Nat} {row : Ty}
    (hdistinct : ((cx.catalog.knownColumns entity).map Column.name).Nodup)
    (hrow : Concludes cx.catalog (p.rows.answer cx.catalog) (rowAt cx (depth + 1) entity)
      (.ok row)) :
    ∃ columns props,
      Concludes cx.catalog (p.rows.answer cx.catalog) (catalogColumns cx entity) (.ok columns) ∧
      row = .object props (some entity) ∧
      ∀ name, (cx.catalog.visibility entity).allows name = true →
        Concludes cx.catalog (p.rows.answer cx.catalog)
          (Row.refType (rowAt cx depth) columns (cx.catalog.table? entity) (.column none name none))
          (.ok (row.field name)) := by
  obtain ⟨columns, props, hcolumns, rfl, hputs⟩ := exists_puts_of_rowAt hrow
  refine ⟨columns, props, hcolumns, rfl, ?_⟩
  intro name hallowed
  rw [← eq_knownColumns_of_concludes hcolumns] at hdistinct
  obtain ⟨hput, hother⟩ := get?_of_foldlM_put (hdistinct.sublist (List.filter_sublist.map _)) hputs
  show Concludes _ _ _ (.ok ((Entries.get? props name).getD .unknown))
  cases hfind : columns.find? fun c => c.name == name with
  | some c =>
    rw [Row.refType_of_find? (rowAt cx depth) _ hfind]
    have hname : c.name = name := by simpa using List.find?_some hfind
    obtain ⟨t, ht, hget⟩ := hput c
      (List.mem_filter.2 ⟨List.mem_of_find?_eq_some hfind, by rw [hname]; exact hallowed⟩)
    rw [← hname, hget, Option.getD_some, ← ht]
    exact concludes_columnType cx p depth c
  | none =>
    -- a name that no column has is no property of the row either
    rw [Row.refType_of_find?_none (rowAt cx depth) _ hfind, hother name]
    · exact .pure _
    · rw [List.mem_map]
      rintro ⟨c, hc, hname⟩
      exact List.find?_eq_none.1 hfind c (List.mem_of_mem_filter hc) (beq_iff_eq.2 hname)

end Rows

/-! ## Queries on whole rows -/

/-- A call that does not run the query and changes nothing about its rows. -/
def Step.KeepsRows (s : Step) : Prop :=
  isFinisher s.name = false ∧ s.name ∉ ["select", "addSelect", "with"]

theorem Selection.step_of_keepsRows (s : Selection) {call : Step} (h : call.KeepsRows) :
    s.step call = s := by
  obtain ⟨hfinisher, hname⟩ := h
  rw [step]
  split
  · next heq => simp [heq] at hname
  · next heq => simp [heq] at hname
  · next heq =>
    rw [heq] at hfinisher
    exact absurd hfinisher (by decide)
  · next heq =>
    rw [heq] at hfinisher
    exact absurd hfinisher (by decide)
  · next heq => simp [heq] at hname
  · rfl

section Query

variable {steps : List Step} (hkeeps : ∀ s ∈ steps, s.KeepsRows)

include hkeeps

theorem Selection.ofSteps_snoc_of_keepsRows {last : Step} (hlast : Selection.step {} last = {}) :
    Selection.ofSteps (steps ++ [last]) = {} := by
  have hsteps : steps.foldl Selection.step {} = {} := by
    clear hlast
    induction steps with
    | nil => rfl
    | cons first rest ih =>
      rw [List.forall_mem_cons] at hkeeps
      rw [List.foldl_cons, Selection.step_of_keepsRows _ hkeeps.1]
      exact ih hkeeps.2
  rw [Selection.ofSteps, List.foldl_append, hsteps]
  exact hlast

/-- The query ends with its only finisher. -/
theorem splitAtFinisher_snoc_of_keepsRows {last : Step} (hlast : isFinisher last.name = true) :
    splitAtFinisher (steps ++ [last]) = (steps ++ [last], []) := by
  induction steps with
  | nil => rw [List.nil_append, splitAtFinisher, if_pos hlast]
  | cons first rest ih =>
    rw [List.forall_mem_cons] at hkeeps
    rw [List.cons_append, splitAtFinisher, if_neg (by rw [hkeeps.1.1]; exact Bool.false_ne_true),
      ih hkeeps.2]

end Query

section Row

variable {cx : Context} {entity : String} {p : Progress}

/-- Without relations to load a row stays as it is. -/
theorem attachRelations_empty (cx : Context) (entity : String) (depth : Nat) (row : Ty) :
    attachRelations cx entity depth .empty row = pure row := by
  rw [RelationTree.empty, attachRelations, attachList, ite_self]

/-- A query on an entity without a selection has the row of the entity. -/
theorem concludes_resolveRow_of_whole {steps : List Step} (hdepth : cx.config.maxDepth ≠ 0)
    (hselection : Selection.ofSteps steps = {}) (hmisuse : misuse? cx steps = none) :
    Concludes cx.catalog (p.rows.answer cx.catalog) (resolveRow cx ⟨some entity, steps⟩)
      (p.rows.answer cx.catalog cx.config entity >>= fun row => .ok (some (Ty.union [row]))) := by
  have hrow : Concludes cx.catalog (p.rows.answer cx.catalog) (entityRow cx entity)
      (p.rows.answer cx.catalog cx.config entity) := by
    intro q hq
    rw [← hq]
    exact runFrom_entityRow_answer hdepth entity q
  rw [resolveRow, hmisuse]
  show Concludes _ _ (projectedRows cx entity (Selection.ofSteps steps).variants >>= fun rows =>
    rows.mapM (attachRelations cx entity cx.config.maxDepth (Selection.ofSteps steps).relations) >>=
      fun rows => pure (some (Ty.union rows))) _
  rw [hselection, projectedRows, if_pos rfl, bind_assoc]
  apply hrow.bind
  intro row _
  show Concludes _ _ ([row].mapM (attachRelations cx entity cx.config.maxDepth .empty) >>= _) _
  have hattach : Concludes cx.catalog (p.rows.answer cx.catalog)
      ([row].mapM (attachRelations cx entity cx.config.maxDepth .empty)) (.ok [row]) := by
    rw [List.mapM_cons, attachRelations_empty]
    exact .pure [row]
  exact hattach.bind_ok (.pure _)

/-- The row of such a query is the row that can be computed for the entity. -/
theorem exists_rowAt_of_resolveRow (hsound : p.rows.Sound cx.catalog) {steps : List Step}
    (hdepth : cx.config.maxDepth ≠ 0) (hselection : Selection.ofSteps steps = {}) {row : Ty}
    (h : Concludes cx.catalog (p.rows.answer cx.catalog) (resolveRow cx ⟨some entity, steps⟩)
      (.ok (some row))) :
    ∃ whole, Concludes cx.catalog (p.rows.answer cx.catalog) (rowAt cx cx.config.maxDepth entity)
      (.ok whole) ∧ row = .union [whole] := by
  cases hmisuse : misuse? cx steps with
  | some what =>
    -- what is no query has no row
    have hresult := h.result rfl
    rw [resolveRow, hmisuse] at hresult
    dsimp only at hresult
    rw [unresolved] at hresult
    split at hresult
    · cases hresult
    · cases hresult
  | none =>
    have hwhole := h.result rfl
    rw [(concludes_resolveRow_of_whole hdepth hselection hmisuse).result rfl,
      hsound.answer_eq] at hwhole
    cases hcomputed : computedRow cx.catalog cx.config entity with
    | error e =>
      rw [hcomputed] at hwhole
      cases hwhole
    | ok whole =>
      rw [hcomputed] at hwhole
      obtain rfl := Option.some.inj (Except.ok.inj hwhole)
      refine ⟨whole, ?_, rfl⟩
      intro q hq
      rw [runFrom_rowAt, hcomputed]
      exact ⟨rfl, hq⟩

end Row

/-! ## Plucked columns -/

/-- An argument that names columns, each by an identifier, and all of them shown. -/
structure Argument.NamesColumns (catalog : Catalog) (entity : String) (a : Argument) : Prop where
  nonempty : a.ty.alternatives.flatten ≠ []
  names : ∀ name ∈ a.ty.alternatives.flatten,
    ColumnRef.isIdent name.toList = true ∧ (catalog.visibility entity).allows name = true

section Pluck

variable {cx : Context} {entity : String} {p : Progress} {columns : List Column}
  {props : Entries Ty}

/-- The columns that an argument names have in the catalog the types that they have in the row. -/
theorem concludes_pluckedColumns
    (hfield : ∀ name, (cx.catalog.visibility entity).allows name = true →
      Concludes cx.catalog (p.rows.answer cx.catalog)
        (Row.refType (innerRow cx) columns (cx.catalog.table? entity) (.column none name none))
        (.ok ((Ty.object props (some entity)).field name)))
    {a : Argument} (ha : a.NamesColumns cx.catalog entity) :
    ∃ t, Collection.pluckFrom? ((Ty.object props (some entity)).withRequired false) a.ty = some t ∧
      Concludes cx.catalog (p.rows.answer cx.catalog) (pluckedColumns cx entity columns a.ty)
        (.ok (some t)) := by
  rw [pluckedColumns, Collection.pluckFrom?]
  cases hnames : a.ty.alternatives.flatten with
  | nil => exact absurd hnames ha.nonempty
  | cons first rest =>
    refine ⟨_, rfl, ?_⟩
    -- an identifier is no path, so that the row has it as a property or not at all
    let type (name : String) : Ty :=
      (Collection.fieldAt ((Ty.object props (some entity)).withRequired false)
        name).withRequired false
    have hcolumns : Concludes cx.catalog (p.rows.answer cx.catalog)
        ((first :: rest).mapM fun name => do
          let t ← Row.refType (innerRow cx) columns (cx.catalog.table? entity) (.ofString name)
          return t.withRequired false)
        ((first :: rest).mapM fun name => .ok (type name)) := by
      apply Concludes.mapM
      intro name hname
      rw [← hnames] at hname
      obtain ⟨hident, hallowed⟩ := ha.names name hname
      rw [ColumnRef.ofString_of_isIdent hident]
      apply (hfield name hallowed).bind_ok
      show Concludes _ _ _ (.ok ((Collection.fieldAt _ name).withRequired false))
      rw [fieldAt_of_isIdent hident]
      exact .pure _
    have hmap : (first :: rest).mapM (fun name => (.ok (type name) : Except InferError Ty)) =
        .ok ((first :: rest).map type) := List.mapM_pure
    rw [hmap] at hcolumns
    exact hcolumns.bind_ok (.pure _)

/-- Plucking by the query gives what plucking from its rows gives. -/
theorem concludes_finish_pluck (hdepth : cx.config.maxDepth ≠ 0)
    (hdistinct : ((cx.catalog.knownColumns entity).map Column.name).Nodup) {whole : Ty}
    (hwhole : Concludes cx.catalog (p.rows.answer cx.catalog) (rowAt cx cx.config.maxDepth entity)
      (.ok whole))
    {args : List Argument} (hargs : args ≠ [])
    (hnames : ∀ a ∈ args, a.NamesColumns cx.catalog entity) :
    ∃ t,
      Collection.pluck? ⟨(Ty.union [whole]).withRequired false, none, some collectionOrigin⟩ args =
        some t ∧
      Concludes cx.catalog (p.rows.answer cx.catalog)
        (finish cx entity ⟨"pluck", args⟩ (.union [whole]))
        (.ok (some t)) := by
  obtain ⟨depth, hdepth⟩ := Nat.exists_eq_succ_of_ne_zero hdepth
  have hinner : innerRow cx = rowAt cx depth := by
    rw [innerRow, hdepth]
    rfl
  rw [hdepth] at hwhole
  obtain ⟨columns, props, hcolumns, rfl, hfield⟩ := concludes_refType_of_rowAt hdistinct hwhole
  rw [← hinner] at hfield
  -- one object is its own union, and its properties are read as they are
  have hunion : Ty.union [.object props (some entity)] = .object props (some entity) := rfl
  rw [hunion]
  show ∃ t, _ ∧ Concludes _ _ (catalogColumns cx entity >>= fun columns =>
    pluckedArgument cx entity columns (args.map Argument.ty)[0]? >>= fun value =>
      pluckedArgument cx entity columns (args.map Argument.ty)[1]? >>= fun key =>
        pure (some ((Ty.keyed key (value.getD .unknown)).withOrigin (some collectionOrigin)))) _
  rcases args with _ | ⟨value, _ | ⟨key, rest⟩⟩
  · exact absurd rfl hargs
  · obtain ⟨t, hpluck, ht⟩ := concludes_pluckedColumns hfield (hnames value List.mem_cons_self)
    refine ⟨_, by rw [Collection.pluck?, hpluck]; rfl, ?_⟩
    apply hcolumns.bind_ok
    apply Concludes.bind_ok ht
    exact (Concludes.pure _).bind_ok (.pure _)
  · rw [List.forall_mem_cons, List.forall_mem_cons] at hnames
    obtain ⟨t, hpluck, ht⟩ := concludes_pluckedColumns hfield hnames.1
    obtain ⟨k, hpluckKey, hk⟩ := concludes_pluckedColumns hfield hnames.2.1
    refine ⟨_, by rw [Collection.pluck?, hpluck, hpluckKey]; rfl, ?_⟩
    apply hcolumns.bind_ok
    apply Concludes.bind_ok ht
    exact hk.bind_ok (.pure _)

/-- Plucking from rows that a query has fetched. -/
theorem concludes_applyStep_pluck (hdepth : cx.config.maxDepth ≠ 0) {row t : Ty}
    {args : List Argument}
    (h : Collection.pluck? ⟨row.withRequired false, none, some collectionOrigin⟩ args = some t) :
    Concludes cx.catalog (p.rows.answer cx.catalog)
      (applyStep cx ((Ty.list row).withOrigin (some collectionOrigin)) ⟨"pluck", args⟩)
      (.ok t) := by
  obtain ⟨depth, hdepth⟩ := Nat.exists_eq_succ_of_ne_zero hdepth
  have hmethod : resolveCollectionMethod cx.config.maxDepth "pluck"
      ((Ty.list row).withOrigin (some collectionOrigin)) args = pure (some t) := by
    rw [hdepth, ← h]
    rfl
  rw [applyStep, hmethod]
  exact .pure t

/-- A query that plucks and a query whose rows are plucked. -/
theorem concludes_resolveChain_pluck (hsound : p.rows.Sound cx.catalog)
    (hdepth : cx.config.maxDepth ≠ 0)
    (hdistinct : ((cx.catalog.knownColumns entity).map Column.name).Nodup) {steps : List Step}
    (hkeeps : ∀ s ∈ steps, s.KeepsRows) {args : List Argument} (hargs : args ≠ [])
    (hnames : ∀ a ∈ args, a.NamesColumns cx.catalog entity) :
    ∃ r, Concludes cx.catalog (p.rows.answer cx.catalog)
        (resolveChain cx ⟨some entity, steps ++ [⟨"pluck", args⟩]⟩) r ∧
      Concludes cx.catalog (p.rows.answer cx.catalog)
        (resolveChain cx ⟨some entity, steps ++ [⟨"get", []⟩] ++ [⟨"pluck", args⟩]⟩) r := by
  have hget : Selection.ofSteps (steps ++ [⟨"get", []⟩]) = {} :=
    Selection.ofSteps_snoc_of_keepsRows hkeeps rfl
  have hpluck : Selection.ofSteps (steps ++ [⟨"pluck", args⟩]) = {} :=
    Selection.ofSteps_snoc_of_keepsRows hkeeps rfl
  have hsame : resolveRow cx ⟨some entity, steps ++ [⟨"get", []⟩]⟩ =
      resolveRow cx ⟨some entity, steps ++ [⟨"pluck", args⟩]⟩ :=
    resolveRow_of_selection cx rfl (misuse?_snoc cx steps rfl rfl) (hget.trans hpluck.symm)
  have hrun : ∃ s ∈ steps ++ [⟨"get", []⟩], isFinisher s.name = true :=
    ⟨_, List.mem_append_right _ List.mem_cons_self, rfl⟩
  rw [resolveChain, resolveChain, splitAtFinisher_snoc hrun,
    splitAtFinisher_snoc_of_keepsRows hkeeps (by rfl),
    splitAtFinisher_snoc_of_keepsRows hkeeps (by rfl)]
  dsimp only
  rw [resolveResult, resolveResult, List.getLast?_concat, List.getLast?_concat, hsame]
  dsimp only
  have halike := (covers_keptRows cx (p.rows.answer cx.catalog)).resolveRow
    ⟨some entity, steps ++ [⟨"pluck", args⟩]⟩
  rcases concludes_cases halike with ⟨_ | row, -, hrow⟩ | ⟨e, hfails⟩
  · refine ⟨.ok .unknown, ?_, ?_⟩
    · refine Concludes.bind_ok (a := none) ?_ (.pure _)
      exact hrow.bind_ok (.pure none)
    · refine Concludes.bind_ok (a := none) ?_ (.pure _)
      exact hrow.bind_ok (.pure none)
  · obtain ⟨whole, hwhole, rfl⟩ := exists_rowAt_of_resolveRow hsound hdepth hpluck hrow
    obtain ⟨t, hcollection, hquery⟩ := concludes_finish_pluck hdepth hdistinct hwhole hargs hnames
    refine ⟨.ok t, ?_, ?_⟩
    · refine Concludes.bind_ok (a := some t) ?_ (.pure t)
      exact hrow.bind_ok hquery
    · let rows : Ty := (Ty.list (.union [whole])).withOrigin (some collectionOrigin)
      have hrows : Concludes cx.catalog (p.rows.answer cx.catalog)
          (finish cx entity ⟨"get", []⟩ (.union [whole])) (.ok (some rows)) := .pure _
      refine Concludes.bind_ok (a := some rows) ?_ ?_
      · apply hrow.bind_ok
        exact hrows
      · exact (concludes_applyStep_pluck hdepth hcollection).bind_ok (.pure t)
  · -- what keeps the one from having a row keeps the other
    exact ⟨.error e, hfails.bind_error.bind_error, hfails.bind_error.bind_error⟩

end Pluck

/-! ## Expressions -/

/-- Plucking by a query and plucking from the rows of the query give the same type or fail for the
same reason. The query starts at an entity whose columns have distinct names, and no call before
selects columns or loads relations. Every argument names at least one column, and names columns that
the entity shows by identifiers only. -/
theorem infer_pluck_get (cx : Context) (scope : Scope) (e c : Expr) (more : List Expr)
    (entity : String) (p : Progress) (hsound : p.rows.Sound cx.catalog)
    (hroot : ((walk cx scope e).run p).1.root = some entity)
    (hkeeps : ∀ s ∈ ((walk cx scope e).run p).1.steps, s.KeepsRows)
    (hdistinct : ((cx.catalog.knownColumns entity).map Column.name).Nodup)
    (hnames : ∀ a ∈ ((typeArguments cx scope (c :: more)).run p).1,
      a.NamesColumns cx.catalog entity) :
    (runFrom (infer cx scope (.call e "pluck" (c :: more))) p).1 =
      (runFrom (infer cx scope (.call (.call e "get" []) "pluck" (c :: more))) p).1 := by
  rw [infer, infer, Scope.term_call, Scope.term_call, Scope.term_call]
  cases hdepth : cx.config.maxDepth with
  | zero => rw [Term.infer_zero, Term.infer_zero]
  | succ depth =>
    have hargs : ((typeArguments cx scope (c :: more)).run p).1 ≠ [] := List.cons_ne_nil _ _
    have hchain : (((scope.term e).chain cx []).run p).1 =
        ⟨some entity, ((walk cx scope e).run p).1.steps⟩ := by
      rw [← hroot]
      rfl
    obtain ⟨r, hquery, hrows⟩ := concludes_resolveChain_pluck hsound
      (hdepth ▸ Nat.succ_ne_zero depth) hdistinct hkeeps hargs hnames
    have hleft : Concludes cx.catalog (p.rows.answer cx.catalog)
        ((Term.call (scope.term e) "pluck" ((c :: more).map scope.term)).infer cx []
          (depth + 1)) r := by
      apply concludes_call_of_root
      · rw [hchain]
        rfl
      · rw [run_chain_call, hchain]
        exact hquery
    have hright : Concludes cx.catalog (p.rows.answer cx.catalog)
        ((Term.call (.call (scope.term e) "get" []) "pluck"
          ((c :: more).map scope.term)).infer cx [] (depth + 1)) r := by
      apply concludes_call_of_root
      · rw [run_chain_call, hchain]
        rfl
      · rw [run_chain_call, run_chain_call, hchain]
        exact hrows
    exact (hleft.result rfl).trans (hright.result rfl).symm

/-- Users hide their password and may refer to each other. -/
def userCatalog : Catalog where
  entities :=
    [("User",
      { columns := [⟨"id", .resolved .integer, false⟩, ⟨"name", .resolved .string, true⟩,
          ⟨"friend", .resolved (.object [] (some "User")), true⟩,
          ⟨"password", .resolved .string, false⟩]
        hidden := .ofList ["password"] })]

/-- The friends of users under their names. -/
theorem infer_pluck_get_friends :
    let cx : Context := ⟨{ strict := true }, userCatalog⟩
    let e : Expr := .staticCall "User" "where" [.literal (.str "name")]
    let args : List Expr := [.literal (.str "friend"), .literal (.str "name")]
    ((walk cx [] e).run {}).1.root = some "User" ∧
      (∀ s ∈ ((walk cx [] e).run {}).1.steps, s.KeepsRows) ∧
      (∀ a ∈ ((typeArguments cx [] args).run {}).1, a.NamesColumns cx.catalog "User") ∧
      (runFrom (infer cx [] (.call e "pluck" args)) {}).1 =
        (runFrom (infer cx [] (.call (.call e "get" []) "pluck" args)) {}).1 := by
  intro cx e args
  have hkeeps : ∀ s ∈ ((walk cx [] e).run {}).1.steps, s.KeepsRows := by
    intro s hs
    obtain rfl := List.mem_singleton.1 hs
    exact ⟨by decide, by decide⟩
  have hnames : ∀ a ∈ ((typeArguments cx [] args).run {}).1, a.NamesColumns cx.catalog "User" := by
    intro a ha
    rcases List.mem_cons.1 ha with rfl | ha
    · exact ⟨List.cons_ne_nil _ _, by decide +kernel⟩
    · obtain rfl := List.mem_singleton.1 ha
      exact ⟨List.cons_ne_nil _ _, by decide +kernel⟩
  exact ⟨rfl, hkeeps, hnames,
    infer_pluck_get cx [] e _ _ "User" {} (RowCache.sound_nil _) rfl hkeeps (by decide) hnames⟩

/-- An argument with a column name and a number names no column. The query gives an array all the
same, the collection does not. -/
theorem infer_pluck_get_mixed :
    let cx : Context := ⟨{}, userCatalog⟩
    let c : Expr := .literal (.arr [.str "id", .int 5])
    ((cx.catalog.knownColumns "User").map Column.name).Nodup ∧
      ColumnRef.isIdent "id".toList = true ∧ (cx.catalog.visibility "User").allows "id" = true ∧
      (runFrom (infer cx [] (.call (.entity "User") "pluck" [c])) {}).1 ≠
        (runFrom (infer cx [] (.call (.call (.entity "User") "get" []) "pluck" [c])) {}).1 := by
  intro cx c
  refine ⟨by decide, by decide, by decide, ?_⟩
  intro h
  have hquery :
      (runFrom (infer cx [] (.call (.entity "User") "pluck" [c])) {}).1.toOption.map Ty.isArray =
        some true := by decide +kernel
  have hrows :
      (runFrom (infer cx [] (.call (.call (.entity "User") "get" []) "pluck" [c]))
        {}).1.toOption.map Ty.isArray = some false := by decide +kernel
  rw [h, hrows] at hquery
  cases hquery

end QueryTypes
