import QueryTypes.Proofs.ArrayKeys
import QueryTypes.Proofs.Continuation
import QueryTypes.Proofs.Projections.Variants
import QueryTypes.Proofs.Rows.Visibility
import QueryTypes.Proofs.Soundness

/-!
# Ways to state a projection

The columns of a query can be listed as arguments or in one array, selected at once or added one
after the other, and given to the call that runs the query or to a selection before it. All of these
say the same (`projections_agree`).

For the array, the type of a literal is read back: its entries stand under their positions
(`ArrayState.Listed`), so the lists of names that the array stands for are those that the arguments
stand for together (`Projection.select_shape`).
-/

set_option autoImplicit false

namespace QueryTypes

/-! ## Arrays of arguments -/

theorem Ty.alternatives_withRequired (t : Ty) (required : Bool) :
    (t.withRequired required).alternatives = t.alternatives := by
  obtain ⟨k, slot⟩ := t
  show alternatives (.mk k _) = _
  cases k with
  | array item key shape origin => cases shape <;> simp [alternatives]
  | unknown | scalar | object | union => simp [alternatives]

namespace Projection

/-- The choices do not depend on the places of the arguments. -/
theorem choices?_map_withRequired (ts : List Ty) (required : Bool) :
    choices? (ts.map (·.withRequired required)) = choices? ts := by
  induction ts with
  | nil => rfl
  | cons t rest ih => rw [List.map_cons, choices?, choices?, ih, t.alternatives_withRequired]

/-- A shape stands for the choices of its entries, and for nothing if an entry is not known. -/
theorem alternativesEntries_eq (es : Entries Ty) :
    Ty.alternativesEntries es = (choices? es.values).getD [] := by
  induction es with
  | nil => rw [Ty.alternativesEntries, Entries.values, List.map_nil, choices?, Option.getD_some]
  | cons e rest ih =>
    obtain ⟨name, t⟩ := e
    have hvalues : Entries.values ((name, t) :: rest) = t :: Entries.values rest := rfl
    rw [Ty.alternativesEntries, ih, hvalues, choices?]
    split
    · next hempty =>
      rw [List.isEmpty_iff.1 hempty]
      rfl
    · cases choices? (Entries.values rest) with
      | none => simp [Ty.continueEach]
      | some others => rfl

/-- The alternatives of a shape are the choices of its values. -/
theorem alternatives_shape (es : Entries Ty) :
    (Ty.shape es).alternatives = ((choices? es.values).getD []).eraseReps := by
  rw [Ty.shape, Ty.ofKind, Ty.alternatives, alternativesEntries_eq]

/-- One array selects what its entries select as arguments. -/
theorem select_shape (es : Entries Ty) : select [Ty.shape es] = select es.values := by
  have hsame : alternatives? [Ty.shape es] = alternatives? es.values := by
    rw [alternatives?, alternatives?, choices?, choices?, alternatives_shape]
    cases hchoices : choices? es.values with
    | none => rfl
    | some choices =>
      have hne : ¬choices.eraseReps.isEmpty = true := by
        rw [List.isEmpty_iff]
        exact eraseReps_ne_nil_iff.2 (choices?_ne_nil hchoices)
      rw [Option.getD_some, if_neg hne, Option.map_some, Option.map_some, Option.map_some,
        Ty.continueEach_nil_right, eraseReps_eraseReps]
  rw [select, select, hsame]

end Projection

/-! ## Array literals -/

namespace Reading.ArrayState

/-- What was read is a list: the values stand under their positions. -/
structure Listed (st : ArrayState) (ts : List Ty) : Prop where
  next : st.next = Int64.ofNat ts.length
  openKeys : st.openKeys = []
  names : st.shape.keys = (List.range ts.length).map toString
  values : st.shape.values = ts.map (·.withRequired true)

theorem listed_nil : Listed {} [] where
  next := rfl
  openKeys := rfl
  names := rfl
  values := rfl

/-- A value without a key comes next in the list. -/
theorem Listed.enter_next {st : ArrayState} {ts : List Ty} (h : st.Listed ts) (t : Ty)
    (hlength : ts.length < Numeral.positionBound) : Listed (st.enter (.next, t)) (ts ++ [t]) := by
  have hposition : toString st.next.toInt = toString ts.length := by
    rw [h.next, Numeral.toString_toInt_ofNat hlength]
  -- all keys so far are smaller positions, so that the value is appended
  have hfresh : toString st.next.toInt ∉ st.shape.keys := by
    rw [h.names, hposition, List.mem_map]
    rintro ⟨i, hi, heq⟩
    rw [Numeral.eq_of_toString_eq heq] at hi
    exact absurd (List.mem_range.1 hi) (Nat.lt_irrefl _)
  have hshape : (st.enter (.next, t)).shape =
      st.shape ++ [(toString ts.length, t.withRequired true)] := by
    rw [← hposition]
    exact Entries.put_of_not_mem _ hfresh
  constructor
  · show st.next + 1 = _
    rw [h.next, List.length_append, Int64.ofNat_add]
    rfl
  · exact h.openKeys
  · rw [hshape, Entries.keys, List.map_append, List.length_append, List.length_singleton,
      List.range_succ, List.map_append, ← h.names]
    rfl
  · rw [hshape, Entries.values, List.map_append, List.map_append, ← h.values]
    rfl

/-- Entries without keys make a list. -/
theorem listed_ofEntries {ts : List Ty} (h : ts.length ≤ Numeral.positionBound) :
    (ofEntries (ts.map fun t => (.next, t))).Listed ts := by
  induction ts using List.reverseRecOn with
  | nil => exact listed_nil
  | append_singleton ts t ih =>
    rw [List.length_append, List.length_singleton] at h
    rw [List.map_append, List.map_singleton, ofEntries_append_singleton]
    exact (ih (by omega)).enter_next t (by omega)

theorem Listed.select {st : ArrayState} {ts : List Ty} (h : st.Listed ts) :
    Projection.select [.shape st.shape] = Projection.select ts := by
  rw [Projection.select_shape, h.values, Projection.select, Projection.select,
    Projection.alternatives?, Projection.alternatives?, Projection.choices?_map_withRequired]

end Reading.ArrayState

/-! ## Typed arguments -/

section Typing

variable (cx : Context) (p : Progress)

/-- Arguments are typed one after the other, each as if it were the first. -/
theorem map_ty_arguments (args : List Term) :
    ((Term.arguments cx args []).run p).1.map Argument.ty = args.map (Term.typeIn cx [] p) := by
  have harguments : Concludes cx.catalog (p.rows.answer cx.catalog)
      (liftM (Term.arguments cx args []))
      (.ok (args.map fun t => ⟨t.typeIn cx [] p, t.callable? cx []⟩)) := by
    induction args with
    | nil => exact .pure []
    | cons t rest ih =>
      rw [Term.arguments]
      exact (concludes_typeIn cx [] p t).bind_tracked (ih.bind_tracked (.pure _))
  have hrun : ((Term.arguments cx args []).run p).1 =
      args.map fun t => ⟨t.typeIn cx [] p, t.callable? cx []⟩ :=
    Except.ok.inj (harguments.result rfl)
  rw [hrun, List.map_map]
  rfl

theorem typeIn_of_depth_zero (h : cx.config.maxDepth = 0) (t : Term) :
    t.typeIn cx [] p = .unknown := by
  rw [Term.typeIn, h, Term.infer_zero]
  rfl

/-- At depth zero no argument is known, and all columns are selected. -/
theorem select_of_depth_zero (h : cx.config.maxDepth = 0) (args : List Term) :
    Projection.select (args.map (Term.typeIn cx [] p)) = [.everything] := by
  cases args with
  | nil => rfl
  | cons t rest =>
    rw [List.map_cons, typeIn_of_depth_zero cx p h]
    rfl

/-- An array of arguments selects what the arguments select. -/
theorem select_array (args : List Term) (hlength : args.length ≤ Numeral.positionBound) :
    Projection.select [Term.typeIn cx [] p (.array (args.map .positional))] =
      Projection.select (args.map (Term.typeIn cx [] p)) := by
  cases hdepth : cx.config.maxDepth with
  | zero =>
    rw [select_of_depth_zero cx p hdepth]
    exact select_of_depth_zero cx p hdepth [_]
  | succ depth =>
    have hentries : (args.map TermItem.positional).mapM (TermItem.entry? (Term.typeIn cx [] p)) =
        some ((args.map (Term.typeIn cx [] p)).map fun t => (.next, t)) := by
      rw [List.mapM_map, List.map_map]
      exact List.mapM_pure
    rw [Term.typeIn_array cx [] p (hdepth ▸ Nat.succ_ne_zero depth) hentries]
    apply Reading.ArrayState.Listed.select
    apply Reading.ArrayState.listed_ofEntries
    rw [List.length_map]
    exact hlength

/-- So does an array that is given as a literal value. -/
theorem select_literal (values : List Json) :
    Projection.select [Term.typeIn cx [] p (.known (.ofJson (.arr values)))] =
      Projection.select
        ((values.map fun v => Term.known (.ofJson v)).map (Term.typeIn cx [] p)) := by
  cases hdepth : cx.config.maxDepth with
  | zero =>
    rw [select_of_depth_zero cx p hdepth]
    exact select_of_depth_zero cx p hdepth [_]
  | succ depth =>
    have hknown (t : Ty) : Term.typeIn cx [] p (.known t) = t := by
      rw [Term.typeIn, hdepth]
      rfl
    have hvalues (i : Nat) : Entries.values (Ty.ofJsonList i values) =
        (values.map Ty.ofJson).map (·.withRequired true) := by
      induction values generalizing i with
      | nil => rfl
      | cons v rest ih => exact congrArg _ (ih (i + 1))
    rw [hknown, List.map_map, Ty.ofJson, Projection.select_shape, hvalues, Projection.select,
      Projection.select, Projection.alternatives?, Projection.alternatives?,
      Projection.choices?_map_withRequired]
    simp only [Function.comp_def, hknown]

end Typing

theorem Scope.term_array_positional (s : Scope) (args : List Expr) :
    s.term (.array (args.map .positional)) = .array ((args.map s.term).map .positional) := by
  rw [Scope.term_array, List.map_map, List.map_map]
  rfl

/-! ## Chains -/

section Chains

variable (cx : Context) (root : Option String) (before after : List Step)

/-- Selections with the same variants can be exchanged. -/
theorem resolveRow_select {as bs : List Argument}
    (h : Projection.select (as.map Argument.ty) = Projection.select (bs.map Argument.ty)) :
    resolveRow cx ⟨root, before ++ ⟨"select", as⟩ :: after⟩ =
      resolveRow cx ⟨root, before ++ ⟨"select", bs⟩ :: after⟩ := by
  refine resolveRow_of_selection cx rfl (misuse?_congr cx ?_) ?_
  · simp
  · have hstep (s : Selection) : s.step ⟨"select", as⟩ = s.step ⟨"select", bs⟩ := by
      show ({ s with variants := Projection.select (as.map Argument.ty) } : Selection) =
        { s with variants := Projection.select (bs.map Argument.ty) }
      rw [h]
    rw [Selection.ofSteps, Selection.ofSteps, List.foldl_append, List.foldl_append, List.foldl_cons,
      List.foldl_cons, hstep]

/-- A selection is no misuse, however many calls it takes. -/
theorem misuse?_select_addSelect (as bs : List Argument) :
    misuse? cx (before ++ ⟨"select", as⟩ :: ⟨"addSelect", bs⟩ :: after) =
      misuse? cx (before ++ ⟨"select", as ++ bs⟩ :: after) := by
  rw [misuse?_insert cx before rfl rfl (List.cons_ne_nil _ _)]
  cases after with
  | nil => exact misuse?_snoc cx before rfl rfl
  | cons call rest =>
    rw [misuse?_insert cx before rfl rfl (List.cons_ne_nil _ _),
      misuse?_insert cx before rfl rfl (List.cons_ne_nil _ _)]

/-- Columns that are added to a selection are selected with it. -/
theorem resolveRow_select_addSelect (hcatalog : cx.catalog.Steady) {as bs : List Argument}
    (hknown : ∀ a ∈ as ++ bs, a.ty.alternatives ≠ [])
    (hnames : ∀ alternatives, Projection.alternatives? (as.map Argument.ty) = some alternatives →
      [] ∉ alternatives) (p : Progress) :
    (runFrom (resolveRow cx ⟨root, before ++ ⟨"select", as⟩ :: ⟨"addSelect", bs⟩ :: after⟩) p).1 =
      (runFrom (resolveRow cx ⟨root, before ++ ⟨"select", as ++ bs⟩ :: after⟩) p).1 := by
  have hmisuse := misuse?_select_addSelect cx before after as bs
  have hagrees : (Selection.ofSteps (before ++ ⟨"select", as⟩ :: ⟨"addSelect", bs⟩ :: after)).Agrees
      (Selection.ofSteps (before ++ ⟨"select", as ++ bs⟩ :: after)) := by
    rw [Selection.ofSteps, Selection.ofSteps, List.foldl_append, List.foldl_append, List.foldl_cons,
      List.foldl_cons, List.foldl_cons]
    exact (Selection.agrees_select_addSelect _ hknown hnames).foldl after
  cases root with
  | none => rfl
  | some entity =>
    cases hwrong : misuse? cx (before ++ ⟨"select", as ++ bs⟩ :: after) with
    | some what =>
      rw [hwrong] at hmisuse
      rw [resolveRow, resolveRow, hmisuse, hwrong]
    | none =>
      -- the rows are computed in other steps, so that only their results can be compared
      rw [hwrong] at hmisuse
      rw [resolveRow_eq_row hmisuse, resolveRow_eq_row hwrong]
      rcases hagrees.variants with hvariants | ⟨hthins, hcolumns⟩
      · rw [Selection.row, Selection.row, hvariants, hagrees.relations]
      · obtain ⟨r, hleft, hright⟩ :=
          exists_concludes_row (p := p) hcatalog entity hagrees.relations hthins hcolumns
        exact (hleft.result rfl).trans (hright.result rfl).symm

/-- Columns that are given to the call that runs the query are selected before it. -/
theorem resolveResult_columns {name : String} (hname : name ∈ ["get", "first"]) (columns : Argument)
    (rest : List Argument) :
    resolveResult cx ⟨root, before ++ [⟨name, columns :: rest⟩]⟩ =
      resolveResult cx ⟨root, before ++ [⟨"select", [columns]⟩, ⟨name, []⟩]⟩ := by
  have hmisuse : misuse? cx (before ++ [⟨name, columns :: rest⟩]) =
      misuse? cx (before ++ [⟨"select", [columns]⟩, ⟨name, []⟩]) := by
    rw [misuse?_insert cx before rfl rfl (List.cons_ne_nil _ _)]
    exact misuse?_congr cx (by simp)
  have hselection : Selection.ofSteps (before ++ [⟨name, columns :: rest⟩]) =
      Selection.ofSteps (before ++ [⟨"select", [columns]⟩, ⟨name, []⟩]) := by
    rw [Selection.ofSteps, Selection.ofSteps, List.foldl_append, List.foldl_append]
    -- the columns of the last call replace the variants, as those of a selection do
    rcases List.mem_pair.1 hname with rfl | rfl
    · rfl
    · rfl
  have hrow : resolveRow cx ⟨root, before ++ [⟨name, columns :: rest⟩]⟩ =
      resolveRow cx ⟨root, before ++ [⟨"select", [columns]⟩, ⟨name, []⟩]⟩ :=
    resolveRow_of_selection cx rfl hmisuse hselection
  have hlast : (before ++ [⟨"select", [columns]⟩, ⟨name, []⟩] : List Step).getLast? =
      some ⟨name, []⟩ := by
    rw [List.getLast?_append]
    rfl
  rw [resolveResult, resolveResult, List.getLast?_concat, hlast, hrow]
  rcases List.mem_pair.1 hname with rfl | rfl
  · rfl
  · rfl

end Chains

/-- The ways to state a projection agree, in a chain with any calls before and after.

Selecting columns that are given as arguments, selecting one array of them and, if they are literal
values, selecting one literal list of them is the same inference. So are columns that are given to
`get` or `first` and columns that are selected before it.

If all arguments are known to be literal and the first selection is never empty, then adding columns
to it gives the same row, or the same failure, as selecting all columns jointly. The types in the
catalog have to equal themselves, as they do in every catalog that is read
(`Catalog.steady_decode`). -/
theorem projections_agree (cx : Context) (root : Option String) (before after : List Step) :
    (∀ (scope : Scope) (args : List Expr) (p : Progress), args.length ≤ Numeral.positionBound →
      resolveRow cx ⟨root, before ++ ⟨"select", ((typeArguments cx scope args).run p).1⟩ :: after⟩ =
        resolveRow cx ⟨root, before ++ ⟨"select",
          ((typeArguments cx scope [.array (args.map .positional)]).run p).1⟩ :: after⟩) ∧
      (∀ (scope : Scope) (values : List Json) (p : Progress),
        resolveRow cx ⟨root, before ++
            ⟨"select", ((typeArguments cx scope (values.map .literal)).run p).1⟩ :: after⟩ =
          resolveRow cx ⟨root, before ++
            ⟨"select", ((typeArguments cx scope [.literal (.arr values)]).run p).1⟩ :: after⟩) ∧
      (cx.catalog.Steady → ∀ (as bs : List Argument) (p : Progress),
        (∀ a ∈ as ++ bs, a.ty.alternatives ≠ []) →
        (∀ alternatives, Projection.alternatives? (as.map Argument.ty) = some alternatives →
          [] ∉ alternatives) →
        (runFrom (resolveRow cx
            ⟨root, before ++ ⟨"select", as⟩ :: ⟨"addSelect", bs⟩ :: after⟩) p).1 =
          (runFrom (resolveRow cx ⟨root, before ++ ⟨"select", as ++ bs⟩ :: after⟩) p).1) ∧
      ∀ name ∈ ["get", "first"], ∀ (columns : Argument) (rest : List Argument),
        resolveResult cx ⟨root, before ++ [⟨name, columns :: rest⟩]⟩ =
          resolveResult cx ⟨root, before ++ [⟨"select", [columns]⟩, ⟨name, []⟩]⟩ := by
  refine ⟨?_, ?_, ?_, ?_⟩
  · intro scope args p hlength
    apply resolveRow_select
    rw [typeArguments, typeArguments, map_ty_arguments, map_ty_arguments, List.map_singleton,
      List.map_singleton, Scope.term_array_positional, select_array]
    rwa [List.length_map]
  · intro scope values p
    apply resolveRow_select
    rw [typeArguments, typeArguments, map_ty_arguments, map_ty_arguments, List.map_singleton,
      List.map_singleton]
    have hterm (v : Json) : scope.term (.literal v) = .known (.ofJson v) := rfl
    rw [hterm, select_literal, List.map_map (g := scope.term)]
    rfl
  · intro hcatalog as bs p hknown hnames
    exact resolveRow_select_addSelect cx root before after hcatalog hknown hnames p
  · intro name hname columns rest
    exact resolveResult_columns cx root before hname columns rest

/-- Customers by their number, or by number and address, with address and number or the number alone
added. Two of the four combinations are the same and stand apart. -/
theorem projections_agree_customers :
    let cx : Context := ⟨{}, shopCatalog⟩
    let as : List Argument := [⟨.union [.ofJson (.arr [.str "id"]),
      .ofJson (.arr [.str "id", .str "email"])], none⟩]
    let bs : List Argument := [⟨.union [.ofJson (.arr [.str "email", .str "id"]),
      .ofJson (.arr [.str "id"])], none⟩]
    cx.catalog.Steady ∧ (∀ a ∈ as ++ bs, a.ty.alternatives ≠ []) ∧
      Projection.alternatives? (as.map Argument.ty) = some [["id"], ["id", "email"]] ∧
      (runFrom (resolveRow cx
          ⟨some "Customer", [] ++ ⟨"select", as⟩ :: ⟨"addSelect", bs⟩ :: [⟨"get", []⟩]⟩) {}).1 =
        (runFrom (resolveRow cx
          ⟨some "Customer", [] ++ ⟨"select", as ++ bs⟩ :: [⟨"get", []⟩]⟩) {}).1 := by
  intro cx as bs
  have hsteady : cx.catalog.Steady := by
    intro e he c hc ty hty
    rcases List.mem_pair.1 he with rfl | rfl
    · simp only [List.mem_cons, List.not_mem_nil, or_false] at hc
      rcases hc with rfl | rfl | rfl | rfl <;> cases hty
      decide +kernel
    · simp only [List.mem_cons, List.not_mem_nil, or_false] at hc
      rcases hc with rfl | rfl | rfl <;> cases hty
      decide +kernel
  have hknown : ∀ a ∈ as ++ bs, a.ty.alternatives ≠ [] := by
    intro a ha
    rcases List.mem_pair.1 ha with rfl | rfl
    · decide +kernel
    · decide +kernel
  have halternatives : Projection.alternatives? (as.map Argument.ty) =
      some [["id"], ["id", "email"]] := by
    decide +kernel
  refine ⟨hsteady, hknown, halternatives, ?_⟩
  apply (projections_agree cx (some "Customer") [] [⟨"get", []⟩]).2.2.1 hsteady as bs {} hknown
  rw [halternatives]
  rintro alternatives ⟨⟩
  decide

end QueryTypes
