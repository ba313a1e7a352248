import QueryTypes.Proofs.Projections.Variants
import QueryTypes.Proofs.Rows.Layout
import QueryTypes.Proofs.Rows.Visibility

/-!
# Loading relations

Relations are loaded into a row one after the other, and each of them either gives a property or
fails. What comes of it does not depend on the state (`concludes_attachList`), under a strict policy
no more than under a lenient one: a failure is that of one of the relations
(`exists_of_load_error`), and otherwise the row has the loaded relations under their names and is as
it was elsewhere (`loads_of_load_ok`).
-/

set_option autoImplicit false

namespace QueryTypes

variable {α : Type}

/-! ## Results from nothing -/

/-- The result of an inference that starts from nothing. -/
def outcome (x : Infer α) : Except InferError α := (runFrom x {}).1

/-- On sound kept rows an inference has the result that it has from nothing. -/
theorem concludes_outcome {catalog : Catalog} {x : Infer α}
    (h : (keptRows catalog (computedRow catalog)).Alike x x) :
    Concludes catalog (computedRow catalog) x (outcome x) := by
  have hnil : RowCache.answer catalog [] = computedRow catalog :=
    (RowCache.sound_nil catalog).answer_eq
  rw [← hnil] at h ⊢
  exact concludes_of_alike (p := {}) h

theorem Concludes.outcome_eq {catalog : Catalog} {x : Infer α} {r : Except InferError α}
    (h : Concludes catalog (computedRow catalog) x r) : outcome x = r :=
  h.result (RowCache.sound_nil catalog).answer_eq

section Covered

variable (cx : Context)

theorem concludes_rowAt (depth : Nat) (entity : String) :
    Concludes cx.catalog (computedRow cx.catalog) (rowAt cx depth entity)
      (outcome (rowAt cx depth entity)) :=
  concludes_outcome ((covers_keptRows cx _).rowAt depth entity)

theorem concludes_attachRelations (entity : String) (depth : Nat) (tree : RelationTree) (row : Ty) :
    Concludes cx.catalog (computedRow cx.catalog) (attachRelations cx entity depth tree row)
      (outcome (attachRelations cx entity depth tree row)) :=
  concludes_outcome ((covers_keptRows cx _).attachRelations tree entity depth row)

end Covered

/-! ## Loading one relation after the other -/

/-- The row of the target of a relation, with relations loaded from there, or why there is none. -/
def Relation.targetRow (cx : Context) (depth : Nat) (r : Relation) (nested : RelationTree) :
    Except InferError Ty := do
  let target ← outcome (rowAt cx depth r.target)
  outcome (attachRelations cx r.target depth nested target)

/-- Load a relation into a row, if the entity has it and shows it. -/
def loadRelation (cx : Context) (entity : String) (depth : Nat) (row : Ty)
    (child : String × RelationTree) : Except InferError Ty :=
  match cx.catalog.shownRelation? entity child.1 with
  | some r =>
    (r.targetRow cx depth child.2).map fun target => row.putProperty child.1 (r.loaded target)
  | none => .ok row

section Loading

variable {cx : Context} {entity : String} {depth : Nat}

theorem concludes_attachList (children : List (String × RelationTree)) (row : Ty) :
    Concludes cx.catalog (computedRow cx.catalog) (attachList cx entity depth children row)
      (children.foldlM (loadRelation cx entity depth) row) := by
  induction children generalizing row with
  | nil =>
    rw [attachList]
    exact .pure row
  | cons child rest ih =>
    obtain ⟨name, nested⟩ := child
    rw [attachList, List.foldlM_cons, loadRelation, Catalog.shownRelation?]
    cases (cx.catalog.visibility entity).allows name with
    | false => exact ih row
    | true =>
      simp only [Bool.not_true, Bool.false_eq_true, if_false, if_true]
      cases cx.catalog.relation? entity name with
      | none => exact (Concludes.note _ _).bind_ok (ih row)
      | some r =>
        have htarget : Concludes cx.catalog (computedRow cx.catalog)
            (rowAt cx depth r.target >>= attachRelations cx r.target depth nested)
            (r.targetRow cx depth nested) :=
          (concludes_rowAt cx depth r.target).bind fun target _ =>
            concludes_attachRelations cx r.target depth nested target
        have hrest := htarget.bind fun target _ => ih (row.putProperty name (r.loaded target))
        rw [bind_assoc] at hrest
        simp only
        cases hresult : r.targetRow cx depth nested with
        | error e =>
          rw [hresult] at hrest
          exact hrest
        | ok target =>
          rw [hresult] at hrest
          exact hrest

/-- Loading a relation does nothing, fails with the target or puts the target under the name. -/
theorem loadRelation_cases (cx : Context) (entity : String) (depth : Nat) (row : Ty)
    (child : String × RelationTree) :
    (cx.catalog.shownRelation? entity child.1 = none ∧
      loadRelation cx entity depth row child = .ok row) ∨
      ∃ r, cx.catalog.shownRelation? entity child.1 = some r ∧
        ((∃ e, r.targetRow cx depth child.2 = .error e ∧
            loadRelation cx entity depth row child = .error e) ∨
          ∃ target, r.targetRow cx depth child.2 = .ok target ∧
            loadRelation cx entity depth row child =
              .ok (row.putProperty child.1 (r.loaded target))) := by
  rw [loadRelation]
  cases cx.catalog.shownRelation? entity child.1 with
  | none => exact .inl ⟨rfl, rfl⟩
  | some r =>
    refine .inr ⟨r, rfl, ?_⟩
    simp only
    cases r.targetRow cx depth child.2 with
    | error e => exact .inl ⟨e, rfl, rfl⟩
    | ok target => exact .inr ⟨target, rfl, rfl⟩

/-- A failure is that of a relation that is shown. -/
theorem exists_of_load_error {children : List (String × RelationTree)} {row : Ty} {e : InferError}
    (h : children.foldlM (loadRelation cx entity depth) row = .error e) :
    ∃ child ∈ children, ∃ r, cx.catalog.shownRelation? entity child.1 = some r ∧
      r.targetRow cx depth child.2 = .error e := by
  induction children generalizing row with
  | nil => cases h
  | cons child rest ih =>
    rw [List.foldlM_cons] at h
    have hrest {row' : Ty} (hload : loadRelation cx entity depth row child = .ok row') :
        ∃ child ∈ rest, ∃ r, cx.catalog.shownRelation? entity child.1 = some r ∧
          r.targetRow cx depth child.2 = .error e := by
      rw [hload] at h
      exact ih h
    rcases loadRelation_cases cx entity depth row child with
      ⟨-, hload⟩ | ⟨r, hr, ⟨e', htarget, hload⟩ | ⟨target, -, hload⟩⟩
    · obtain ⟨c, hc, hfails⟩ := hrest hload
      exact ⟨c, List.mem_cons_of_mem _ hc, hfails⟩
    · rw [hload] at h
      cases h
      exact ⟨child, List.mem_cons_self, r, hr, htarget⟩
    · obtain ⟨c, hc, hfails⟩ := hrest hload
      exact ⟨c, List.mem_cons_of_mem _ hc, hfails⟩

/-- What relations make of the properties of a row: all their targets are there, each stands under
its name, and the other names are left alone. -/
structure Loads (cx : Context) (entity : String) (depth : Nat)
    (children : List (String × RelationTree)) (before after : Entries Ty) : Prop where
  distinct : before.Distinct → after.Distinct
  targets : ∀ child ∈ children, ∀ r, cx.catalog.shownRelation? entity child.1 = some r →
    ∃ target, r.targetRow cx depth child.2 = .ok target
  found : ∀ name,
    (∃ nested r target, (name, nested) ∈ children ∧ cx.catalog.shownRelation? entity name = some r ∧
        r.targetRow cx depth nested = .ok target ∧ after.get? name = some (r.loaded target)) ∨
      (name ∈ Entries.keys children → cx.catalog.shownRelation? entity name = none) ∧
        after.get? name = before.get? name

theorem Loads.skip {child : String × RelationTree} {rest : List (String × RelationTree)}
    {before after : Entries Ty} (h : Loads cx entity depth rest before after)
    (hchild : cx.catalog.shownRelation? entity child.1 = none) :
    Loads cx entity depth (child :: rest) before after where
  distinct := h.distinct
  targets := by
    rw [List.forall_mem_cons]
    refine ⟨?_, h.targets⟩
    intro r hr
    cases hchild.symm.trans hr
  found name := by
    rcases h.found name with ⟨nested, r, target, hmem, hloaded⟩ | ⟨hrest, hget⟩
    · exact .inl ⟨nested, r, target, List.mem_cons_of_mem _ hmem, hloaded⟩
    · refine .inr ⟨?_, hget⟩
      intro hmem
      rcases List.mem_cons.1 hmem with rfl | hmem
      · exact hchild
      · exact hrest hmem

theorem Loads.put {child : String × RelationTree} {rest : List (String × RelationTree)}
    {before after : Entries Ty} {r : Relation} {target : Ty}
    (h : Loads cx entity depth rest (before.put child.1 (r.loaded target)) after)
    (hr : cx.catalog.shownRelation? entity child.1 = some r)
    (htarget : r.targetRow cx depth child.2 = .ok target) :
    Loads cx entity depth (child :: rest) before after where
  distinct hbefore := h.distinct (hbefore.put _ _)
  targets := by
    rw [List.forall_mem_cons]
    refine ⟨?_, h.targets⟩
    intro r' hr'
    obtain rfl := Option.some.inj (hr.symm.trans hr')
    exact ⟨target, htarget⟩
  found name := by
    rcases h.found name with ⟨nested, r', target', hmem, hloaded⟩ | ⟨hrest, hget⟩
    · exact .inl ⟨nested, r', target', List.mem_cons_of_mem _ hmem, hloaded⟩
    · by_cases hname : child.1 = name
      · -- no later relation has the name
        subst hname
        rw [Entries.get?_put_self] at hget
        exact .inl ⟨child.2, r, target, List.mem_cons_self, hr, htarget, hget⟩
      · rw [Entries.get?_put_of_ne _ _ hname] at hget
        refine .inr ⟨?_, hget⟩
        intro hmem
        rcases List.mem_cons.1 hmem with heq | hmem
        · exact absurd heq.symm hname
        · exact hrest hmem

/-- If all relations are loaded the row is an object as before, with their properties. -/
theorem loads_of_load_ok {children : List (String × RelationTree)} {before : Entries Ty}
    {origin : Option String} {slot : Slot} {row : Ty}
    (h : children.foldlM (loadRelation cx entity depth) (.mk (.object before origin) slot) =
      .ok row) :
    ∃ after, row = .mk (.object after origin) slot ∧
      Loads cx entity depth children before after := by
  induction children generalizing before with
  | nil =>
    cases h
    exact ⟨before, rfl, id, fun _ hc => absurd hc List.not_mem_nil,
      fun _ => .inr ⟨fun hn => absurd hn List.not_mem_nil, rfl⟩⟩
  | cons child rest ih =>
    rw [List.foldlM_cons] at h
    rcases loadRelation_cases cx entity depth (.mk (.object before origin) slot) child with
      ⟨hchild, hload⟩ | ⟨r, hr, ⟨e, -, hload⟩ | ⟨target, htarget, hload⟩⟩
    · rw [hload] at h
      obtain ⟨after, hrow, hloads⟩ := ih h
      exact ⟨after, hrow, hloads.skip hchild⟩
    · rw [hload] at h
      cases h
    · rw [hload] at h
      obtain ⟨after, hrow, hloads⟩ := ih h
      exact ⟨after, hrow, hloads.put hr htarget⟩

theorem outcome_attachRelations_zero (tree : RelationTree) (row : Ty) :
    outcome (attachRelations cx entity 0 tree row) = .ok row := by
  obtain ⟨children⟩ := tree
  rw [attachRelations]
  rfl

/-- Into an object relations are loaded as long as there is depth. -/
theorem outcome_attachRelations_object (tree : RelationTree) (properties : Entries Ty)
    (origin : Option String) (slot : Slot) :
    outcome (attachRelations cx entity (depth + 1) tree (.mk (.object properties origin) slot)) =
      tree.children.foldlM (loadRelation cx entity depth)
        (.mk (.object properties origin) slot) := by
  obtain ⟨children⟩ := tree
  rw [attachRelations]
  exact (concludes_attachList children _).outcome_eq

end Loading

/-! ## The rows of queries -/

section Queries

variable {cx : Context} {entity : String}

/-- With some depth the rows of a query are those of its variants. -/
theorem eq_map_of_projectedRows (hdepth : cx.config.maxDepth ≠ 0) {variants : List Projection}
    {rows : List Ty} (h : outcome (projectedRows cx entity variants) = .ok rows) :
    rows = variants.map fun v => rowOf cx.catalog cx.config.maxDepth entity v .empty := by
  have hkeeps := Conduct.keeps_computedRows (Conduct.readsColumns_computedRows cx)
  have hrows := hkeeps.projectedRows entity variants
  exact (hrows.value ((RowCache.sound_nil cx.catalog).computedRows _) h).eq_map hdepth

/-- The row of a selection from nothing: relations are loaded into each of the rows. -/
def Selection.rowOutcome (cx : Context) (entity : String) (s : Selection) :
    Except InferError (Option Ty) := do
  let rows ← outcome (projectedRows cx entity s.variants)
  let rows ← rows.mapM fun row =>
    outcome (attachRelations cx entity cx.config.maxDepth s.relations row)
  return some (.union rows)

theorem concludes_row (s : Selection) :
    Concludes cx.catalog (computedRow cx.catalog) (s.row cx entity) (s.rowOutcome cx entity) := by
  refine (concludes_outcome ((covers_keptRows cx _).projectedRows entity s.variants)).bind ?_
  intro rows _
  refine Concludes.bind (.mapM rows fun row _ => concludes_attachRelations cx entity _ _ row) ?_
  intro rows _
  exact .pure _

/-- Under a lenient policy a query has a row. -/
theorem exists_row_of_allowed (hlenient : cx.config.strict = false)
    (hdepth : cx.config.maxDepth ≠ 0) {steps : List Step} (hallowed : Step.Allowed cx steps)
    {p : Progress} (hp : p.rows.Sound cx.catalog) :
    ∃ row, (runFrom (resolveRow cx ⟨some entity, steps⟩) p).1 = .ok (some row) := by
  rw [runFrom_resolveRow hdepth hlenient _ hp, chainRow?, misuse?_eq_none_iff.2 hallowed]
  exact ⟨_, rfl⟩

end Queries

end QueryTypes
