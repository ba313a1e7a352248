import QueryTypes.Proofs.OmittedNotes

/-!
# Conclusions

Whether a row is found or computed does not show: asked for an entity, a state answers with the row
that it keeps or else with the one that is computed (`RowCache.answer`), and no inference changes
these answers. So an inference has a *conclusion* (`Concludes`), its result from every state with
the same answers, and the conclusion of a composite inference is composed of the conclusions of its
parts, whatever states they start from. That every inference of the engine has one follows from
running it beside itself (`concludes_of_alike`, `covers_keptRows`).
-/

set_option autoImplicit false

namespace QueryTypes

variable {α β : Type}

/-! ## What is found or computed -/

/-- Rows of entities under policies, or why there is none. -/
abbrev RowTable := Config → String → Except InferError Ty

/-- The row that is kept for an entity, or else the one that is computed. -/
def RowCache.answer (catalog : Catalog) (rows : RowCache) : RowTable := fun config entity =>
  (rows.find? (Context.rowKey ⟨config, catalog⟩ entity)).elim
    (computedRow catalog config entity) .ok

theorem RowCache.Sound.answer_eq {catalog : Catalog} {rows : RowCache} (h : rows.Sound catalog) :
    rows.answer catalog = computedRow catalog := by
  funext config entity
  rw [RowCache.answer]
  cases hfind : rows.find? (Context.rowKey ⟨config, catalog⟩ entity) with
  | none => rfl
  | some row => exact (h config entity row hfind).symm

/-- Keeping a computed row changes no answer. -/
theorem RowCache.answer_kept {catalog : Catalog} (rows : RowCache) {config : Config}
    {entity : String} {row : Ty} (h : computedRow catalog config entity = .ok row) :
    RowCache.answer catalog (rows ++ [(Context.rowKey ⟨config, catalog⟩ entity, row)]) =
      rows.answer catalog := by
  funext config' entity'
  rw [RowCache.answer, RowCache.answer, RowCache.find?_kept]
  cases rows.find? (Context.rowKey ⟨config', catalog⟩ entity') with
  | some found => rfl
  | none =>
    rw [Option.none_or]
    split
    · next hkey =>
      -- the row may be asked for under another policy with the same key
      rw [Option.elim_some, Option.elim_none, computedRow_congr hkey, h]
    · rfl

/-- Runs from states that answer alike. -/
def keptRows (catalog : Catalog) (table : RowTable) : Discipline :=
  .together (fun p q => p.rows.answer catalog = table ∧ q.rows.answer catalog = table)
    fun _ _ _ h => h

/-- The row of an entity is the answer of the state, and all answers stay as they are. -/
theorem runFrom_entityRow_answer {cx : Context} (hdepth : cx.config.maxDepth ≠ 0) (entity : String)
    (p : Progress) :
    (runFrom (entityRow cx entity) p).1 = p.rows.answer cx.catalog cx.config entity ∧
      (runFrom (entityRow cx entity) p).2.rows.answer cx.catalog = p.rows.answer cx.catalog := by
  have hrow := runFrom_rowAt cx entity p
  have hanswer : p.rows.answer cx.catalog cx.config entity =
      (p.rows.find? (cx.rowKey entity)).elim (computedRow cx.catalog cx.config entity) .ok := rfl
  cases hfind : p.rows.find? (cx.rowKey entity) with
  | some row =>
    rw [runFrom_entityRow_hit cx hdepth hfind, hanswer, hfind]
    exact ⟨rfl, rfl⟩
  | none =>
    rw [hanswer, hfind]
    cases hcomputed : computedRow cx.catalog cx.config entity with
    | ok row =>
      rw [hcomputed] at hrow
      rw [runFrom_entityRow_ok cx hdepth hfind hrow]
      exact ⟨rfl, RowCache.answer_kept p.rows hcomputed⟩
    | error e =>
      rw [hcomputed] at hrow
      rw [runFrom_entityRow_error cx hdepth hfind hrow]
      exact ⟨rfl, rfl⟩

theorem covers_keptRows (cx : Context) (table : RowTable) :
    (keptRows cx.catalog table).Covers cx cx.config.strict cx.config.strict where
  toCoversRows := Discipline.coversRows_self _ cx
  entityRow entity h := by
    rw [cx.strictly_self] at h ⊢
    refine ⟨grows_entityRow cx h.grows_left, grows_entityRow cx h.grows_right, ?_⟩
    rintro p q ⟨hp, hq⟩
    by_cases hdepth : cx.config.maxDepth = 0
    · rw [entityRow_zero cx hdepth]
      exact .ok ⟨hp, hq⟩
    · obtain ⟨hl, hlrows⟩ := runFrom_entityRow_answer hdepth entity p
      obtain ⟨hr, hrrows⟩ := runFrom_entityRow_answer hdepth entity q
      refine Discipline.matches_together_iff.2 ⟨?_, hlrows.trans hp, hrrows.trans hq⟩
      rw [hl, hr, hp, hq]

/-! ## Conclusions -/

/-- From every state with these answers the inference has this result, and the answers stay. -/
def Concludes (catalog : Catalog) (table : RowTable) (x : Infer α) (r : Except InferError α) :
    Prop :=
  ∀ p : Progress, p.rows.answer catalog = table →
    (runFrom x p).1 = r ∧ (runFrom x p).2.rows.answer catalog = table

/-- What runs alike beside itself concludes with its result from any one state. -/
theorem concludes_of_alike {catalog : Catalog} {x : Infer α} {p : Progress}
    (h : (keptRows catalog (p.rows.answer catalog)).Alike x x) :
    Concludes catalog (p.rows.answer catalog) x (runFrom x p).1 := by
  intro q hq
  obtain ⟨hresult, hrows, -⟩ := Discipline.matches_together_iff.1 (h.ends ⟨hq, rfl⟩)
  exact ⟨hresult, hrows⟩

/-- What runs alike beside itself concludes with a value or with a failure. -/
theorem concludes_cases {catalog : Catalog} {x : Infer α} {p : Progress}
    (h : (keptRows catalog (p.rows.answer catalog)).Alike x x) :
    (∃ a, (runFrom x p).1 = .ok a ∧ Concludes catalog (p.rows.answer catalog) x (.ok a)) ∨
      ∃ e, Concludes catalog (p.rows.answer catalog) x (.error e) := by
  have hconcludes := concludes_of_alike h
  cases hresult : (runFrom x p).1 with
  | ok a =>
    rw [hresult] at hconcludes
    exact .inl ⟨a, rfl, hconcludes⟩
  | error e =>
    rw [hresult] at hconcludes
    exact .inr ⟨e, hconcludes⟩

/-- What never fails and runs alike beside itself concludes with a value. -/
theorem exists_concludes {catalog : Catalog} {x : Infer α} {P : α → Prop} (p : Progress)
    (h : (keptRows catalog (p.rows.answer catalog)).Alike x x) (hx : Conduct.total.Ensures x P) :
    ∃ a, Concludes catalog (p.rows.answer catalog) x (.ok a) := by
  obtain ⟨a, ha⟩ := hx.exists_ok p
  refine ⟨a, ?_⟩
  rw [← ha]
  exact concludes_of_alike h

namespace Concludes

variable {catalog : Catalog} {table : RowTable}

/-- The conclusion is the result from any state with the answers. -/
theorem result {x : Infer α} {r : Except InferError α} (h : Concludes catalog table x r)
    {p : Progress} (hp : p.rows.answer catalog = table) : (runFrom x p).1 = r := (h p hp).1

theorem pure (a : α) : Concludes catalog table (pure a) (.ok a) := fun _ hp => ⟨rfl, hp⟩

theorem note (entity : Option String) (cause : Cause) :
    Concludes catalog table (liftM (note entity cause)) (.ok ()) := fun _ hp => ⟨rfl, hp⟩

theorem bind {x : Infer α} {f : α → Infer β} {r : Except InferError α} {s : α → Except InferError β}
    (hx : Concludes catalog table x r) (hf : ∀ a, r = .ok a → Concludes catalog table (f a) (s a)) :
    Concludes catalog table (x >>= f) (r >>= s) := by
  intro p hp
  obtain ⟨hresult, hrows⟩ := hx p hp
  rcases hrun : runFrom x p with ⟨r', q⟩
  rw [hrun] at hresult hrows
  subst hresult
  cases r' with
  | error e =>
    rw [runFrom_bind_error hrun]
    exact ⟨rfl, hrows⟩
  | ok a =>
    -- what follows starts from another state with the same answers
    rw [runFrom_bind_ok hrun]
    exact hf a rfl q hrows

/-- After a value only what follows it counts. -/
theorem bind_ok {x : Infer α} {f : α → Infer β} {a : α} {r : Except InferError β}
    (hx : Concludes catalog table x (.ok a)) (hf : Concludes catalog table (f a) r) :
    Concludes catalog table (x >>= f) r := by
  refine hx.bind (s := fun _ => r) ?_
  rintro b ⟨⟩
  exact hf

/-- After an inference that cannot fail only what follows it counts. -/
theorem bind_tracked {x : Tracked α} {f : α → Tracked β} {a : α} {r : Except InferError β}
    (hx : Concludes catalog table (liftM x) (.ok a))
    (hf : Concludes catalog table (liftM (f a)) r) : Concludes catalog table (liftM (x >>= f)) r :=
  hx.bind_ok (f := fun a => liftM (f a)) hf

/-- Nothing follows a failure. -/
theorem bind_error {x : Infer α} {f : α → Infer β} {e : InferError}
    (hx : Concludes catalog table x (.error e)) : Concludes catalog table (x >>= f) (.error e) := by
  refine hx.bind (s := fun _ => .error e) ?_
  rintro a ⟨⟩

theorem foldlM {f : β → α → Infer β} {g : β → α → Except InferError β} (xs : List α)
    (h : ∀ b a, Concludes catalog table (f b a) (g b a)) (b : β) :
    Concludes catalog table (xs.foldlM f b) (xs.foldlM g b) := by
  induction xs generalizing b with
  | nil => exact .pure b
  | cons a rest ih =>
    rw [List.foldlM_cons, List.foldlM_cons]
    apply (h b a).bind
    intro c _
    exact ih c

theorem mapM {f : α → Infer β} {g : α → Except InferError β} (xs : List α)
    (h : ∀ a ∈ xs, Concludes catalog table (f a) (g a)) :
    Concludes catalog table (xs.mapM f) (xs.mapM g) := by
  induction xs with
  | nil =>
    rw [List.mapM_nil, List.mapM_nil]
    exact .pure []
  | cons a rest ih =>
    rw [List.forall_mem_cons] at h
    rw [List.mapM_cons, List.mapM_cons]
    apply h.1.bind
    intro b _
    apply (ih h.2).bind
    intro bs _
    exact .pure (b :: bs)

end Concludes

end QueryTypes
