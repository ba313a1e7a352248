import QueryTypes.Proofs.Lockstep.Engine

/-!
# Strict and lenient inferences

A strict policy fails where a lenient one records a note and goes on. The runs under both are
compared by the discipline `strictLenient`: as long as nothing has been noted they keep the same
rows, each under its own keys, and they part when one side fails or notes something and so does the
other.

Hence a task that succeeds without notes does so under both policies, with the same type
(`clean_strict_iff_clean_lenient`).
-/

set_option autoImplicit false

namespace QueryTypes

/-- A run has failed or has recorded a note. -/
def Exit.Troubled : Exit → Prop
  | (none, p) => p.notes ≠ []
  | (some _, _) => True

theorem Exit.Troubled.extend {a b : Exit} (h : a.Troubled) (hab : a.Extends b) : b.Troubled := by
  obtain ⟨e, p⟩ := a
  cases e with
  | none =>
    obtain ⟨e', q⟩ := b
    cases e' with
    | none =>
      intro hq
      -- notes are never taken back
      have hprefix : p.notes <+: q.notes := hab.notes
      rw [hq, List.prefix_nil] at hprefix
      exact h hprefix
    | some e' => trivial
  | some e =>
    have hb : b = (some e, p) := hab
    rw [hb]
    trivial

theorem Exit.troubled_noted (p : Progress) (n : Note) : Exit.Troubled (none, p.noted n) :=
  List.append_ne_nil_of_right_ne_nil _ (List.cons_ne_nil _ _)

theorem Exit.Troubled.settle {a : Exit} (h : a.Troubled) : Exit.Troubled (none, a.settle) := by
  obtain ⟨e, p⟩ := a
  cases e with
  | none => exact h
  | some e => exact troubled_noted p _

/-- Strict rows on the one side are the lenient rows on the other. -/
def RowCache.Mirrors (rows rows' : RowCache) : Prop :=
  ∀ entity depth, rows.find? ⟨entity, depth, true⟩ = rows'.find? ⟨entity, depth, false⟩

theorem RowCache.Mirrors.kept {rows rows' : RowCache} (h : rows.Mirrors rows') (entity : String)
    (depth : Nat) (row : Ty) :
    RowCache.Mirrors (rows ++ [(⟨entity, depth, true⟩, row)])
      (rows' ++ [(⟨entity, depth, false⟩, row)]) := by
  intro entity' depth'
  have hold : rows.lookup ⟨entity', depth', true⟩ = rows'.lookup ⟨entity', depth', false⟩ :=
    h entity' depth'
  unfold RowCache.find?
  rw [List.lookup_append, List.lookup_append, hold]
  by_cases hkey : entity' = entity ∧ depth' = depth
  · obtain ⟨rfl, rfl⟩ := hkey
    rw [List.lookup_cons_self, List.lookup_cons_self]
  · have hne (b : Bool) : ((⟨entity', depth', b⟩ : RowKey) == ⟨entity, depth, b⟩) = false := by
      rw [beq_eq_false_iff_ne]
      intro heq
      injection heq with hentity hdepth
      exact hkey ⟨hentity, hdepth⟩
    rw [List.lookup_cons, List.lookup_cons, hne, hne]
    rfl

/-- A strict run beside a lenient one: joined while neither has a note, parted once both have run
into trouble. -/
def strictLenient : Discipline where
  joined p q := p.notes = [] ∧ q.notes = [] ∧ p.rows.Mirrors q.rows
  parted a b := a.Troubled ∧ b.Troubled
  parted_extend h ha hb := ⟨h.1.extend ha, h.2.extend hb⟩
  parted_fail _ _ := ⟨trivial, trivial⟩
  joined_noted n _ := .inr ⟨Exit.troubled_noted _ n, Exit.troubled_noted _ n⟩
  parted_settle h := .inr ⟨h.1.settle, h.2.settle⟩

/-- A strict policy fails where a lenient one records a note. -/
theorem alike_giveUp {α : Type} (cx : Context) (error : InferError) (entity : Option String)
    (cause : Cause) (a : α) :
    strictLenient.Alike (giveUp (cx.strictly true) error entity cause a)
      (giveUp (cx.strictly false) error entity cause a) where
  grows_left p := .refl p
  grows_right q := q.grows_noted ⟨entity, cause⟩
  ends _ := .parted ⟨trivial, Exit.troubled_noted _ _⟩

/-- A kept row is found on both sides or on none, and kept on both sides or on none. -/
theorem alike_entityRow (cx : Context) (entity : String)
    (h : strictLenient.Alike (rowAt (cx.strictly true) cx.config.maxDepth entity)
      (rowAt (cx.strictly false) cx.config.maxDepth entity)) :
    strictLenient.Alike (entityRow (cx.strictly true) entity)
      (entityRow (cx.strictly false) entity) where
  grows_left := grows_entityRow (cx.strictly true) h.grows_left
  grows_right := grows_entityRow (cx.strictly false) h.grows_right
  ends := by
    intro p q hpq
    by_cases hdepth : cx.config.maxDepth = 0
    · rw [entityRow_zero (cx.strictly true) hdepth, entityRow_zero (cx.strictly false) hdepth]
      exact .ok hpq
    · have hfind : p.rows.find? ((cx.strictly true).rowKey entity) =
          q.rows.find? ((cx.strictly false).rowKey entity) := hpq.2.2 entity cx.config.maxDepth
      cases hq : q.rows.find? ((cx.strictly false).rowKey entity) with
      | some row =>
        rw [runFrom_entityRow_hit (cx.strictly true) hdepth (hfind.trans hq),
          runFrom_entityRow_hit (cx.strictly false) hdepth hq]
        exact .ok hpq
      | none =>
        have hrow := h.ends hpq
        rcases hl : runFrom (rowAt (cx.strictly true) cx.config.maxDepth entity) p with ⟨r, p'⟩
        rcases hr : runFrom (rowAt (cx.strictly false) cx.config.maxDepth entity) q with ⟨r', q'⟩
        rw [hl, hr] at hrow
        cases r with
        | ok row =>
          rw [runFrom_entityRow_ok (cx.strictly true) hdepth (hfind.trans hq) hl]
          cases r' with
          | ok row' =>
            rw [runFrom_entityRow_ok (cx.strictly false) hdepth hq hr]
            cases hrow with
            | ok hjoined =>
              exact .ok ⟨hjoined.1, hjoined.2.1, hjoined.2.2.kept entity cx.config.maxDepth row⟩
            | parted hparted =>
              -- keeping a row does not touch the notes
              exact .parted hparted
          | error e' =>
            rw [runFrom_entityRow_error (cx.strictly false) hdepth hq hr]
            cases hrow with
            | parted hparted => exact .parted hparted
        | error e =>
          rw [runFrom_entityRow_error (cx.strictly true) hdepth (hfind.trans hq) hl]
          cases r' with
          | ok row' =>
            rw [runFrom_entityRow_ok (cx.strictly false) hdepth hq hr]
            cases hrow with
            | parted hparted => exact .parted hparted
          | error e' =>
            rw [runFrom_entityRow_error (cx.strictly false) hdepth hq hr]
            exact .parted ⟨trivial, trivial⟩

theorem covers_strictLenient (cx : Context) : strictLenient.Covers cx true false where
  giveUp := alike_giveUp cx
  entityRow := alike_entityRow cx

/-! ## Clean runs -/

/-- A report of a type without notes. -/
def Report.Clean (r : Report (Except InferError (Option Ty))) (t : Option Ty) : Prop :=
  r.result = .ok t ∧ r.notes = []

theorem Exit.Troubled.not_clean {α : Type} {r : Except InferError α × Progress}
    (h : (exitOf r).Troubled) (a : α) : ¬(r.1 = .ok a ∧ r.2.notes = []) := by
  obtain ⟨r, p⟩ := r
  rintro ⟨rfl, hnotes⟩
  exact h hnotes

theorem clean_iff_of_matches {α : Type} {r r' : Except InferError α × Progress}
    (h : strictLenient.Matches r r') (a : α) :
    r.1 = .ok a ∧ r.2.notes = [] ↔ r'.1 = .ok a ∧ r'.2.notes = [] := by
  cases h with
  | ok hjoined =>
    obtain ⟨hp, hq, -⟩ := hjoined
    rw [hp, hq]
  | parted hparted =>
    exact iff_of_false (hparted.1.not_clean a) (hparted.2.not_clean a)

/-- A task that starts without kept rows ends with a type and without notes under a strict policy
exactly when it does under a lenient one, and the type is the same. -/
theorem clean_strict_iff_clean_lenient (catalog : Catalog) (config : Config) (task : Task)
    (t : Option Ty) :
    (task.run catalog { config with strict := true } []).Clean t ↔
      (task.run catalog { config with strict := false } []).Clean t := by
  have halike := (covers_strictLenient ⟨config, catalog⟩).task task
  have hjoined : strictLenient.joined {} {} := ⟨rfl, rfl, fun _ _ => rfl⟩
  exact clean_iff_of_matches (halike.ends hjoined) t

end QueryTypes
