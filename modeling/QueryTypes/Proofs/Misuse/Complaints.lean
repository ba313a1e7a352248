import QueryTypes.Proofs.Conduct.Query

/-!
# Complaints about misuse

A query has a row only if its chain starts at an entity, has a call, and runs the query with its
last call at most (`Chain.IsQuery`). Whoever asks for the result of another chain is told so
(`resolveResult_eq_unresolved`), and the texts of these complaints are told apart from all others by
how they begin (`Cause.not_isMisuseText`).
-/

set_option autoImplicit false

namespace QueryTypes

/-! ## Texts of misuse -/

/-- What is said about a chain that is no query. -/
def Subject.isMisuse : Subject → Bool
  | .noRoot | .earlyFinisher _ | .bareEntity => true
  | .notBuilderMethod _ | .builderMethod _ | .collectionMethod _ => false

/-- A failure over a chain that is no query. -/
def InferError.isMisuse : InferError → Bool
  | .unresolvable what _ => what.isMisuse
  | .wildcardRoot _ | .emptySegment _ | .catalog .. => false

/-- A cause that is about a chain that is no query. -/
def Cause.isMisuse : Cause → Bool
  | .unresolved what => what.isMisuse
  | .failure error => error.isMisuse
  | .catalogUnavailable _ | .unknownRelation _ | .pluckNotLiteral | .inclusionWithoutValues _
  | .enumUnavailable .. => false

/-- The text tells of a chain that is no query, with or without an entity. -/
def IsMisuseText (text : String) : Prop :=
  ∃ what entity, Subject.isMisuse what = true ∧ text = (InferError.unresolvable what entity).message

/-- How texts of misuse begin, and how all others do. -/
def openings : Bool → List String
  | true => ["cannot resolve builder chain", "cannot resolve chain", "cannot resolve bare"]
  | false =>
    ["cannot resolve `", "cannot resolve builder method", "cannot resolve collection", "rule path",
      "catalog", "unknown", "pluck", "`"]

/-- No text has a beginning of either sort. -/
theorem openings_apart : ∀ a ∈ openings false, ∀ b ∈ openings true,
    ¬ (a.toList <+: b.toList ∨ b.toList <+: a.toList) := by
  decide +kernel

/-- The text has a beginning of a sort. -/
def Begins (misuse : Bool) (text : String) : Prop := ∃ a ∈ openings misuse, a.toList <+: text.toList

theorem Begins.append {misuse : Bool} {text : String} (h : Begins misuse text) (more : String) :
    Begins misuse (text ++ more) := by
  obtain ⟨a, ha, hprefix⟩ := h
  refine ⟨a, ha, ?_⟩
  rw [String.toList_append]
  exact hprefix.trans (List.prefix_append _ _)

theorem begins_of_mem {misuse : Bool} {a : String} (h : a ∈ openings misuse) : Begins misuse a :=
  ⟨a, h, List.prefix_refl _⟩

theorem begins_quoted (name : String) : Begins false (quoted name) :=
  ((begins_of_mem (a := "`") (by decide)).append name).append "`"

instance (misuse : Bool) (text : String) : Decidable (Begins misuse text) :=
  inferInstanceAs (Decidable (∃ a ∈ openings misuse, a.toList <+: text.toList))

theorem Subject.begins (what : Subject) :
    Begins what.isMisuse ("cannot resolve " ++ what.text) := by
  cases what with
  | noRoot | bareEntity => decide +kernel
  | earlyFinisher method =>
    show Begins true ("cannot resolve " ++ ("chain finished early by " ++ quoted method))
    rw [← String.append_assoc]
    apply Begins.append
    decide +kernel
  | builderMethod method =>
    show Begins false ("cannot resolve " ++ ("builder method " ++ quoted method))
    rw [← String.append_assoc]
    apply Begins.append
    decide +kernel
  | collectionMethod method =>
    show Begins false ("cannot resolve " ++ ("collection method " ++ quoted method))
    rw [← String.append_assoc]
    apply Begins.append
    decide +kernel
  | notBuilderMethod method =>
    show Begins false ("cannot resolve " ++ ("`" ++ method ++ "`" ++ " is not a builder method"))
    rw [← String.append_assoc, ← String.append_assoc, ← String.append_assoc]
    iterate 3 apply Begins.append
    decide +kernel

theorem InferError.begins (e : InferError) : Begins e.isMisuse e.message := by
  cases e with
  | wildcardRoot path =>
    iterate 2 apply Begins.append
    show Begins false "rule path "
    decide +kernel
  | emptySegment path =>
    iterate 2 apply Begins.append
    show Begins false "rule path "
    decide +kernel
  | catalog entity source =>
    iterate 3 apply Begins.append
    show Begins false "catalog for entity "
    decide +kernel
  | unresolvable what entity =>
    cases entity with
    | none => exact what.begins
    | some entity =>
      iterate 3 apply Begins.append
      exact what.begins

theorem Cause.begins (c : Cause) : Begins c.isMisuse c.message := by
  cases c with
  | unresolved what => exact what.begins
  | failure error => exact error.begins
  | pluckNotLiteral => decide +kernel
  | catalogUnavailable source =>
    apply Begins.append
    show Begins false "catalog unavailable: "
    decide +kernel
  | unknownRelation name =>
    apply Begins.append
    show Begins false "unknown relation "
    decide +kernel
  | inclusionWithoutValues key => exact (begins_quoted key).append _
  | enumUnavailable key source => exact ((begins_quoted key).append _).append _

/-- A cause that is no misuse does not read like one. -/
theorem Cause.not_isMisuseText {c : Cause} (h : c.isMisuse = false) : ¬ IsMisuseText c.message := by
  rintro ⟨what, entity, hwhat, htext⟩
  obtain ⟨a, ha, hprefix⟩ := c.begins
  obtain ⟨b, hb, hprefix'⟩ := (InferError.unresolvable what entity).begins
  rw [h] at ha
  rw [← htext] at hprefix'
  have hmisuse : (InferError.unresolvable what entity).isMisuse = true := hwhat
  rw [hmisuse] at hb
  -- two beginnings of one text are comparable
  exact openings_apart a ha b hb (List.prefix_or_prefix_of_prefix hprefix hprefix')

theorem resolveRow_eq_unresolved (cx : Context) {chain : Chain} (hsteps : chain.steps ≠ [])
    (h : ¬ chain.IsQuery) :
    ∃ entity what, Subject.isMisuse what = true ∧
      resolveRow cx chain = unresolved cx entity what := by
  cases hroot : chain.root with
  | none =>
    refine ⟨none, .noRoot, rfl, ?_⟩
    rw [resolveRow, hroot]
  | some entity =>
    -- what is left to miss is a finisher before the last call
    cases hfind : chain.steps.dropLast.find? fun s => isFinisher s.name with
    | none =>
      refine absurd ⟨by rw [hroot]; rfl, hsteps, ?_⟩ h
      intro s hs
      exact Bool.eq_false_iff.2 (List.find?_eq_none.1 hfind s hs)
    | some s =>
      refine ⟨some entity, .earlyFinisher s.name, rfl, ?_⟩
      have hmisuse : misuse? cx chain.steps = some (.earlyFinisher s.name) := by
        rw [misuse?, hfind]
      rw [resolveRow, hroot]
      dsimp only
      rw [hmisuse]

/-- For a chain that is no query the result is the complaint. -/
theorem resolveResult_eq_unresolved (cx : Context) {chain : Chain} (h : ¬ chain.IsQuery) :
    ∃ entity what, Subject.isMisuse what = true ∧
      resolveResult cx chain = unresolved cx entity what := by
  rw [resolveResult]
  split
  · exact ⟨chain.root, .bareEntity, rfl, rfl⟩
  · next last hlast =>
    have hsteps : chain.steps ≠ [] := by
      intro hnil
      rw [hnil] at hlast
      cases hlast
    obtain ⟨entity, what, hwhat, hrow⟩ := resolveRow_eq_unresolved cx hsteps h
    refine ⟨entity, what, hwhat, ?_⟩
    rw [hrow, unresolved]
    -- the complaint has no row, so nothing is made of it
    split
    · rfl
    · rfl

end QueryTypes
