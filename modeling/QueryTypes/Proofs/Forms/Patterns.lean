import QueryTypes.Proofs.Forms.Slots
import QueryTypes.Proofs.Forms.Spellings

/-!
# Patterns

A pattern is the last rule of its string and stands between slashes, with flags after them. The body
of a pattern reaches the type of the field unchanged, whatever characters it has
(`leafType_pattern`): the rule takes the bars, its name ends at the first colon, and the last slash
of the text is the one in front of the flags. The blanks that are dropped around the text belong to
the flags.

The rules before the pattern fill the same slots as without it (`slots_delimited`).
-/

set_option autoImplicit false

namespace QueryTypes

/-! ## Texts -/

namespace Text

/-- Blanks at the end are dropped from what follows the last character that is no blank. -/
theorem dropBlanksEnd_append_cons {c : Char} (h : isBlank c = false) (cs ds : List Char) :
    dropBlanksEnd (cs ++ c :: ds) = cs ++ c :: dropBlanksEnd ds := by
  have hreverse : (cs ++ c :: ds).reverse = ds.reverse ++ c :: cs.reverse := by simp
  rw [dropBlanksEnd, hreverse, dropBlanks, List.dropWhile_append]
  split
  · next hblank =>
    rw [List.isEmpty_iff] at hblank
    rw [← dropBlanks, dropBlanks_cons_of_not_blank h, dropBlanksEnd, dropBlanks, hblank]
    simp
  · rw [dropBlanksEnd, dropBlanks]
    simp

/-- Between two characters that are no blanks nothing is dropped. -/
theorem trimChars_cons_append_cons {c d : Char} (hc : isBlank c = false) (hd : isBlank d = false)
    (cs ds : List Char) : trimChars (c :: cs ++ d :: ds) = c :: cs ++ d :: dropBlanksEnd ds := by
  rw [trimChars, List.cons_append, dropBlanks_cons_of_not_blank hc, ← List.cons_append,
    dropBlanksEnd_append_cons hd]

theorem mem_of_mem_dropBlanksEnd {c : Char} {cs : List Char} (h : c ∈ dropBlanksEnd cs) :
    c ∈ cs := by
  rw [dropBlanksEnd, List.mem_reverse] at h
  exact List.mem_reverse.1 ((List.dropWhile_suffix isBlank).subset h)

/-- A text without the separator belongs to the first piece of what follows it. -/
theorem splitChars_append_of_not_mem {sep : Char} {cs : List Char} (h : sep ∉ cs) (ds : List Char) :
    ∃ piece pieces, splitChars sep (cs ++ ds) = (cs ++ piece) :: pieces := by
  induction cs with
  | nil => exact List.exists_cons_of_ne_nil (splitChars_ne_nil sep ds)
  | cons c rest ih =>
    rw [List.mem_cons, not_or] at h
    obtain ⟨piece, pieces, hrest⟩ := ih h.2
    have hc : ¬(c == sep) = true := by simpa using Ne.symm h.1
    exact ⟨piece, pieces, by rw [List.cons_append, splitChars, hrest]; simp only [if_neg hc]; rfl⟩

end Text

namespace Rules

theorem joinBars_splitChars (cs : List Char) : joinBars (Text.splitChars '|' cs) = cs := by
  induction cs with
  | nil => rfl
  | cons c rest ih =>
    rw [Text.splitChars]
    cases hpieces : Text.splitChars '|' rest with
    | nil => exact absurd hpieces (Text.splitChars_ne_nil '|' rest)
    | cons piece pieces =>
      rw [hpieces] at ih
      by_cases hc : (c == '|') = true
      · simp only [if_pos hc, joinBars, ih, List.nil_append]
        rw [beq_iff_eq.1 hc]
      · cases pieces with
        | nil => simpa only [if_neg hc, joinBars, List.cons.injEq, true_and] using ih
        | cons next more =>
          simpa only [if_neg hc, joinBars, List.cons_append, List.cons.injEq, true_and] using ih

theorem beforeLast?_eq_none {c : Char} {cs : List Char} (h : c ∉ cs) : beforeLast? c cs = none := by
  induction cs with
  | nil => rfl
  | cons d rest ih =>
    rw [List.mem_cons, not_or] at h
    have hd : ¬(d == c) = true := by simpa using Ne.symm h.1
    rw [beforeLast?, ih h.2]
    exact if_neg hd

/-- The last occurrence is the one that no other follows. -/
theorem beforeLast?_append_cons {c : Char} {ds : List Char} (h : c ∉ ds) (cs : List Char) :
    beforeLast? c (cs ++ c :: ds) = some cs := by
  induction cs with
  | nil =>
    rw [List.nil_append, beforeLast?, beforeLast?_eq_none h]
    exact if_pos (beq_self_eq_true c)
  | cons d rest ih => rw [List.cons_append, beforeLast?, ih]

/-! ## A pattern between slashes -/

/-- A pattern between slashes, with flags. -/
def delimited (body flags : String) : String := "/" ++ body ++ "/" ++ flags

theorem toList_delimited (body flags : String) :
    (delimited body flags).toList = '/' :: (body.toList ++ '/' :: flags.toList) := by
  simp [delimited, String.toList_append]

/-- Blanks around a pattern between slashes are blanks at the end of its flags. -/
theorem trimChars_delimited {c : Char} (h : Text.isBlank c = false) (cs : List Char)
    (body flags : String) :
    Text.trimChars (c :: cs ++ (delimited body flags).toList) =
      c :: cs ++ (delimited body (String.ofList (Text.dropBlanksEnd flags.toList))).toList := by
  have hcut : c :: cs ++ (delimited body flags).toList =
      (c :: cs ++ '/' :: body.toList) ++ '/' :: flags.toList := by
    rw [toList_delimited]
    simp
  rw [hcut, List.cons_append, Text.trimChars_cons_append_cons h (by decide), toList_delimited]
  simp

/-- Of a pattern between slashes the body is left. -/
theorem stripDelimiters_delimited (body : String) {flags : String} (h : '/' ∉ flags.toList) :
    stripDelimiters (delimited body flags) = body := by
  have htrim : Text.trimChars (delimited body flags).toList =
      '/' :: (body.toList ++ '/' :: Text.dropBlanksEnd flags.toList) := by
    rw [toList_delimited]
    exact Text.trimChars_cons_append_cons (by decide) (by decide) body.toList flags.toList
  have hflags : '/' ∉ Text.dropBlanksEnd flags.toList :=
    fun hmem => h (Text.mem_of_mem_dropBlanksEnd hmem)
  rw [stripDelimiters, htrim]
  simp only [beforeLast?_append_cons hflags, Option.getD_some, String.ofList_toList]

/-- A pattern is one rule, whatever its body. -/
theorem splitRules_pattern (body flags : String) :
    splitRules ("regex:" ++ delimited body flags) =
      [⟨"regex", delimited body (String.ofList (Text.dropBlanksEnd flags.toList))⟩] := by
  have htext : ("regex:" ++ delimited body flags).toList =
      ['r', 'e', 'g', 'e', 'x', ':'] ++ (delimited body flags).toList := by
    rw [String.toList_append]
    rfl
  have hbar : '|' ∉ ['r', 'e', 'g', 'e', 'x', ':'] := by decide
  obtain ⟨piece, pieces, hpieces⟩ :=
    Text.splitChars_append_of_not_mem hbar (delimited body flags).toList
  -- the first piece starts with the name, so that it takes the pieces after it
  have hrest : takesRest (['r', 'e', 'g', 'e', 'x', ':'] ++ piece) = true := by
    rw [takesRest, List.cons_append, Text.dropBlanks_cons_of_not_blank (by decide)]
    rfl
  have hjoined := joinBars_splitChars ("regex:" ++ delimited body flags).toList
  rw [htext, hpieces] at hjoined
  have hrule (raw : String) : NamedRule.ofChars (['r', 'e', 'g', 'e', 'x', ':'] ++ raw.toList) =
      ⟨"regex", raw⟩ := by
    have hcut : Text.cutAt ':' (['r', 'e', 'g', 'e', 'x', ':'] ++ raw.toList) =
        some (['r', 'e', 'g', 'e', 'x'], raw.toList) := rfl
    have hname : Text.lowerAscii (String.ofList (Text.trimChars ['r', 'e', 'g', 'e', 'x'])) =
        "regex" := by
      decide +kernel
    rw [NamedRule.ofChars, hcut, Option.getD_some]
    show NamedRule.mk _ (String.ofList raw.toList) = _
    rw [hname, String.ofList_toList]
  rw [splitRules, htext, hpieces, rulesOfPieces, if_pos hrest, hjoined,
    trimChars_delimited (by decide), hrule]

/-- The rules of a string with a pattern at its end are the rules before it and the pattern. -/
theorem splitRules_append_pattern {rules : String} (h : ¬HasPattern rules) (body flags : String) :
    splitRules (rules ++ "|regex:/" ++ body ++ "/" ++ flags) =
      splitRules rules ++
        [⟨"regex", delimited body (String.ofList (Text.dropBlanksEnd flags.toList))⟩] := by
  have htext : rules ++ "|regex:/" ++ body ++ "/" ++ flags =
      "|".intercalate [rules, "regex:" ++ delimited body flags] := by
    have hbar : "|regex:/" = "|" ++ "regex:" ++ "/" := rfl
    simp only [String.intercalate_cons_cons, String.intercalate_singleton, delimited, hbar,
      String.append_assoc]
  rw [htext, splitRules_intercalate (by simpa using h)]
  simp [splitRules_pattern]

/-! ## The pattern of a field -/

/-- What a string leaves, whatever the catalog: it names no enumeration. -/
theorem foldl_named_eq_slots (catalog : Catalog) (s : String) :
    (splitRules s).foldl Facts.named {} = slots catalog (rulesOf [.text s]) := by
  have hrules : rulesOf [.text s] = (splitRules s).map .named := List.flatMap_singleton _ _
  rw [← foldl_update, hrules, List.foldl_map]
  congr 1
  funext f r
  exact f.named_eq catalog r

/-- A field with one string of rules never fails. -/
theorem leafType_text (cx : Context) (key s : String) (description : Option String)
    (examples : List String) :
    let field : RuleSet := { tokens := [.text s], description, examples }
    leafType cx key field = pure (field.leaf cx (slots cx.catalog (rulesOf [.text s]))) := by
  intro field
  have hfacts := foldlM_texts cx key [s] {}
  rw [List.flatMap_singleton, foldl_named_eq_slots cx.catalog] at hfacts
  have hleaf : leafType cx key field =
      [RuleToken.text s].foldlM (Facts.token cx key) {} >>= fun f => pure (field.leaf cx f) := rfl
  rw [hleaf]
  exact congrArg (· >>= fun f => pure (field.leaf cx f)) hfacts

theorem Facts.named_regex (f : Facts) (raw : String) :
    f.named ⟨"regex", raw⟩ = { f with pattern := some (stripDelimiters raw) } := rfl

/-- The pattern fills its own slot with its body and leaves the other slots to the rules before
it. -/
theorem slots_delimited (catalog : Catalog) {rules : String} (hrules : ¬HasPattern rules)
    (body : String) {flags : String} (hflags : '/' ∉ flags.toList) :
    slots catalog (rulesOf [.text (rules ++ "|regex:/" ++ body ++ "/" ++ flags)]) =
      { slots catalog (rulesOf [.text rules]) with pattern := some body } := by
  have hends : '/' ∉ (String.ofList (Text.dropBlanksEnd flags.toList)).toList := by
    rw [String.toList_ofList]
    exact fun hmem => hflags (Text.mem_of_mem_dropBlanksEnd hmem)
  rw [← foldl_named_eq_slots, ← foldl_named_eq_slots, splitRules_append_pattern hrules,
    List.foldl_append, List.foldl_cons, List.foldl_nil, Facts.named_regex,
    stripDelimiters_delimited body hends]

/-- The type with a pattern, if it is a string. -/
def withPattern (t : Ty) (pattern : String) : Ty :=
  match t.kind with
  | .scalar s =>
    if s.kind = .string then t.withKind (.scalar { s with pattern := some pattern }) else t
  | _ => t

theorem pattern_withPattern {t : Ty} {pattern : String} {s : Scalar}
    (h : (withPattern t pattern).kind = .scalar s) (hkind : s.kind = .string) :
    s.pattern = some pattern := by
  obtain ⟨k, slot⟩ := t
  cases k with
  | scalar s' =>
    by_cases hs' : s'.kind = .string
    · simp only [withPattern, Ty.kind_mk, if_pos hs', Ty.withKind, Kind.scalar.injEq] at h
      rw [← h]
    · simp only [withPattern, Ty.kind_mk, if_neg hs', Kind.scalar.injEq] at h
      exact absurd (h ▸ hkind) hs'
  | unknown | array | object | union => cases h

theorem Facts.plainType_pattern (cx : Context) (f : Facts) (pattern : String) :
    ({ f with pattern := some pattern } : Facts).plainType cx =
      withPattern (f.plainType cx) pattern := by
  rw [Facts.plainType, Facts.plainType]
  generalize f.enumeration.getD _ = t
  obtain ⟨k, slot⟩ := t
  cases k with
  | scalar s =>
    cases hkind : s.kind <;> simp [Facts.restrict, withPattern, Ty.withKind, hkind,
      ScalarKind.isNumeric]
  | unknown | array | object | union => rfl

/-- The body of a pattern reaches the type of a field unchanged. In a string of rules the pattern
comes after rules without one, its body is any text, and its flags have no slash. Then the rules
before it have the effect that they have without it: of what they leave only the pattern is
replaced, by the body. The type before it is made nullable is the one without the pattern, with the
body as its pattern if it is a string. -/
theorem leafType_pattern (cx : Context) (key : String) (description : Option String)
    (examples : List String) {rules : String} (hrules : ¬HasPattern rules) (body : String)
    {flags : String} (hflags : '/' ∉ flags.toList) :
    let field (s : String) : RuleSet := { tokens := [.text s], description, examples }
    let before := slots cx.catalog (rulesOf [.text rules])
    let after : Facts := { before with pattern := some body }
    leafType cx key (field rules) = pure ((field rules).leaf cx before) ∧
      leafType cx key (field (rules ++ "|regex:/" ++ body ++ "/" ++ flags)) =
        pure ((field rules).leaf cx after) ∧
      after.plainType cx = withPattern (before.plainType cx) body ∧
      ∀ s, (after.plainType cx).kind = .scalar s → s.kind = .string → s.pattern = some body := by
  intro field before after
  have hplain := before.plainType_pattern cx body
  refine ⟨leafType_text cx key rules description examples, ?_, hplain, ?_⟩
  · rw [leafType_text, slots_delimited cx.catalog hrules body hflags]
    rfl
  · intro s hs hkind
    rw [hplain] at hs
    exact pattern_withPattern hs hkind

/-- A pattern with bars, colons, commas, quotes, slashes and blanks, after rules of which one makes
the field nullable. -/
theorem leafType_pattern_quoted :
    let rules := " required|nullable|max:5"
    let body := "^\"(a|b)\": x/y,'z' $ "
    let field : RuleSet := { tokens := [.text (rules ++ "|regex:/" ++ body ++ "/" ++ "iu ")] }
    ¬HasPattern rules ∧ '/' ∉ "iu ".toList ∧
      ∃ leaf, leafType ⟨{}, {}⟩ "code" field = pure (leaf, false) ∧ leaf.required = true ∧
        leaf.kind = .union [.ofKind (.scalar { kind := .string, pattern := some body }),
          .null] := by
  intro rules body field
  have hrules : ¬HasPattern rules := by decide +kernel
  have hflags : '/' ∉ "iu ".toList := by decide
  have hslots : slots {} (rulesOf [.text rules]) =
      { maximum := some (.ofNat 5), nullable := true, required := true } := by
    have hsplit : splitRules rules = [⟨"required", ""⟩, ⟨"nullable", ""⟩, ⟨"max", "5"⟩] := by
      decide +kernel
    have hnumber : NamedRule.number ⟨"max", "5"⟩ 0 = some (.ofNat 5) := by decide +kernel
    rw [← foldl_named_eq_slots, hsplit]
    show Facts.withMaximum _ (NamedRule.number ⟨"max", "5"⟩ 0) = _
    rw [hnumber]
    rfl
  obtain ⟨-, hleaf, -⟩ := leafType_pattern ⟨{}, {}⟩ "code" none [] hrules body hflags
  rw [hslots] at hleaf
  have hnullable :
      (Ty.nullable (.ofKind (.scalar { kind := .string, pattern := some body }))).kind =
      .union [.ofKind (.scalar { kind := .string, pattern := some body }), .null] := by
    simp [Ty.nullable, Ty.isNull, Ty.scalarKind?, Ty.union, Ty.members, Ty.distinct, Ty.addDistinct,
      Ty.same, Kind.same, Scalar.same, Ty.ofMembers, Ty.ofKind, Ty.withRequired, Ty.null, Ty.scalar,
      Scalar.ofKind]
  exact ⟨hrules, hflags, _, hleaf, rfl, hnullable⟩

end Rules

end QueryTypes
