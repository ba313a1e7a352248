import QueryTypes.Document.Rules
import QueryTypes.Proofs.RoundTrip.Fields

/-!
# Spellings of rules

Rules can be written as one string with bars between them or as a list of strings, and the values of
an inclusion can be listed in a string or in a document. All of these give the same field
(`leafType_spellings`).

A string is cut into its rules from the left, and a rule with a pattern takes what is left of the
string. So the rules of a joined string are those of its parts as long as only the last part has a
pattern (`splitRules_intercalate`).
-/

set_option autoImplicit false

namespace QueryTypes

/-! ## Texts -/

namespace Text

theorem splitChars_eq_splitOn (sep : Char) (cs : List Char) :
    splitChars sep cs = cs.splitOn sep := by
  induction cs with
  | nil => rw [splitChars, List.splitOn_nil]
  | cons c rest ih =>
    rw [splitChars, ih, List.splitOn_cons_eq_if_modifyHead]
    cases hpieces : rest.splitOn sep with
    | nil => exact absurd hpieces (List.splitOn_ne_nil sep rest)
    | cons piece pieces => rfl

/-- The pieces of a text around a separator are the pieces of both sides. -/
theorem splitChars_append_cons (sep : Char) (cs ds : List Char) :
    splitChars sep (cs ++ sep :: ds) = splitChars sep cs ++ splitChars sep ds := by
  simp only [splitChars_eq_splitOn, List.splitOn_append_cons_self]

/-- What is left of a text without the blanks around it ends with no blank. -/
theorem isBlank_of_getLast?_trimChars {cs : List Char} {c : Char}
    (h : (trimChars cs).getLast? = some c) : isBlank c = false := by
  have hend := List.head?_dropWhile_not isBlank (dropBlanks cs).reverse
  rw [trimChars, dropBlanksEnd, List.getLast?_reverse] at h
  rw [← dropBlanks, h] at hend
  exact hend

theorem dropBlanksEnd_of_getLast? {cs : List Char}
    (h : ∀ c, cs.getLast? = some c → isBlank c = false) : dropBlanksEnd cs = cs := by
  rw [dropBlanksEnd]
  cases hreverse : cs.reverse with
  | nil => rw [List.reverse_eq_nil_iff.1 hreverse]; rfl
  | cons c rest =>
    have hlast : cs.getLast? = some c := by rw [List.getLast?_eq_head?_reverse, hreverse]; rfl
    rw [dropBlanks_cons_of_not_blank (h c hlast), ← hreverse, List.reverse_reverse]

theorem cutAt_append {sep : Char} {cs : List Char} (h : sep ∉ cs) (rest : List Char) :
    cutAt sep (cs ++ sep :: rest) = some (cs, rest) := by
  induction cs with
  | nil => simp [cutAt]
  | cons c cs ih =>
    obtain ⟨hne, hcs⟩ := List.ne_and_not_mem_of_not_mem_cons h
    rw [List.cons_append, cutAt, if_neg (by simpa using Ne.symm hne), ih hcs]
    rfl

end Text

namespace Rules

/-! ## Joined strings -/

/-- A rule of the string is a pattern, which takes what is left of the string. -/
def HasPattern (s : String) : Prop := ∃ piece ∈ Text.splitChars '|' s.toList, takesRest piece = true

instance (s : String) : Decidable (HasPattern s) :=
  inferInstanceAs (Decidable (∃ piece ∈ _, takesRest piece = true))

theorem rulesOfPieces_append {ps : List (List Char)} (h : ∀ piece ∈ ps, takesRest piece = false)
    (qs : List (List Char)) : rulesOfPieces (ps ++ qs) = rulesOfPieces ps ++ rulesOfPieces qs := by
  induction ps with
  | nil => rfl
  | cons piece rest ih =>
    rw [List.forall_mem_cons] at h
    -- the first piece gives at most one rule, whatever follows it
    have hstep (more : List (List Char)) : rulesOfPieces (piece :: more) =
        (if (Text.trimChars piece).isEmpty then [] else [.ofChars (Text.trimChars piece)]) ++
          rulesOfPieces more := by
      by_cases hempty : (Text.trimChars piece).isEmpty = true
      · simp [rulesOfPieces, h.1, hempty]
      · simp [rulesOfPieces, h.1, hempty]
    rw [List.cons_append, hstep, hstep, ih h.2, List.append_assoc]

/-- The rules of a joined string are those of its parts. -/
theorem splitRules_intercalate {ss : List String} (h : ∀ s ∈ ss.dropLast, ¬HasPattern s) :
    splitRules ("|".intercalate ss) = ss.flatMap splitRules := by
  induction ss with
  | nil => decide
  | cons s rest ih =>
    cases rest with
    | nil => rw [String.intercalate_singleton, List.flatMap_singleton]
    | cons next more =>
      rw [List.dropLast_cons_cons, List.forall_mem_cons] at h
      have hpieces : ∀ piece ∈ Text.splitChars '|' s.toList, takesRest piece = false := by
        intro piece hpiece
        by_contra htakes
        exact h.1 ⟨piece, hpiece, by simpa using htakes⟩
      have htext : ("|".intercalate (s :: next :: more)).toList =
          s.toList ++ '|' :: ("|".intercalate (next :: more)).toList := by
        rw [String.intercalate_cons_cons, String.toList_append, String.toList_append,
          List.append_assoc]
        rfl
      rw [splitRules, htext, Text.splitChars_append_cons, rulesOfPieces_append hpieces,
        List.flatMap_cons]
      exact congrArg (splitRules s ++ ·) (ih h.2)

/-! ## One rule with parameters -/

/-- A name that is read as it stands and is not that of a pattern. -/
structure IsRuleName (name : String) : Prop where
  head : ∃ c, name.toList.head? = some c ∧ Text.isBlank c = false
  colon : ':' ∉ name.toList
  bar : '|' ∉ name.toList
  read : Text.lowerAscii (Text.trim name) = name
  plain : ∀ raw, takesRest (name.toList ++ ':' :: raw) = false

/-- A name and parameters that neither hold a bar nor end in a blank are one rule. -/
theorem IsRuleName.splitRules_eq {name raw : String} (h : IsRuleName name) (hbar : '|' ∉ raw.toList)
    (hlast : ∀ c, raw.toList.getLast? = some c → Text.isBlank c = false) :
    splitRules (name ++ ":" ++ raw) = [⟨name, raw⟩] := by
  have htext : (name ++ ":" ++ raw).toList = name.toList ++ ':' :: raw.toList := by
    rw [String.toList_append, String.toList_append, List.append_assoc]
    rfl
  have hbars : '|' ∉ name.toList ++ ':' :: raw.toList := by
    simp [h.bar, hbar]
  have htrim : Text.trimChars (name.toList ++ ':' :: raw.toList) =
      name.toList ++ ':' :: raw.toList := by
    obtain ⟨c, hhead, hc⟩ := h.head
    obtain ⟨rest, hname⟩ := List.head?_eq_some_iff.1 hhead
    rw [Text.trimChars, hname, List.cons_append, Text.dropBlanks_cons_of_not_blank hc]
    apply Text.dropBlanksEnd_of_getLast?
    intro d hd
    rw [← List.cons_append, List.getLast?_append, List.getLast?_cons] at hd
    cases hraw : raw.toList.getLast? with
    | none =>
      -- the rule ends with its colon
      rw [hraw] at hd
      cases hd
      decide
    | some e =>
      rw [hraw] at hd
      cases hd
      exact hlast _ hraw
  have hrule : NamedRule.ofChars (name.toList ++ ':' :: raw.toList) = ⟨name, raw⟩ := by
    rw [NamedRule.ofChars, Text.cutAt_append h.colon]
    show NamedRule.mk (Text.lowerAscii (Text.trim name)) (String.ofList raw.toList) = _
    rw [h.read, String.ofList_toList]
  have hne : (name.toList ++ ':' :: raw.toList).isEmpty = false := by simp
  rw [splitRules, htext, Text.splitChars_eq_splitOn, List.splitOn_eq_singleton hbars, rulesOfPieces,
    h.plain raw.toList]
  simp only [Bool.false_eq_true, if_false, htrim, hne, hrule, rulesOfPieces]

/-! ## Exchanging tokens -/

/-- Tokens that say the same can stand for each other among any other tokens. -/
theorem leafType_exchange {cx : Context} {key : String} {ts us : List RuleToken}
    (h : ∀ f, ts.foldlM (Facts.token cx key) f = us.foldlM (Facts.token cx key) f) (rules : RuleSet)
    (before after : List RuleToken) :
    leafType cx key { rules with tokens := before ++ ts ++ after } =
      leafType cx key { rules with tokens := before ++ us ++ after } := by
  have htokens : (before ++ ts ++ after).foldlM (Facts.token cx key) {} =
      (before ++ us ++ after).foldlM (Facts.token cx key) {} := by
    simp only [List.foldlM_append, h]
  rw [leafType, leafType, htokens]

theorem foldlM_texts (cx : Context) (key : String) (ss : List String) (f : Facts) :
    (ss.map RuleToken.text).foldlM (Facts.token cx key) f =
      pure ((ss.flatMap splitRules).foldl Facts.named f) := by
  induction ss generalizing f with
  | nil => rfl
  | cons s rest ih =>
    have htext : Facts.token cx key f (.text s) = pure ((splitRules s).foldl Facts.named f) := rfl
    rw [List.map_cons, List.foldlM_cons, htext, pure_bind, ih, List.flatMap_cons, List.foldl_append]

/-! ## Listed values -/

/-- A value that can be listed in a string: it holds neither separator and no blanks stand around
it. -/
structure Listable (v : String) : Prop where
  comma : ',' ∉ v.toList
  bar : '|' ∉ v.toList
  trimmed : Text.trim v = v

/-- The string that lists the values of an inclusion. -/
def inclusionText (values : List String) : String := "in:" ++ ",".intercalate values

/-- The document that lists the values of an inclusion. -/
def inclusionDocument (values : List String) : Json :=
  .obj [("rule", .str "in"), ("values", .arr (values.map .str))]

theorem isRuleName_in : IsRuleName "in" where
  head := ⟨'i', by decide⟩
  colon := by decide
  bar := by decide
  read := by decide +kernel
  plain _ := rfl

section Values

variable {values : List String} (h : ∀ v ∈ values, Listable v)
include h

theorem toList_trimmed {v : String} (hv : v ∈ values) : Text.trimChars v.toList = v.toList := by
  have htrim := congrArg String.toList (h v hv).trimmed
  rwa [Text.trim, String.toList_ofList] at htrim

/-- The joined values do not end in a blank. -/
theorem isBlank_of_getLast?_values {c : Char}
    (hc : (",".intercalate values).toList.getLast? = some c) : Text.isBlank c = false := by
  induction values with
  | nil => cases hc
  | cons v rest ih =>
    cases rest with
    | nil =>
      rw [String.intercalate_singleton, ← toList_trimmed h List.mem_cons_self] at hc
      exact Text.isBlank_of_getLast?_trimChars hc
    | cons next more =>
      rw [List.forall_mem_cons] at h
      rw [String.intercalate_cons_cons, String.toList_append, String.toList_append,
        List.getLast?_append, List.getLast?_append] at hc
      cases hlast : (",".intercalate (next :: more)).toList.getLast? with
      | some d =>
        rw [hlast] at hc
        cases hc
        exact ih h.2 hlast
      | none =>
        -- the values end in a comma
        rw [hlast] at hc
        cases hc
        decide

theorem bar_not_mem_values : '|' ∉ (",".intercalate values).toList := by
  induction values with
  | nil => decide
  | cons v rest ih =>
    rw [List.forall_mem_cons] at h
    cases rest with
    | nil =>
      rw [String.intercalate_singleton]
      exact h.1.bar
    | cons next more =>
      rw [String.intercalate_cons_cons, String.toList_append, String.toList_append, List.mem_append,
        List.mem_append, not_or, not_or]
      exact ⟨⟨h.1.bar, by decide⟩, ih h.2⟩

theorem splitChars_values (hne : values ≠ []) :
    Text.splitChars ',' (",".intercalate values).toList = values.map String.toList := by
  rw [Text.splitChars_eq_splitOn, String.toList_intercalate]
  apply List.splitOn_intercalate
  · intro cs hcs
    obtain ⟨v, hv, rfl⟩ := List.mem_map.1 hcs
    exact (h v hv).comma
  · simpa using hne

/-- A name and listed values are one rule. -/
theorem splitRules_values {name : String} (hname : IsRuleName name) :
    splitRules (name ++ ":" ++ ",".intercalate values) = [⟨name, ",".intercalate values⟩] :=
  hname.splitRules_eq (bar_not_mem_values h) fun _ => isBlank_of_getLast?_values h

theorem splitRules_inclusionText :
    splitRules (inclusionText values) = [⟨"in", ",".intercalate values⟩] := by
  have htext : "in:" = "in" ++ ":" := by decide
  rw [inclusionText, htext]
  exact splitRules_values h isRuleName_in

/-- The values are read back from the parameters of the rule. -/
theorem params_values (name : String) (hne : values ≠ [""]) :
    NamedRule.params ⟨name, ",".intercalate values⟩ = values := by
  by_cases hnil : values = []
  · rw [hnil]
    rfl
  · have hsplit := splitChars_values h hnil
    have hraw : ¬(",".intercalate values).isEmpty = true := by
      intro hempty
      -- the empty text is one empty piece, so that only the empty text was listed
      have hpieces : [[]] = values.map String.toList := by
        rw [← hsplit, String.isEmpty_iff.1 hempty]
        rfl
      apply hne
      simpa [Function.comp_def] using congrArg (List.map String.ofList) hpieces.symm
    rw [NamedRule.params, if_neg hraw, Text.splitOn, hsplit, List.map_map, List.map_map]
    refine (List.map_congr_left (g := id) ?_).trans (List.map_id values)
    intro v hv
    show Text.trim (String.ofList v.toList) = v
    rw [String.ofList_toList]
    exact (h v hv).trimmed

end Values

/-- The document of listed values is read into an object with these values. -/
theorem decode_inclusionDocument (values : List String) :
    RuleToken.decode (inclusionDocument values) =
      .ok (.object (.ofValues .inclusion (values.map .str))) := by
  have hvalues : Decode.list (fun j => .ok j.settle) (.arr (values.map Json.str)) =
      .ok (values.map Json.str) := by
    have hlist : (values.map Json.str).map id = values.map Json.str := List.map_id _
    refine (congrArg (fun js => Decode.list _ (.arr js)) hlist.symm).trans (Decode.list_map ?_)
    intro j hj
    obtain ⟨v, -, rfl⟩ := List.mem_map.1 hj
    rfl
  have hread : (Record.required 1 "values" (Decode.list fun j => .ok j.settle)).Gives
      [("rule", .str "in"), ("values", .arr (values.map .str))] (values.map .str) :=
    .field rfl hvalues
  have hclass : (Record.atEnd RuleClass.decode).Gives
      [("rule", .str "in"), ("values", .arr (values.map .str))] .inclusion := .atEnd rfl
  have hobject : RuleObject.decodeValues (inclusionDocument values) =
      .ok (.ofValues .inclusion (values.map .str)) :=
    ((hclass.map RuleObject.ofValues).seq hread).readObject
  have hdocument : RuleToken.decode (inclusionDocument values) =
      ((RuleObject.decodeValues (inclusionDocument values)).orElse
        (RuleObject.decode (inclusionDocument values))).map .object := rfl
  rw [hdocument, hobject]
  rfl

theorem literals?_ofValues (c : RuleClass) (values : List String) :
    (RuleObject.ofValues c (values.map .str)).literals? = some (values.map .str) := by
  have hentries : ∀ i, Ty.literalsEntries? (Ty.ofJsonList i (values.map .str)) =
      some (values.map .str) := by
    induction values with
    | nil => intro i; rw [List.map_nil, Ty.ofJsonList, Ty.literalsEntries?]; rfl
    | cons v rest ih =>
      intro i
      have hv : Ty.literals? ((Ty.ofJson (.str v)).withRequired true) = some [.str v] := by
        rw [Ty.ofJson]
        rfl
      rw [List.map_cons, Ty.ofJsonList, Ty.literalsEntries?, hv, ih]
      rfl
  have hshape : Ty.literals? (.ofJson (.arr (values.map .str))) = some (values.map .str) := by
    rw [Ty.ofJson, Ty.shape, Ty.ofKind, Ty.literals?, hentries]
  rw [RuleObject.literals?, RuleObject.ofValues, List.mapM_cons, hshape]
  simp

/-- The two ways to list values say the same. -/
theorem foldlM_inclusion (cx : Context) (key : String) {values : List String} (hne : values ≠ [""])
    (h : ∀ v ∈ values, Listable v) (f : Facts) :
    [RuleToken.text (inclusionText values)].foldlM (Facts.token cx key) f =
      [RuleToken.object (.ofValues .inclusion (values.map .str))].foldlM
        (Facts.token cx key) f := by
  have htext : Facts.token cx key f (.text (inclusionText values)) =
      pure { f with inclusion := some (values.map .str) } := by
    have hnamed : f.named ⟨"in", ",".intercalate values⟩ =
        { f with inclusion := some (values.map .str) } := by
      rw [Facts.named]
      simp only [params_values h _ hne]
    rw [Facts.token, splitRules_inclusionText h, List.foldl_cons, List.foldl_nil, hnamed]
  have hobject : Facts.token cx key f (.object (.ofValues .inclusion (values.map .str))) =
      pure { f with inclusion := some (values.map .str) } := by
    have hliterals := literals?_ofValues .inclusion values
    rw [Facts.token, Facts.object, hliterals]
    rfl
  rw [List.foldlM_cons, List.foldlM_cons, htext, hobject]

/-- Spellings of the same rules give the same field, among any other tokens of the field.

Strings of which only the last has a pattern can be joined by bars into one. A string that lists the
values of an inclusion can be exchanged with the document that lists them, unless the empty text is
their only one: the string for it lists nothing. -/
theorem leafType_spellings (cx : Context) (key : String) (rules : RuleSet)
    (before after : List RuleToken) :
    (∀ ss : List String, (∀ s ∈ ss.dropLast, ¬HasPattern s) →
      leafType cx key { rules with tokens := before ++ ss.map .text ++ after } =
        leafType cx key { rules with tokens := before ++ [.text ("|".intercalate ss)] ++ after }) ∧
    ∀ values : List String, values ≠ [""] → (∀ v ∈ values, Listable v) →
      ∃ token, RuleToken.decode (inclusionDocument values) = .ok token ∧
        leafType cx key { rules with tokens := before ++ [.text (inclusionText values)] ++ after } =
          leafType cx key { rules with tokens := before ++ [token] ++ after } := by
  constructor
  · intro ss hss
    apply leafType_exchange
    intro f
    have hjoined := foldlM_texts cx key ["|".intercalate ss] f
    rw [foldlM_texts, ← splitRules_intercalate hss]
    rw [List.map_singleton, List.flatMap_singleton] at hjoined
    exact hjoined.symm
  · intro values hne hvalues
    exact ⟨_, decode_inclusionDocument values,
      leafType_exchange (foldlM_inclusion cx key hne hvalues) rules before after⟩

/-- A field with a pattern that holds a bar, and sizes of which one holds a blank and one is
empty. -/
theorem leafType_spellings_sizes :
    let cx : Context := ⟨{}, {}⟩
    let ss := ["required|string", " max:5 ", "regex:/a|b/"]
    let values := ["s", "x l", ""]
    (∀ s ∈ ss.dropLast, ¬HasPattern s) ∧
      leafType cx "code" { tokens := ss.map .text } =
        leafType cx "code" { tokens := [.text "required|string| max:5 |regex:/a|b/"] } ∧
      (∀ v ∈ values, Listable v) ∧
      ∃ token, RuleToken.decode (inclusionDocument values) = .ok token ∧
        leafType cx "size" { tokens := [.text "nullable", .text "in:s,x l,", .text "in:"] } =
          leafType cx "size" { tokens := [.text "nullable", token, .text "in:"] } := by
  intro cx ss values
  have hss : ∀ s ∈ ss.dropLast, ¬HasPattern s := by decide +kernel
  have hvalues : ∀ v ∈ values, Listable v := by
    intro v hv
    simp only [values, List.mem_cons, List.not_mem_nil, or_false] at hv
    rcases hv with rfl | rfl | rfl
    · exact ⟨by decide, by decide, by decide +kernel⟩
    · exact ⟨by decide, by decide, by decide +kernel⟩
    · exact ⟨by decide, by decide, by decide +kernel⟩
  have hjoined : "|".intercalate ss = "required|string| max:5 |regex:/a|b/" := by decide
  have htext : inclusionText values = "in:s,x l," := by decide
  refine ⟨hss, ?_, hvalues, ?_⟩
  · rw [← hjoined]
    exact (leafType_spellings cx "code" { tokens := [] } [] []).1 ss hss
  · rw [← htext]
    exact (leafType_spellings cx "size" { tokens := [] } [.text "nullable"] [.text "in:"]).2 values
      (by decide) hvalues

end Rules

end QueryTypes
