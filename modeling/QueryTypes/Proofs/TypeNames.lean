import Mathlib
import QueryTypes.Catalog.SqlType
import QueryTypes.Proofs.ColumnGrammar
import QueryTypes.Proofs.Forms.Spellings

/-!
# Decorated type names

A database writes a column type as a name with parameters in parentheses, the word `unsigned`, and
blanks around every part. `Decoration` says what may stand around a name, with the proofs that each
piece is what it has to be.

The name ends where it is followed by nothing but a decoration for the first time. A name that has
no blank at its ends and does not hold the word `unsigned` (`IsName`) does not end too early: a rest
of it in front of a decoration is no decoration itself (`decoration?_append`). So the name and the
parameters are read back (`split?_text`), and the type is that of the bare name, however it is
decorated and in whatever case it is written (`type?_decorated`).
-/

set_option autoImplicit false

namespace QueryTypes

open Text

namespace Text

/-! ## Letters -/

theorem isBlank_of_isAlpha {c : Char} (h : c.isAlpha = true) : isBlank c = false := by
  refine Bool.eq_false_iff.2 fun hblank => ?_
  have hno := of_isBlank (p := fun c => c.isAlpha = false) (by decide +kernel) hblank
  exact Bool.false_ne_true (hno.symm.trans h)

theorem isAlpha_of_isUpper {c : Char} (h : c.isUpper = true) : c.isAlpha = true := by
  rw [Char.isAlpha, h, Bool.true_or]

/-- The case of a letter does not make it a blank. -/
theorem isBlank_toLower (c : Char) : isBlank c.toLower = isBlank c := by
  by_cases h : c.isUpper = true
  · have hletter := isAlpha_of_isUpper h
    rw [isBlank_of_isAlpha hletter, isBlank_of_isAlpha (c.isAlpha_toLower_eq_isAlpha.trans hletter)]
  · rw [Char.toLower_eq_of_not_isUpper h]

theorem foldsTo_toLower (letter c : Char) : foldsTo letter c.toLower = foldsTo letter c := by
  by_cases h : c.isUpper = true
  · -- neither the letter nor its small form is one of the two that only fold
    have hspecial {x : Char} (hx : x.isAlpha = true) : (x == kelvinSign) = false ∧
        (x == longS) = false := by
      constructor
      · refine beq_false_of_ne ?_
        rintro rfl
        exact Bool.false_ne_true ((by decide : kelvinSign.isAlpha = false).symm.trans hx)
      · refine beq_false_of_ne ?_
        rintro rfl
        exact Bool.false_ne_true ((by decide : longS.isAlpha = false).symm.trans hx)
    have hletter := isAlpha_of_isUpper h
    obtain ⟨hk, hs⟩ := hspecial hletter
    obtain ⟨hk', hs'⟩ := hspecial (c.isAlpha_toLower_eq_isAlpha.trans hletter)
    rw [foldsTo, foldsTo, Char.toLower_toLower_eq_toLower, hk, hs, hk', hs']
  · rw [Char.toLower_eq_of_not_isUpper h]

/-! ## Words -/

theorem dropWordFolded_map_toLower (word cs : List Char) :
    dropWordFolded word (cs.map Char.toLower) =
      (dropWordFolded word cs).map (List.map Char.toLower) := by
  induction word generalizing cs with
  | nil => rfl
  | cons letter word ih =>
    cases cs with
    | nil => rfl
    | cons c cs =>
      rw [List.map_cons, dropWordFolded, dropWordFolded, foldsTo_toLower, ih]
      split <;> rfl

/-- A word that does not stand in front of a text does not reach over its end either, if none of its
letters stands there. -/
theorem dropWordFolded_append {word cs : List Char} (h : dropWordFolded word cs = none)
    {rest : List Char} (hrest : ∀ c, rest.head? = some c → word.any (foldsTo · c) = false) :
    dropWordFolded word (cs ++ rest) = none := by
  induction word generalizing cs with
  | nil => cases h
  | cons letter word ih =>
    have hletters (c : Char) (hc : rest.head? = some c) :
        foldsTo letter c = false ∧ word.any (foldsTo · c) = false := by
      simpa only [List.any_cons, Bool.or_eq_false_iff] using hrest c hc
    cases cs with
    | nil =>
      cases rest with
      | nil => rfl
      | cons c rest => rw [List.nil_append, dropWordFolded, (hletters c rfl).1]; rfl
    | cons c cs =>
      rw [dropWordFolded] at h
      rw [List.cons_append, dropWordFolded]
      split
      · next hc =>
        rw [if_pos hc] at h
        exact ih h fun d hd => (hletters d hd).2
      · rfl

end Text

namespace SqlType

/-! ## Names -/

theorem isNameChar_toLower (c : Char) : isNameChar c.toLower = isNameChar c := by
  by_cases h : c.isUpper = true
  · have hletter := isAlpha_of_isUpper h
    rw [isNameChar, isNameChar, isLatinLetter, isLatinLetter, c.isAlpha_toLower_eq_isAlpha, hletter]
    rfl
  · rw [Char.toLower_eq_of_not_isUpper h]

/-- A name that can be told from what follows it: it has no blank at its ends, and the word
`unsigned` does not occur in it. -/
structure IsName (name : List Char) : Prop where
  chars : ∀ c ∈ name, isNameChar c = true
  head : ∃ c, name.head? = some c ∧ isBlank c = false
  last : ∀ c, name.getLast? = some c → isBlank c = false
  plain : ∀ s, s <:+ name → dropWordFolded "unsigned".toList s = none

namespace IsName

instance (name : List Char) : Decidable (IsName name) :=
  decidable_of_iff (name.all isNameChar = true ∧ (name.head?.any fun c => !isBlank c) = true ∧
      (name.getLast?.all fun c => !isBlank c) = true ∧
      ∀ s ∈ name.tails, dropWordFolded "unsigned".toList s = none) <| by
    simp only [List.all_eq_true, Option.any_eq_true, Option.all_eq_true, List.mem_tails,
      Bool.not_eq_true']
    exact ⟨fun h => ⟨h.1, h.2.1, h.2.2.1, h.2.2.2⟩, fun h => ⟨h.chars, h.head, h.last, h.plain⟩⟩

variable {name : List Char}

/-- The case of the letters does not matter. -/
theorem of_map_toLower (h : IsName (name.map Char.toLower)) : IsName name where
  chars c hc := isNameChar_toLower c ▸ h.chars _ (List.mem_map_of_mem hc)
  head := by
    obtain ⟨c, hc, hblank⟩ := h.head
    rw [List.head?_map, Option.map_eq_some_iff] at hc
    obtain ⟨d, hd, rfl⟩ := hc
    exact ⟨d, hd, isBlank_toLower d ▸ hblank⟩
  last c hc := by
    refine isBlank_toLower c ▸ h.last c.toLower ?_
    rw [List.getLast?_map, hc, Option.map_some]
  plain s hs := by
    have hlower := h.plain _ (hs.map Char.toLower)
    rw [dropWordFolded_map_toLower] at hlower
    exact Option.map_eq_none_iff.1 hlower

theorem trim_eq (h : IsName name) : trim (String.ofList name) = String.ofList name := by
  obtain ⟨c, hc, hblank⟩ := h.head
  obtain ⟨rest, rfl⟩ := List.head?_eq_some_iff.1 hc
  rw [trim, String.toList_ofList, trimChars, dropBlanks_cons_of_not_blank hblank,
    dropBlanksEnd_of_getLast? h.last]

/-- What is left of a name without its leading blanks is a rest of it that starts with none. -/
theorem exists_dropBlanks (h : IsName name) {s : List Char} (hs : s <:+ name) (hne : s ≠ []) :
    ∃ bs c rest, Blanks bs ∧ s = bs ++ c :: rest ∧ isBlank c = false ∧ (c :: rest) <:+ name := by
  obtain ⟨bs, hbs, heq⟩ := exists_blanks_append s
  cases hrest : dropBlanks s with
  | nil =>
    -- then the name would end with a blank
    have hlast : name.getLast? = some (s.getLast hne) := by
      obtain ⟨front, rfl⟩ := hs
      rw [List.getLast?_append_of_ne_nil _ hne, List.getLast?_eq_getLast_of_ne_nil hne]
    have hblank := dropBlanks_eq_nil_iff.1 hrest _ (List.getLast_mem hne)
    exact absurd ((h.last _ hlast).symm.trans hblank) Bool.false_ne_true
  | cons c rest =>
    have hc : isBlank c = false := by
      have hfirst := List.head?_dropWhile_not isBlank s
      rw [← dropBlanks, hrest] at hfirst
      exact hfirst
    rw [hrest] at heq
    refine ⟨bs, c, rest, hbs, heq, hc, List.IsSuffix.trans ?_ hs⟩
    exact ⟨bs, heq.symm⟩

end IsName

/-! ## Decorations -/

/-- What stands around a type name: blanks, parameters in parentheses and the word `unsigned` in any
case. -/
structure Decoration where
  lead : List Char
  /-- The blanks behind the name. -/
  gap : List Char
  params : Option (List Char)
  /-- The blanks behind the parameters. -/
  space : List Char
  unsigned : Option (List Char)
  trail : List Char
  lead_blank : Blanks lead
  gap_blank : Blanks gap
  params_closed : ∀ p ∈ params, ')' ∉ p
  space_blank : Blanks space
  unsigned_word : ∀ u ∈ unsigned,
    List.Forall₂ (fun letter c => foldsTo letter c = true) "unsigned".toList u
  trail_blank : Blanks trail

namespace Decoration

variable (d : Decoration)

/-- What follows the parameters. -/
def ending : List Char := d.space ++ (d.unsigned.getD [] ++ d.trail)

/-- What follows the name. -/
def tail : List Char := d.gap ++ (d.params.elim [] (fun p => '(' :: (p ++ [')'])) ++ d.ending)

/-- The text of a decorated name. -/
def text (name : List Char) : String := String.ofList (d.lead ++ (name ++ d.tail))

end Decoration

/-! ## Reading a decoration -/

theorem takeParameters_of_head? {cs : List Char} (h : ∀ c, cs.head? = some c → c ≠ '(') :
    takeParameters cs = (none, cs) := by
  unfold takeParameters
  split
  · exact absurd rfl (h '(' rfl)
  · rfl

theorem takeParameters_closed {p : List Char} (h : ')' ∉ p) (rest : List Char) :
    takeParameters ('(' :: (p ++ ')' :: rest)) = (some (trimChars p), rest) := by
  rw [takeParameters, cutAt_append h]

/-- After the parameters only `unsigned` and blanks may follow. -/
theorem decoration?_eq {cs rest : List Char} {params : Option (List Char)}
    (h : takeParameters (dropBlanks cs) = (params, rest)) :
    decoration? cs =
      if (dropBlanks
        ((dropWordFolded "unsigned".toList (dropBlanks rest)).getD (dropBlanks rest))).isEmpty
      then some params else none := by
  rw [decoration?, h]

/-- What folds to the first letter of `unsigned` is that letter, small or capital. -/
theorem toLower_of_foldsTo {c : Char} (h : foldsTo 'u' c = true) : c.toLower = 'u' := by
  simpa [foldsTo] using h

theorem isBlank_of_foldsTo_u {c : Char} (h : foldsTo 'u' c = true) : isBlank c = false := by
  rw [← isBlank_toLower, toLower_of_foldsTo h]
  decide

namespace Decoration

variable (d : Decoration)

/-- The word `unsigned` starts with a letter. -/
theorem exists_of_unsigned {u : List Char} (h : d.unsigned = some u) :
    ∃ c rest, u = c :: rest ∧ foldsTo 'u' c = true := by
  obtain ⟨c, rest, hc, -, heq⟩ := List.forall₂_cons_left_iff.1 (d.unsigned_word u h)
  exact ⟨c, rest, heq, hc⟩

theorem dropBlanks_ending_of_unsigned {u : List Char} (h : d.unsigned = some u) :
    dropBlanks d.ending = u ++ d.trail := by
  obtain ⟨c, rest, rfl, hc⟩ := d.exists_of_unsigned h
  rw [ending, h, dropBlanks_append_of_blank d.space_blank]
  exact dropBlanks_cons_of_not_blank (isBlank_of_foldsTo_u hc)

theorem dropBlanks_ending_of_none (h : d.unsigned = none) : dropBlanks d.ending = [] := by
  rw [ending, h, dropBlanks_append_of_blank d.space_blank]
  exact dropBlanks_eq_nil_iff.2 d.trail_blank

/-- The ending is read to the end of the text. -/
theorem isEmpty_ending :
    (dropBlanks ((dropWordFolded "unsigned".toList (dropBlanks d.ending)).getD
      (dropBlanks d.ending))).isEmpty =
      true := by
  cases h : d.unsigned with
  | none =>
    rw [d.dropBlanks_ending_of_none h]
    rfl
  | some u =>
    have hword : dropWordFolded "unsigned".toList (u ++ d.trail) = some d.trail :=
      dropWordFolded_eq_some_iff.2 ⟨u, d.unsigned_word u h, rfl⟩
    rw [d.dropBlanks_ending_of_unsigned h, hword, Option.getD_some,
      dropBlanks_eq_nil_iff.2 d.trail_blank]
    rfl

theorem head?_dropBlanks_ending (c : Char) (hc : (dropBlanks d.ending).head? = some c) :
    foldsTo 'u' c = true := by
  cases h : d.unsigned with
  | none =>
    rw [d.dropBlanks_ending_of_none h] at hc
    cases hc
  | some u =>
    obtain ⟨c', rest, rfl, hc'⟩ := d.exists_of_unsigned h
    rw [d.dropBlanks_ending_of_unsigned h] at hc
    cases hc
    exact hc'

/-- A decoration is read, and its parameters are found. -/
theorem decoration?_tail : decoration? d.tail = some (d.params.map trimChars) := by
  cases h : d.params with
  | none =>
    have hparams : takeParameters (dropBlanks d.tail) = (none, dropBlanks d.ending) := by
      rw [tail, h, dropBlanks_append_of_blank d.gap_blank]
      refine takeParameters_of_head? fun c hc => ?_
      rintro rfl
      exact absurd (d.head?_dropBlanks_ending '(' hc) (by decide)
    have htwice : dropBlanks (dropBlanks d.ending) = dropBlanks d.ending :=
      List.dropWhile_idempotent _ _
    rw [decoration?_eq hparams, htwice, if_pos d.isEmpty_ending]
    rfl
  | some p =>
    have hparams : takeParameters (dropBlanks d.tail) = (some (trimChars p), d.ending) := by
      rw [tail, h, dropBlanks_append_of_blank d.gap_blank, Option.elim_some, List.cons_append,
        List.append_assoc, dropBlanks_cons_of_not_blank (by decide)]
      exact takeParameters_closed (d.params_closed p h) d.ending
    rw [decoration?_eq hparams, if_pos d.isEmpty_ending]
    rfl

/-- What follows a name starts with a blank, a parenthesis or the first letter of `unsigned`. -/
theorem head?_tail (c : Char) (hc : d.tail.head? = some c) :
    isBlank c = true ∨ c = '(' ∨ foldsTo 'u' c = true := by
  have hblank {bs rest : List Char} (hbs : Blanks bs) (h : (bs ++ rest).head? = some c) :
      isBlank c = true ∨ rest.head? = some c := by
    cases bs with
    | nil => exact .inr h
    | cons b bs =>
      cases h
      exact .inl (hbs c List.mem_cons_self)
  rcases hblank d.gap_blank hc with hc | hc
  · exact .inl hc
  · cases h : d.params with
    | some p =>
      rw [h] at hc
      cases hc
      exact .inr (.inl rfl)
    | none =>
      rw [h] at hc
      rcases hblank d.space_blank hc with hc | hc
      · exact .inl hc
      · cases h : d.unsigned with
        | some u =>
          obtain ⟨c', rest, rfl, hc'⟩ := d.exists_of_unsigned h
          rw [h] at hc
          cases hc
          exact .inr (.inr hc')
        | none =>
          rw [h] at hc
          exact .inl (d.trail_blank c (List.mem_of_mem_head? hc))

/-- None of these is another letter of `unsigned`. -/
theorem foldsTo_head?_tail (c : Char) (hc : d.tail.head? = some c) :
    ['n', 's', 'i', 'g', 'n', 'e', 'd'].any (foldsTo · c) = false := by
  rcases d.head?_tail c hc with hc | rfl | hc
  · exact of_isBlank (p := fun c => ['n', 's', 'i', 'g', 'n', 'e', 'd'].any (foldsTo · c) = false)
      (by decide +kernel) hc
  · decide
  · have hsmall : (fun letter => foldsTo letter c) = (foldsTo · 'u') := by
      funext letter
      rw [← foldsTo_toLower, toLower_of_foldsTo hc]
    rw [hsmall]
    decide

end Decoration

/-! ## Reading a name -/

/-- A rest of a name, followed by a decoration, is no decoration. -/
theorem decoration?_append {name : List Char} (h : IsName name) {s : List Char} (hs : s <:+ name)
    (hne : s ≠ []) (d : Decoration) : decoration? (s ++ d.tail) = none := by
  obtain ⟨bs, c, rest, hbs, rfl, hc, hsuffix⟩ := h.exists_dropBlanks hs hne
  have hname : isNameChar c = true := h.chars c (hsuffix.subset List.mem_cons_self)
  have hdrop : dropBlanks (bs ++ c :: rest ++ d.tail) = c :: (rest ++ d.tail) := by
    rw [List.append_assoc, dropBlanks_append_of_blank hbs]
    exact dropBlanks_cons_of_not_blank hc
  have hparams : takeParameters (dropBlanks (bs ++ c :: rest ++ d.tail)) =
      (none, c :: (rest ++ d.tail)) := by
    rw [hdrop]
    refine takeParameters_of_head? ?_
    rintro _ ⟨⟩ rfl
    exact absurd hname (by decide)
  -- the word would have to start in the name and to go on behind it
  have hword : dropWordFolded "unsigned".toList (c :: (rest ++ d.tail)) = none := by
    have hplain : dropWordFolded ['u', 'n', 's', 'i', 'g', 'n', 'e', 'd'] (c :: rest) = none :=
      h.plain _ hsuffix
    show dropWordFolded ['u', 'n', 's', 'i', 'g', 'n', 'e', 'd'] (c :: (rest ++ d.tail)) = none
    rw [dropWordFolded] at hplain ⊢
    split
    · next hfolds =>
      rw [if_pos hfolds] at hplain
      exact dropWordFolded_append hplain d.foldsTo_head?_tail
    · rfl
  rw [decoration?_eq hparams, dropBlanks_cons_of_not_blank hc, hword, Option.getD_none,
    dropBlanks_cons_of_not_blank hc]
  rfl

/-- A name is read up to its end, and no further. -/
theorem splitFrom?_append {name : List Char} (h : IsName name) (d : Decoration) {s : List Char}
    (hs : s <:+ name) (hne : s ≠ []) (read : List Char) :
    splitFrom? read (s ++ d.tail) = some (read ++ s, d.params.map trimChars) := by
  induction s generalizing read with
  | nil => exact absurd rfl hne
  | cons c rest ih =>
    have hc : isNameChar c = true := h.chars c (hs.subset List.mem_cons_self)
    have hrest : rest <:+ name := (List.suffix_cons c rest).trans hs
    rw [List.cons_append, splitFrom?, if_pos hc]
    cases rest with
    | nil => rw [List.nil_append, d.decoration?_tail]
    | cons c' rest =>
      rw [decoration?_append h hrest (List.cons_ne_nil _ _) d]
      show splitFrom? (read ++ [c]) (c' :: rest ++ d.tail) = _
      rw [ih hrest (List.cons_ne_nil _ _), List.append_assoc]
      rfl

/-- The name and the parameters of a decorated name are read back. -/
theorem split?_text {name : List Char} (h : IsName name) (d : Decoration) :
    split? (d.text name) = some (lowerAscii (String.ofList name),
      d.params.map fun p => String.ofList (trimChars p)) := by
  obtain ⟨c, hc, hblank⟩ := h.head
  obtain ⟨rest, rfl⟩ := List.head?_eq_some_iff.1 hc
  rw [split?, Decoration.text, String.toList_ofList, dropBlanks_append_of_blank d.lead_blank,
    List.cons_append, dropBlanks_cons_of_not_blank hblank, ← List.cons_append, splitFrom?_append h d
    (List.suffix_refl _) (List.cons_ne_nil _ _), Option.map_some, List.nil_append]
  dsimp only
  rw [h.trim_eq, Option.map_map]
  rfl

/-! ## Types of decorated names -/

/-- The names that have a type. -/
def names : List String :=
  ["int", "integer", "tinyint", "smallint", "mediumint", "bigint", "serial", "bigserial", "year",
    "decimal", "numeric", "float", "double", "double precision", "real", "number", "bool",
    "boolean", "date", "datetime", "timestamp", "timestamptz", "timestamp with time zone", "time",
    "uuid", "char", "varchar", "character varying", "text", "tinytext", "mediumtext", "longtext",
    "string", "enum", "set", "json", "jsonb"]

theorem mem_names {n : String} (h : (ofName? n).isSome = true) : n ∈ names := by
  unfold ofName? at h
  split at h
  case h_38 => cases h
  all_goals simp [names]

theorem isName_of_mem_names : ∀ n ∈ names, IsName n.toList := by
  decide +kernel

/-- Only the parameter `1` of a `tinyint` says something about the type. -/
theorem type?_of_split? {s name : String} {params : Option String}
    (h : split? s = some (name, params)) :
    type? s = if name = "tinyint" ∧ params = some "1" then some .boolean else ofName? name := by
  rw [type?, h]
  split
  · next heq =>
    cases heq
    rfl
  · next name' params' hne heq =>
    cases heq
    rw [if_neg]
    rintro ⟨rfl, rfl⟩
    exact hne rfl rfl
  · next heq => cases heq

/-- The type of a decorated name, written in any case. -/
theorem type?_text {n : String} {name : List Char} (hname : name.map Char.toLower = n.toList)
    (h : IsName name) (d : Decoration) :
    type? (d.text name) =
      if n = "tinyint" ∧ d.params.map trimChars = some ['1'] then some .boolean else ofName? n := by
  have hlower : lowerAscii (String.ofList name) = n := by
    refine String.toList_injective ?_
    rw [lowerAscii, String.toList_map, String.toList_ofList, hname]
  have hone : (d.params.map fun p => String.ofList (trimChars p)) = some "1" ↔
      d.params.map trimChars = some ['1'] := by
    cases d.params with
    | none => simp
    | some p =>
      have hdigit : "1" = String.ofList ['1'] := rfl
      rw [Option.map_some, Option.map_some, Option.some_inj, Option.some_inj, hdigit,
        String.ofList_inj]
  rw [type?_of_split? (split?_text h d), hlower]
  simp only [hone]

/-- Nothing around a name. -/
def bare : Decoration where
  lead := []
  gap := []
  params := none
  space := []
  unsigned := none
  trail := []
  lead_blank := by decide
  gap_blank := by decide
  params_closed := by decide
  space_blank := by decide
  unsigned_word := by decide
  trail_blank := by decide

theorem text_bare (n : String) : bare.text n.toList = n := by
  simp [Decoration.text, Decoration.tail, Decoration.ending, bare]

/-- A name that has a type keeps it in whatever case it is written, with blanks around it,
parameters in parentheses and `unsigned` behind it; only a `tinyint` with the parameter `1` is a
truth value. -/
theorem type?_decorated (n : String) (hn : (ofName? n).isSome = true) (name : List Char)
    (hname : name.map Char.toLower = n.toList) (d : Decoration) :
    type? n = ofName? n ∧
      type? (d.text name) =
        if n = "tinyint" ∧ d.params.map trimChars = some ['1'] then some .boolean else type? n := by
  have hn' : IsName n.toList := isName_of_mem_names n (mem_names hn)
  have hsmall : n.toList.map Char.toLower = n.toList := by
    rw [← hname, List.map_map]
    exact List.map_congr_left fun c _ => c.toLower_toLower_eq_toLower
  have hbare : type? n = ofName? n := by
    have htext := type?_text hsmall hn' bare
    rw [text_bare] at htext
    exact htext.trans (if_neg fun h => absurd h.2 (by decide))
  refine ⟨hbare, ?_⟩
  rw [hbare]
  exact type?_text hname (.of_map_toLower (hname ▸ hn')) d

/-- Blanks of several kinds, a parameter with blanks around it, and `unsigned` without a blank in
front. -/
def wide : Decoration where
  lead := [' ', '\t']
  gap := ['\n']
  params := some [' ', '1', '\u2003']
  space := []
  unsigned := some ['U', 'n', 'S', 'i', 'g', 'n', 'e', 'd']
  trail := [' ']
  lead_blank := by decide
  gap_blank := by decide
  params_closed := by decide
  space_blank := by decide
  unsigned_word := by decide
  trail_blank := by decide

theorem type?_decorated_wide :
    type? " \tTinyInt\n( 1\u2003)UnSigned " = some .boolean ∧
      type? " \tTimestamp With Time Zone\n( 1\u2003)UnSigned " =
        some (.formatted .string "date-time") := by
  have htinyint : wide.text "TinyInt".toList = " \tTinyInt\n( 1\u2003)UnSigned " := by
    decide +kernel
  have htimestamp : wide.text "Timestamp With Time Zone".toList =
      " \tTimestamp With Time Zone\n( 1\u2003)UnSigned " := by decide +kernel
  rw [← htinyint, ← htimestamp]
  constructor
  · rw [(type?_decorated "tinyint" rfl "TinyInt".toList (by decide +kernel) wide).2]
    exact if_pos ⟨rfl, by decide +kernel⟩
  · obtain ⟨hname, htype⟩ := type?_decorated "timestamp with time zone" rfl
      "Timestamp With Time Zone".toList (by decide +kernel) wide
    rw [htype, if_neg fun h => absurd h.1 (by decide), hname]
    rfl

end SqlType

end QueryTypes
