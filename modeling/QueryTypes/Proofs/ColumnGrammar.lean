import Mathlib.Data.List.TakeWhile
import QueryTypes.Proofs.Lists
import QueryTypes.Query.Column

/-!
# The grammar of column references

A column reference is written `[table.]column [as alias]` with blanks around. `Spelling` says this
as data: its parts are the pieces of such a text, with the proofs that each piece is what it has to
be. Reading the text of a spelling gives back its parts, so that no text can be cut in two ways
(`ColumnRef.plain?_text`), and a text that is read as a plain column is the text of a spelling
(`ColumnRef.exists_spelling_of_plain?`). Any other text is raw and has the alias of the label it
ends with, unless a line feed stands in front of that (`ColumnRef.rawAlias?_eq_some_iff`).
`ColumnRef.ofString_grammar` puts these together.

Every reader takes as much as it can from the front. That this never takes too much is a matter of
classes of characters: no blank is a word character or a letter of `as`, and a dot is neither.
-/

set_option autoImplicit false

namespace QueryTypes

namespace Text

/-! ## Blanks -/

/-- The code points of the blanks. -/
def blankCodes : List Nat :=
  [0x9, 0xA, 0xB, 0xC, 0xD, 0x20, 0x85, 0xA0, 0x1680, 0x2000, 0x2001, 0x2002, 0x2003, 0x2004,
    0x2005, 0x2006, 0x2007, 0x2008, 0x2009, 0x200A, 0x2028, 0x2029, 0x202F, 0x205F, 0x3000]

/-- What is so of each blank in the list is so of every blank. -/
theorem of_isBlank {p : Char → Prop} (h : ∀ n ∈ blankCodes, p (Char.ofNat n)) {c : Char}
    (hc : isBlank c = true) : p c := by
  have hcode : c.toNat ∈ blankCodes := by
    simp only [isBlank, Bool.or_eq_true, Bool.and_eq_true, decide_eq_true_eq, beq_iff_eq] at hc
    simp only [blankCodes, List.mem_cons, List.not_mem_nil, or_false]
    omega
  rw [← Char.ofNat_toNat c]
  exact h _ hcode

theorem isWordChar_of_isBlank {c : Char} (h : isBlank c = true) : isWordChar c = false := by
  refine of_isBlank (p := fun c => isWordChar c = false) ?_ h
  decide +kernel

theorem isBlank_of_isWordChar {c : Char} (h : isWordChar c = true) : isBlank c = false :=
  Bool.eq_false_iff.2 fun hblank => Bool.false_ne_true ((isWordChar_of_isBlank hblank).symm.trans h)

/-- The letters of `as` are no blanks, in whatever case. -/
theorem isBlank_of_foldsTo {letter c : Char} (hletter : letter = 'a' ∨ letter = 's')
    (h : foldsTo letter c = true) : isBlank c = false := by
  refine Bool.eq_false_iff.2 fun hblank => ?_
  have hno :=
    of_isBlank (p := fun c => foldsTo 'a' c = false ∧ foldsTo 's' c = false)
      (by decide +kernel) hblank
  rcases hletter with rfl | rfl
  · exact Bool.false_ne_true (hno.1.symm.trans h)
  · exact Bool.false_ne_true (hno.2.symm.trans h)

/-- Nothing but blanks. -/
def Blanks (cs : List Char) : Prop := ∀ c ∈ cs, isBlank c = true

instance (cs : List Char) : Decidable (Blanks cs) :=
  decidable_of_iff (cs.all isBlank = true) List.all_eq_true

theorem Blanks.reverse {cs : List Char} (h : Blanks cs) : Blanks cs.reverse :=
  fun c hc => h c (List.mem_reverse.1 hc)

theorem dropBlanks_eq_nil_iff {cs : List Char} : dropBlanks cs = [] ↔ Blanks cs :=
  List.dropWhile_eq_nil_iff

/-- In front of other characters there are no blanks to drop. -/
theorem dropBlanks_append_of_not_blank {cs : List Char} (hne : cs ≠ [])
    (h : ∀ c ∈ cs, isBlank c = false) (rest : List Char) :
    dropBlanks (cs ++ rest) = cs ++ rest := by
  obtain ⟨c, cs, rfl⟩ := List.exists_cons_of_ne_nil hne
  exact dropBlanks_cons_of_not_blank (h c List.mem_cons_self)

/-- A text that starts with blanks starts with a blank. -/
theorem Blanks.head_append {bs : List Char} (h : Blanks bs) (hne : bs ≠ []) (cs : List Char) :
    ∀ c ∈ (bs ++ cs).head?, isBlank c = true := by
  obtain ⟨b, rest, rfl⟩ := List.exists_cons_of_ne_nil hne
  rintro c ⟨⟩
  exact h b List.mem_cons_self

theorem exists_blanks_append (cs : List Char) : ∃ bs, Blanks bs ∧ cs = bs ++ dropBlanks cs :=
  ⟨cs.takeWhile isBlank, fun _ => List.mem_takeWhile_imp, List.takeWhile_append_dropWhile.symm⟩

/-! ## Words -/

/-- A word of small letters in front, in any case. -/
theorem dropWordFolded_eq_some_iff {word cs rest : List Char} :
    dropWordFolded word cs = some rest ↔
      ∃ w, List.Forall₂ (fun letter c => foldsTo letter c = true) word w ∧ cs = w ++ rest := by
  induction word generalizing cs with
  | nil => simp [dropWordFolded]
  | cons letter word ih =>
    cases cs with
    | nil => simp [dropWordFolded]
    | cons c cs =>
      rw [dropWordFolded]
      split
      · next hc =>
        rw [ih]
        constructor
        · rintro ⟨w, hw, rfl⟩
          exact ⟨c :: w, .cons hc hw, rfl⟩
        · rintro ⟨_, _ | ⟨-, hw⟩, heq⟩
          obtain ⟨rfl, rfl⟩ := List.cons.inj heq
          exact ⟨_, hw, rfl⟩
      · next hc =>
        refine ⟨nofun, ?_⟩
        rintro ⟨_, _ | ⟨hfolds, -⟩, heq⟩
        obtain ⟨rfl, rfl⟩ := List.cons.inj heq
        exact absurd hfolds hc

end Text

namespace ColumnRef

open Text

/-- At least one blank is dropped, and all that follow. -/
theorem dropSomeBlanks_append {bs cs : List Char} (hne : bs ≠ []) (h : Blanks bs) :
    dropSomeBlanks (bs ++ cs) = some (dropBlanks cs) := by
  cases bs with
  | nil => exact absurd rfl hne
  | cons b bs =>
    obtain ⟨hb, hbs⟩ := List.forall_mem_cons.1 h
    rw [List.cons_append, dropSomeBlanks, if_pos hb, dropBlanks_append_of_blank hbs]

theorem exists_of_dropSomeBlanks {cs rest : List Char} (h : dropSomeBlanks cs = some rest) :
    ∃ bs, bs ≠ [] ∧ Blanks bs ∧ cs = bs ++ rest := by
  cases cs with
  | nil => cases h
  | cons c cs =>
    rw [dropSomeBlanks] at h
    split at h
    · next hc =>
      cases h
      obtain ⟨bs, hbs, heq⟩ := exists_blanks_append cs
      exact ⟨c :: bs, List.cons_ne_nil _ _, List.forall_mem_cons.2 ⟨hc, hbs⟩, congrArg (c :: ·) heq⟩
    · cases h

/-! ## Identifiers -/

theorem exists_cons_of_isIdent {ident : List Char} (h : isIdent ident = true) :
    ∃ c rest, ident = c :: rest ∧ isIdentStart c = true ∧ ∀ d ∈ rest, isWordChar d = true := by
  cases ident with
  | nil => cases h
  | cons c rest =>
    rw [isIdent, Bool.and_eq_true, List.all_eq_true] at h
    exact ⟨c, rest, rfl, h⟩

theorem ident_ne_nil {ident : List Char} (h : isIdent ident = true) : ident ≠ [] := by
  obtain ⟨c, rest, rfl, -⟩ := exists_cons_of_isIdent h
  exact List.cons_ne_nil c rest

theorem isBlank_of_mem_ident {ident : List Char} (h : isIdent ident = true) :
    ∀ c ∈ ident, isBlank c = false := by
  obtain ⟨c, rest, rfl, hc, hrest⟩ := exists_cons_of_isIdent h
  refine List.forall_mem_cons.2 ⟨isBlank_of_isWordChar (isWordChar_of_isIdentStart c hc), ?_⟩
  exact fun d hd => isBlank_of_isWordChar (hrest d hd)

theorem dropBlanks_ident {ident : List Char} (h : isIdent ident = true) (cs : List Char) :
    dropBlanks (ident ++ cs) = ident ++ cs :=
  dropBlanks_append_of_not_blank (ident_ne_nil h) (isBlank_of_mem_ident h) cs

/-- An identifier is taken up to what is no word character. -/
theorem takeIdent_ident {ident rest : List Char} (h : isIdent ident = true)
    (hrest : ∀ c ∈ rest.head?, isWordChar c = false) :
    takeIdent (ident ++ rest) = some (ident, rest) := by
  obtain ⟨c, cs, rfl, hc, hcs⟩ := exists_cons_of_isIdent h
  obtain ⟨htake, hdrop⟩ := span_append hcs hrest
  rw [List.cons_append, takeIdent, if_pos hc, htake, hdrop]

theorem isIdent_of_takeIdent {cs ident rest : List Char} (h : takeIdent cs = some (ident, rest)) :
    isIdent ident = true := by
  cases cs with
  | nil => cases h
  | cons c cs =>
    rw [takeIdent] at h
    split at h
    · next hc =>
      cases h
      rw [isIdent, hc, Bool.true_and, List.all_eq_true]
      exact fun _ => List.mem_takeWhile_imp
    · cases h

/-! ## Labels -/

/-- An alias with its keyword, as it stands after a column or at the end of an expression. -/
structure Label where
  before : List Char
  keyword : List Char
  between : List Char
  name : List Char
  before_ne : before ≠ []
  before_blank : Blanks before
  keyword_as : List.Forall₂ (fun letter c => foldsTo letter c = true) ['a', 's'] keyword
  between_ne : between ≠ []
  between_blank : Blanks between
  name_ident : isIdent name = true

namespace Label

/-- The text of a label. -/
def chars (l : Label) : List Char := l.before ++ (l.keyword ++ (l.between ++ l.name))

/-- The keyword is made of letters. -/
theorem keyword_letters (l : Label) : l.keyword ≠ [] ∧ ∀ c ∈ l.keyword, isBlank c = false := by
  obtain ⟨a, w, ha, hw, heq⟩ := List.forall₂_cons_left_iff.1 l.keyword_as
  obtain ⟨s, w', hs, hw', rfl⟩ := List.forall₂_cons_left_iff.1 hw
  obtain rfl := List.forall₂_nil_left_iff.1 hw'
  rw [heq]
  refine ⟨List.cons_ne_nil a [s], List.forall_mem_cons.2 ⟨?_, List.forall_mem_singleton.2 ?_⟩⟩
  · exact isBlank_of_foldsTo (.inl rfl) ha
  · exact isBlank_of_foldsTo (.inr rfl) hs

theorem head_blank (l : Label) (rest : List Char) :
    ∀ c ∈ (l.chars ++ rest).head?, isBlank c = true := by
  rw [chars, List.append_assoc]
  exact l.before_blank.head_append l.before_ne _

end Label

/-- A label in front is taken up to what cannot belong to the alias. -/
theorem takeAlias_chars (l : Label) {rest : List Char}
    (hrest : ∀ c ∈ rest.head?, isWordChar c = false) :
    takeAlias (l.chars ++ rest) = some (l.name, rest) := by
  obtain ⟨hne, hletters⟩ := l.keyword_letters
  -- each reader stops where the next piece starts
  have hkeep : dropWordFolded "as".toList (l.keyword ++ (l.between ++ (l.name ++ rest))) =
      some (l.between ++ (l.name ++ rest)) :=
    dropWordFolded_eq_some_iff.2 ⟨l.keyword, l.keyword_as, rfl⟩
  simp only [takeAlias, Label.chars, List.append_assoc,
    dropSomeBlanks_append l.before_ne l.before_blank, Option.bind_eq_bind, Option.bind_some,
    dropBlanks_append_of_not_blank hne hletters, hkeep,
    dropSomeBlanks_append l.between_ne l.between_blank, dropBlanks_ident l.name_ident]
  exact takeIdent_ident l.name_ident hrest

theorem exists_label_of_takeAlias {cs name rest : List Char}
    (h : takeAlias cs = some (name, rest)) : ∃ l : Label, cs = l.chars ++ rest := by
  obtain ⟨cs₁, hbefore, h⟩ := Option.bind_eq_some_iff.1 h
  obtain ⟨cs₂, hkeyword, h⟩ := Option.bind_eq_some_iff.1 h
  obtain ⟨cs₃, hbetween, hname⟩ := Option.bind_eq_some_iff.1 h
  obtain ⟨before, hne, hblank, heq⟩ := exists_of_dropSomeBlanks hbefore
  obtain ⟨keyword, has, heq'⟩ := dropWordFolded_eq_some_iff.1 hkeyword
  obtain ⟨between, hne', hblank', heq''⟩ := exists_of_dropSomeBlanks hbetween
  have hident := isIdent_of_takeIdent hname
  refine ⟨⟨before, keyword, between, name, hne, hblank, has, hne', hblank', hident⟩, ?_⟩
  rw [heq, heq', heq'', ← takeIdent_append hname]
  simp only [Label.chars, List.append_assoc]

/-- An optional label and blanks are read up to the end. -/
theorem aliasAtEnd?_chars (label : Option Label) {trail : List Char} (htrail : Blanks trail) :
    aliasAtEnd? (label.elim [] Label.chars ++ trail) =
      some (label.map fun l => String.ofList l.name) := by
  have hend : (dropBlanks trail).isEmpty = true :=
    List.isEmpty_iff.2 (dropBlanks_eq_nil_iff.2 htrail)
  cases label with
  | none =>
    rw [aliasAtEnd?]
    exact if_pos hend
  | some l =>
    -- the alias is there, so that the rest is not blank
    have hmore : ¬ (dropBlanks (l.chars ++ trail)).isEmpty = true := by
      rw [List.isEmpty_iff, dropBlanks_eq_nil_iff]
      intro hblanks
      obtain ⟨c, hc⟩ := List.exists_mem_of_ne_nil _ (ident_ne_nil l.name_ident)
      have hblank : isBlank c = true := hblanks c (by simp [Label.chars, hc])
      exact Bool.false_ne_true ((isBlank_of_mem_ident l.name_ident c hc).symm.trans hblank)
    have hstop : ∀ c ∈ trail.head?, isWordChar c = false :=
      fun c hc => isWordChar_of_isBlank (htrail c (List.mem_of_mem_head? hc))
    rw [aliasAtEnd?, Option.elim_some, if_neg hmore, takeAlias_chars l hstop]
    exact if_pos hend

theorem exists_label_of_aliasAtEnd? {cs : List Char} {label : Option String}
    (h : aliasAtEnd? cs = some label) :
    ∃ (l : Option Label) (trail : List Char),
      Blanks trail ∧ cs = l.elim [] Label.chars ++ trail := by
  rw [aliasAtEnd?] at h
  split at h
  · next hend => exact ⟨none, cs, dropBlanks_eq_nil_iff.1 (List.isEmpty_iff.1 hend), rfl⟩
  · split at h
    · next ident rest htake =>
      split at h
      · next hend =>
        obtain ⟨l, rfl⟩ := exists_label_of_takeAlias htake
        exact ⟨some l, rest, dropBlanks_eq_nil_iff.1 (List.isEmpty_iff.1 hend), rfl⟩
      · cases h
    · cases h

/-! ## Plain columns -/

/-- A plain column reference as it is written: an optional table with a dot, the column, an optional
label, and blanks around. -/
structure Spelling where
  lead : List Char
  table : Option (List Char)
  column : List Char
  label : Option Label
  trail : List Char
  lead_blank : Blanks lead
  table_ident : ∀ t ∈ table, isIdent t = true
  column_name : column = ['*'] ∨ isIdent column = true
  trail_blank : Blanks trail

namespace Spelling

/-- What follows the column. -/
def ending (w : Spelling) : List Char := w.label.elim [] Label.chars ++ w.trail

/-- The text of a spelling. -/
def text (w : Spelling) : String :=
  String.ofList (w.lead ++ (w.table.elim [] (· ++ ['.']) ++ (w.column ++ w.ending)))

/-- What a spelling means. -/
def ref (w : Spelling) : ColumnRef :=
  .column (w.table.map String.ofList) (String.ofList w.column)
    (w.label.map fun l => String.ofList l.name)

/-- What follows the column starts with a blank, if there is anything. -/
theorem head_ending (w : Spelling) : ∀ c ∈ w.ending.head?, isBlank c = true := by
  intro c hc
  rw [ending] at hc
  cases hlabel : w.label with
  | none =>
    rw [hlabel] at hc
    exact w.trail_blank c (List.mem_of_mem_head? hc)
  | some l =>
    rw [hlabel] at hc
    exact l.head_blank w.trail c hc

end Spelling

theorem takeColumn_star (rest : List Char) : takeColumn ('*' :: rest) = some (['*'], rest) := rfl

/-- A star starts no identifier. -/
theorem takeColumn_ident {name rest : List Char} (h : isIdent name = true)
    (hrest : ∀ c ∈ rest.head?, isWordChar c = false) :
    takeColumn (name ++ rest) = some (name, rest) := by
  rw [takeColumn]
  · exact takeIdent_ident h hrest
  · intro rest' heq
    obtain ⟨c, cs, rfl, hc, -⟩ := exists_cons_of_isIdent h
    obtain ⟨rfl, -⟩ := List.cons.inj heq
    exact absurd hc (by decide)

theorem of_takeColumn {cs name rest : List Char} (h : takeColumn cs = some (name, rest)) :
    (name = ['*'] ∨ isIdent name = true) ∧ cs = name ++ rest := by
  rw [takeColumn.eq_def] at h
  split at h
  · cases h
    exact ⟨.inl rfl, rfl⟩
  · exact ⟨.inr (isIdent_of_takeIdent h), (takeIdent_append h).symm⟩

section Plain

variable (w : Spelling)

theorem takeColumn_spelling : takeColumn (w.column ++ w.ending) = some (w.column, w.ending) := by
  rcases w.column_name with hcolumn | hcolumn
  · rw [hcolumn]
    exact takeColumn_star w.ending
  · exact takeColumn_ident hcolumn fun c hc => isWordChar_of_isBlank (w.head_ending c hc)

theorem columnOf?_spelling (table : Option String) :
    columnOf? table (w.column ++ w.ending) =
      some (.column table (String.ofList w.column)
        (w.label.map fun l => String.ofList l.name)) := by
  have hend : aliasAtEnd? w.ending = some (w.label.map fun l => String.ofList l.name) :=
    aliasAtEnd?_chars w.label w.trail_blank
  rw [columnOf?, takeColumn_spelling]
  show ((aliasAtEnd? w.ending).bind fun label =>
    some (ColumnRef.column table (String.ofList w.column) label)) = _
  rw [hend, Option.bind_some]

/-- A column is not taken for a table: no dot follows it. -/
theorem takeTable_column : takeTable (w.column ++ w.ending) = none := by
  have hdot : ∀ table rest, takeIdent (w.column ++ w.ending) ≠ some (table, '.' :: rest) := by
    intro table rest htake
    rcases w.column_name with hcolumn | hcolumn
    · rw [hcolumn] at htake
      cases htake
    · rw [takeIdent_ident hcolumn fun c hc => isWordChar_of_isBlank (w.head_ending c hc)] at htake
      have hending : w.ending = '.' :: rest := congrArg Prod.snd (Option.some.inj htake)
      exact absurd (w.head_ending '.' (hending ▸ rfl)) (by decide)
  rw [takeTable.eq_def]
  split
  · next table rest htake => exact absurd htake (hdot table rest)
  · rfl

/-- A spelling is read as what it means. -/
theorem plain?_text : plain? w.text = some w.ref := by
  rw [plain?, Spelling.text, String.toList_ofList, dropBlanks_append_of_blank w.lead_blank]
  cases htable : w.table with
  | none =>
    have hstart : dropBlanks (w.column ++ w.ending) = w.column ++ w.ending := by
      rcases w.column_name with hcolumn | hcolumn
      · rw [hcolumn]
        exact dropBlanks_cons_of_not_blank (by decide)
      · exact dropBlanks_ident hcolumn _
    -- nothing in front of the column is a table, so that it is read from the same place again
    rw [Option.elim_none, List.nil_append, hstart, takeTable_column, Spelling.ref, htable]
    exact columnOf?_spelling w none
  | some table =>
    have hident : isIdent table = true := w.table_ident table htable
    have htake : takeTable (table ++ ('.' :: (w.column ++ w.ending))) =
        some (table, w.column ++ w.ending) := by
      have hdot : ∀ c ∈ ('.' :: (w.column ++ w.ending)).head?, isWordChar c = false := by
        rintro c ⟨⟩
        decide +kernel
      rw [takeTable, takeIdent_ident hident hdot]
      rfl
    rw [Option.elim_some, List.append_assoc, List.singleton_append, dropBlanks_ident hident, htake,
      Spelling.ref, htable]
    exact columnOf?_spelling w (some (String.ofList table))

end Plain

/-- A text that is read as a plain column is the text of a spelling. -/
theorem exists_spelling_of_plain? {s : String} {r : ColumnRef} (h : plain? s = some r) :
    ∃ w : Spelling, w.text = s := by
  obtain ⟨lead, hlead, hs⟩ := exists_blanks_append s.toList
  -- what stands after the table makes the rest of the spelling
  have hcolumn (table : Option (List Char)) {name : Option String} {cs : List Char}
      (htable : ∀ t ∈ table, isIdent t = true) (hcs : columnOf? name cs = some r)
      (hfront : s.toList = lead ++ (table.elim [] (· ++ ['.']) ++ cs)) :
      ∃ w : Spelling, w.text = s := by
    obtain ⟨⟨column, rest⟩, htake, hrest⟩ := Option.bind_eq_some_iff.1 hcs
    obtain ⟨label, hlabel, -⟩ := Option.bind_eq_some_iff.1 hrest
    obtain ⟨hname, rfl⟩ := of_takeColumn htake
    obtain ⟨l, trail, htrail, rfl⟩ := exists_label_of_aliasAtEnd? hlabel
    refine ⟨⟨lead, table, column, l, trail, hlead, htable, hname, htrail⟩, ?_⟩
    rw [← String.ofList_toList (s := s), hfront]
    rfl
  rw [plain?] at h
  split at h
  · next table rest htable =>
    rw [takeTable.eq_def] at htable
    split at htable
    · next table' rest' htake =>
      cases htable
      refine hcolumn (some table) ?_ h ?_
      · rintro t ⟨⟩
        exact isIdent_of_takeIdent htake
      · rw [hs, ← takeIdent_append htake]
        simp
    · cases htable
  · exact hcolumn none nofun h hs

/-! ## Raw expressions -/

/-- The alias of an expression is that of the label at its end. -/
theorem rawAlias?_of_label {s : String} {front trail : List Char} (l : Label)
    (hs : s.toList = front ++ (l.chars ++ trail)) (hfront : '\n' ∉ front) (htrail : Blanks trail) :
    rawAlias? s = some (String.ofList l.name) := by
  obtain ⟨hne, hletters⟩ := l.keyword_letters
  have hnames : ∀ c ∈ l.name.reverse, isBlank c = false :=
    fun c hc => isBlank_of_mem_ident l.name_ident c (List.mem_reverse.1 hc)
  -- from the end, the text is made of the same pieces, each of them reversed
  have hreverse : s.toList.reverse = trail.reverse ++ (l.name.reverse ++ (l.between.reverse ++
      (l.keyword.reverse ++ (l.before.reverse ++ front.reverse)))) := by
    simp [hs, Label.chars]
  have hback : dropBlanks s.toList.reverse = l.name.reverse ++ (l.between.reverse ++
      (l.keyword.reverse ++ (l.before.reverse ++ front.reverse))) := by
    rw [hreverse, dropBlanks_append_of_blank htrail.reverse]
    exact dropBlanks_append_of_not_blank (by simpa using ident_ne_nil l.name_ident) hnames _
  have hname : ∀ c ∈ l.name.reverse, (!isBlank c) = true := by
    intro c hc
    rw [hnames c hc, Bool.not_false]
  have hstop (cs : List Char) : ∀ c ∈ (l.between.reverse ++ cs).head?, (!isBlank c) = false := by
    intro c hc
    rw [l.between_blank.reverse.head_append (by simpa using l.between_ne) cs c hc, Bool.not_true]
  obtain ⟨htake, hdrop⟩ :=
    span_append hname (hstop (l.keyword.reverse ++ (l.before.reverse ++ front.reverse)))
  have hkeep : dropWordFolded "sa".toList
      (l.keyword.reverse ++ (l.before.reverse ++ front.reverse)) =
      some (l.before.reverse ++ front.reverse) :=
    dropWordFolded_eq_some_iff.2 ⟨l.keyword.reverse, List.forall₂_reverse_iff.2 l.keyword_as, rfl⟩
  have hfeed : (dropBlanks front.reverse).contains '\n' = false := by
    rw [List.contains_eq_mem, decide_eq_false_iff_not]
    exact fun hmem => hfront (List.mem_reverse.1 ((List.dropWhile_sublist _).subset hmem))
  simp only [rawAlias?, hback, htake, hdrop, Option.bind_eq_bind, Option.bind_some, hkeep,
    dropBlanks_append_of_not_blank (by simpa using hne)
      (fun c hc => hletters c (List.mem_reverse.1 hc)),
    dropSomeBlanks_append (by simpa using l.between_ne) l.between_blank.reverse,
    dropSomeBlanks_append (by simpa using l.before_ne) l.before_blank.reverse, List.reverse_reverse,
    l.name_ident, hfeed]
  rfl

theorem exists_label_of_rawAlias? {s name : String} (h : rawAlias? s = some name) :
    ∃ (front : List Char) (l : Label) (trail : List Char), s.toList = front ++ (l.chars ++ trail) ∧
      '\n' ∉ front ∧ Blanks trail := by
  obtain ⟨cs₁, hbetween, h⟩ := Option.bind_eq_some_iff.1 h
  obtain ⟨cs₂, hkeyword, h⟩ := Option.bind_eq_some_iff.1 h
  obtain ⟨cs₃, hbefore, h⟩ := Option.bind_eq_some_iff.1 h
  split at h
  · next hend =>
    rw [Bool.and_eq_true, Bool.not_eq_true', List.contains_eq_mem, decide_eq_false_iff_not] at hend
    obtain ⟨between, hne', hblank', heq⟩ := exists_of_dropSomeBlanks hbetween
    obtain ⟨keyword, has, heq'⟩ := dropWordFolded_eq_some_iff.1 hkeyword
    obtain ⟨before, hne, hblank, heq''⟩ := exists_of_dropSomeBlanks hbefore
    obtain ⟨trail, htrail, hs⟩ := exists_blanks_append s.toList.reverse
    have hback :=
      List.takeWhile_append_dropWhile (p := fun c => !isBlank c) (l := dropBlanks s.toList.reverse)
    rw [heq, heq', heq''] at hback
    generalize List.takeWhile (fun c => !isBlank c) (dropBlanks s.toList.reverse) =
      ident at hback hend
    have has' : List.Forall₂ (fun letter c => foldsTo letter c = true) ['a', 's'] keyword.reverse :=
      List.forall₂_reverse_iff.2 has
    refine ⟨cs₃.reverse, ⟨before.reverse, keyword.reverse, between.reverse, ident.reverse,
      by simpa using hne,
      hblank.reverse, has', by simpa using hne', hblank'.reverse, hend.1⟩, trail.reverse, ?_, ?_,
      htrail.reverse⟩
    · apply List.reverse_injective
      rw [hs, ← hback]
      simp [Label.chars]
    · simpa using hend.2
  · cases h

/-- An expression has an alias if it ends with a label, up to blanks, and no line feed stands before
that. -/
theorem rawAlias?_eq_some_iff {s name : String} :
    rawAlias? s = some name ↔
      ∃ (front : List Char) (l : Label) (trail : List Char),
        s.toList = front ++ (l.chars ++ trail) ∧
        '\n' ∉ front ∧ Blanks trail ∧ name = String.ofList l.name := by
  constructor
  · intro h
    obtain ⟨front, l, trail, hs, hfront, htrail⟩ := exists_label_of_rawAlias? h
    have hname := rawAlias?_of_label l hs hfront htrail
    exact ⟨front, l, trail, hs, hfront, htrail, Option.some.inj (h.symm.trans hname)⟩
  · rintro ⟨front, l, trail, hs, hfront, htrail, rfl⟩
    exact rawAlias?_of_label l hs hfront htrail

/-! ## Column references -/

/-- The text of a spelling is read as the column that it spells, and any other text as a raw
expression, which has the alias of the label it ends with, up to blanks, if no line feed stands
before the label. -/
theorem ofString_grammar :
    (∀ w : Spelling, ofString w.text = w.ref) ∧
      ∀ s : String, (∀ w : Spelling, w.text ≠ s) →
        (ofString s).isRaw = true ∧ (ofString s).table? = none ∧ (ofString s).text = trim s ∧
          ∀ name, (ofString s).alias? = some name ↔
            ∃ (front : List Char) (l : Label) (trail : List Char),
              s.toList = front ++ (l.chars ++ trail) ∧
              '\n' ∉ front ∧ Blanks trail ∧ name = String.ofList l.name := by
  constructor
  · intro w
    rw [ofString, plain?_text, Option.getD_some]
  · intro s hs
    have hplain : plain? s = none := by
      cases hr : plain? s with
      | none => rfl
      | some r =>
        obtain ⟨w, hw⟩ := exists_spelling_of_plain? hr
        exact absurd hw (hs w)
    have hraw : ofString s = .raw (trim s) (rawAlias? s) := by
      rw [ofString, hplain, Option.getD_none]
    rw [hraw]
    exact ⟨rfl, rfl, rfl, fun name => rawAlias?_eq_some_iff⟩

/-- A label over three lines. -/
def totalLabel : Label where
  before := ['\n', ' ']
  keyword := ['a', 's']
  between := ['\n', ' ']
  name := "total".toList
  before_ne := by decide
  before_blank := by decide
  keyword_as := by decide
  between_ne := by decide
  between_blank := by decide
  name_ident := by decide

theorem ofString_grammar_total :
    ∃ s : String, s = "count(*)\n as\n total " ∧ (∀ w : Spelling, w.text ≠ s) ∧
    (ofString s).isRaw = true ∧ (ofString s).text = "count(*)\n as\n total" ∧
      (ofString s).alias? = some "total" := by
  have hs : ∀ w : Spelling, w.text ≠ "count(*)\n as\n total " := by
    intro w hw
    have hplain := plain?_text w
    rw [hw] at hplain
    cases hplain.symm.trans (by decide +kernel : plain? "count(*)\n as\n total " = none)
  obtain ⟨hraw, -, htext, halias⟩ := ofString_grammar.2 _ hs
  refine ⟨_, rfl, hs, hraw, htext, (halias "total").2 ⟨"count(*)".toList, totalLabel, [' '], ?_⟩⟩
  exact ⟨by decide, by decide, by decide, by decide⟩

end ColumnRef

end QueryTypes
