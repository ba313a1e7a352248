import QueryTypes.Proofs.Forms.Keys

/-!
# Keys that cannot be read

The pieces of a key lie between dots, where a dot after a backslash does not count. A key has a
fault (`PathFault`) if its first piece is a wildcard, or else if it has an empty piece: one that
starts at the beginning of the key or after a dot and ends there, at the next dot or at the end of
the key. These pieces are the raw segments of the key, so that the keys with a fault are those that
are not read, each with its own error (`parsePath_eq_error_iff`).
-/

set_option autoImplicit false

namespace QueryTypes.Rules

/-! ## Faults -/

/-- A piece ends before the text: there is nothing more, or a dot. -/
def EndsPiece (back : List Char) : Prop := back = [] ∨ ∃ rest, back = '.' :: rest

/-- A piece starts after the text: there is nothing before, or a dot that is not escaped. -/
def StartsPiece (front : List Char) : Prop :=
  front = [] ∨ ∃ before, front = before ++ ['.'] ∧ before.getLast? ≠ some '\\'

/-- The first piece is a wildcard. -/
def WildcardFirst (cs : List Char) : Prop := ∃ rest, cs = '*' :: rest ∧ EndsPiece rest

/-- Somewhere a piece ends where it starts. -/
def HasEmptyPiece (cs : List Char) : Prop :=
  ∃ front back, cs = front ++ back ∧ StartsPiece front ∧ EndsPiece back

/-- What is wrong with a key. -/
inductive PathFault (key : String) : InferError → Prop
  | wildcardRoot (wildcard : WildcardFirst key.toList) : PathFault key (.wildcardRoot key)
  | emptySegment (no_wildcard : ¬ WildcardFirst key.toList) (empty : HasEmptyPiece key.toList) :
      PathFault key (.emptySegment key)

/-! ## Empty segments -/

/-- A dot that is not escaped is followed by an empty piece. `escaped` says whether a backslash
stands before the text. -/
def HasEmptyPieceAfterDot (escaped : Bool) (cs : List Char) : Prop :=
  ∃ before rest, cs = before ++ '.' :: rest ∧
    (before.getLast?.map (· == '\\')).getD escaped = false ∧ EndsPiece rest

theorem hasEmptyPiece_iff {cs : List Char} :
    HasEmptyPiece cs ↔ EndsPiece cs ∨ HasEmptyPieceAfterDot false cs := by
  have hunescaped (before : List Char) : before.getLast? ≠ some '\\' ↔
      (before.getLast?.map (· == '\\')).getD false = false := by
    cases before.getLast? <;> simp
  constructor
  · rintro ⟨front, back, rfl, rfl | ⟨before, rfl, hbefore⟩, hback⟩
    · exact .inl hback
    · exact .inr ⟨before, back, by simp, (hunescaped before).1 hbefore, hback⟩
  · rintro (hcs | ⟨before, rest, rfl, hbefore, hrest⟩)
    · exact ⟨[], cs, rfl, .inl rfl, hcs⟩
    · exact ⟨before ++ ['.'], rest, by simp, .inr ⟨before, rfl, (hunescaped before).2 hbefore⟩,
        hrest⟩

/-- The dot is the first character, or it comes later. -/
theorem hasEmptyPieceAfterDot_cons {escaped : Bool} {c : Char} {cs : List Char} :
    HasEmptyPieceAfterDot escaped (c :: cs) ↔
      (c = '.' ∧ escaped = false) ∧ EndsPiece cs ∨ HasEmptyPieceAfterDot (c == '\\') cs := by
  have hlast (before : List Char) : ((c :: before).getLast?.map (· == '\\')).getD escaped =
      (before.getLast?.map (· == '\\')).getD (c == '\\') := by
    rw [List.getLast?_cons]
    cases before.getLast? <;> rfl
  constructor
  · rintro ⟨before, rest, hcs, hbefore, hrest⟩
    cases before with
    | nil =>
      obtain ⟨rfl, rfl⟩ := List.cons.inj hcs
      exact .inl ⟨⟨rfl, hbefore⟩, hrest⟩
    | cons d before =>
      obtain ⟨rfl, rfl⟩ := List.cons.inj hcs
      exact .inr ⟨before, rest, rfl, (hlast before).symm.trans hbefore, hrest⟩
  · rintro (⟨⟨rfl, rfl⟩, hcs⟩ | ⟨before, rest, rfl, hbefore, hrest⟩)
    · exact ⟨[], cs, rfl, rfl, hcs⟩
    · exact ⟨c :: before, rest, rfl, (hlast before).trans hbefore, hrest⟩

theorem head?_rawSegmentsFrom_eq_nil {cs : List Char} :
    (rawSegmentsFrom false cs).head? = some [] ↔ EndsPiece cs := by
  cases cs with
  | nil => simp [EndsPiece, rawSegmentsFrom]
  | cons c rest =>
    by_cases hc : c = '.'
    · simp [EndsPiece, rawSegmentsFrom, hc]
    · simp [EndsPiece, rawSegmentsFrom, hc, List.head?_modifyHead]

/-- A segment is empty if it is the first one or comes after a dot. -/
theorem nil_mem_rawSegmentsFrom {cs : List Char} :
    [] ∈ rawSegmentsFrom false cs ↔ HasEmptyPiece cs := by
  have hsplit (segments : List (List Char)) :
      [] ∈ segments ↔ segments.head? = some [] ∨ [] ∈ segments.tail := by
    cases segments <;> simp [eq_comm]
  have htail : ∀ escaped, [] ∈ (rawSegmentsFrom escaped cs).tail ↔
      HasEmptyPieceAfterDot escaped cs := by
    induction cs with
    | nil => simp [rawSegmentsFrom, HasEmptyPieceAfterDot]
    | cons c cs ih =>
      intro escaped
      rw [rawSegmentsFrom, hasEmptyPieceAfterDot_cons, ← ih]
      split
      · next hdot =>
        -- what follows a dot that is not escaped is a segment of its own
        obtain ⟨rfl, rfl⟩ := hdot
        rw [List.tail_cons, hsplit, head?_rawSegmentsFrom_eq_nil]
        simp
      · next hdot => simp [hdot]
  rw [hsplit, head?_rawSegmentsFrom_eq_nil, htail, hasEmptyPiece_iff]

theorem head?_rawSegmentsFrom_eq_wildcard {cs : List Char} :
    (rawSegmentsFrom false cs).head? = some ['*'] ↔ WildcardFirst cs := by
  cases cs with
  | nil => simp [WildcardFirst, rawSegmentsFrom]
  | cons c rest =>
    by_cases hc : c = '*'
    · subst hc
      simp [WildcardFirst, rawSegmentsFrom, List.head?_modifyHead, head?_rawSegmentsFrom_eq_nil]
    · by_cases hdot : c = '.'
      · simp [WildcardFirst, rawSegmentsFrom, hdot]
      · simp [WildcardFirst, rawSegmentsFrom, List.head?_modifyHead, hc, hdot]

/-! ## Reading -/

/-- The keys that are not read are those with a fault, which is the error. -/
theorem parsePath_eq_error_iff {key : String} {e : InferError} :
    parsePath key = .error e ↔ PathFault key e := by
  have hwildcard : (rawSegments key).head? = some "*" ↔ WildcardFirst key.toList := by
    rw [← head?_rawSegmentsFrom_eq_wildcard, rawSegments, List.head?_map]
    cases (rawSegmentsFrom false key.toList).head? <;> simp [← String.toList_inj]
  have hempty : "" ∈ rawSegments key ↔ HasEmptyPiece key.toList := by
    rw [← nil_mem_rawSegmentsFrom, rawSegments, List.mem_map]
    simp [← String.toList_inj]
  rw [parsePath_eq]
  constructor
  · intro h
    split at h
    · next hfirst =>
      cases h
      exact .wildcardRoot (hwildcard.1 hfirst)
    · next hfirst =>
      split at h
      · next hpiece =>
        cases h
        exact .emptySegment (mt hwildcard.2 hfirst) (hempty.1 hpiece)
      · cases h
  · rintro (hfirst | ⟨hfirst, hpiece⟩)
    · exact if_pos (hwildcard.2 hfirst)
    · rw [if_neg (mt hwildcard.1 hfirst), if_pos (hempty.2 hpiece)]

end QueryTypes.Rules
