/-!
# Blanks

White space in the sense of the Unicode property `White_Space`, which is wider than the four
characters of core's `Char.isWhitespace`. Rule strings, column references and column type names are
trimmed and cut by this class, so a no-break space or an ideographic space counts as a blank there.

Lists of characters carry the operations; the versions on `String` only convert.
-/

set_option autoImplicit false

namespace QueryTypes.Text

/-- The Unicode property `White_Space`. -/
def isBlank (c : Char) : Bool :=
  let n := c.toNat
  (0x9 ≤ n && n ≤ 0xD) || n == 0x20 || n == 0x85 || n == 0xA0 || n == 0x1680 ||
    (0x2000 ≤ n && n ≤ 0x200A) || n == 0x2028 || n == 0x2029 || n == 0x202F || n == 0x205F ||
    n == 0x3000

/-- The text without its leading blanks. -/
def dropBlanks (cs : List Char) : List Char := cs.dropWhile isBlank

/-- The text without its trailing blanks. -/
def dropBlanksEnd (cs : List Char) : List Char := (dropBlanks cs.reverse).reverse

/-- The text without the blanks around it. -/
def trimChars (cs : List Char) : List Char := dropBlanksEnd (dropBlanks cs)

/-- The string without the blanks around it. -/
def trim (s : String) : String := String.ofList (trimChars s.toList)

/-- ASCII capitals become small letters; every other character stays. -/
def lowerAscii (s : String) : String := s.map Char.toLower

/-- The pieces between the occurrences of a separator: always one more than it occurs. -/
def splitChars (sep : Char) : List Char → List (List Char)
  | [] => [[]]
  | c :: rest =>
    match splitChars sep rest with
    | [] => [[c]]
    | piece :: pieces => if c == sep then [] :: piece :: pieces else (c :: piece) :: pieces

/-- The pieces of a string between the occurrences of a separator. -/
def splitOn (sep : Char) (s : String) : List String :=
  (splitChars sep s.toList).map String.ofList

/-- Cut at the first separator, which belongs to neither side. -/
def cutAt (sep : Char) : List Char → Option (List Char × List Char)
  | [] => none
  | c :: rest =>
    if c == sep then some ([], rest)
    else (cutAt sep rest).map fun (before, after) => (c :: before, after)

/-! ## Small facts -/

/-- Blanks in front are dropped whatever follows them. -/
theorem dropBlanks_append_of_blank {bs cs : List Char} (h : ∀ c ∈ bs, isBlank c = true) :
    dropBlanks (bs ++ cs) = dropBlanks cs := by
  induction bs with
  | nil => rfl
  | cons b bs ih =>
    rw [List.cons_append, dropBlanks, List.dropWhile_cons, if_pos (h b (by simp))]
    exact ih fun c hc => h c (by simp [hc])

/-- A text that starts with no blank has none to drop. -/
theorem dropBlanks_cons_of_not_blank {c : Char} {cs : List Char} (h : isBlank c = false) :
    dropBlanks (c :: cs) = c :: cs := by
  rw [dropBlanks, List.dropWhile_cons, h]
  rfl

/-- Splitting never answers the empty list. -/
theorem splitChars_ne_nil (sep : Char) (cs : List Char) : splitChars sep cs ≠ [] := by
  cases cs with
  | nil => simp [splitChars]
  | cons c rest =>
    simp only [splitChars]
    split
    · simp
    · split <;> simp

end QueryTypes.Text
