import Mathlib.Data.List.TakeWhile
import QueryTypes.Number.Numeral

/-!
# Numerals of integers

The decimal numeral of an integer of 64 bits is read back as that integer (`readInt64?_toString`),
that of a position as the position (`readNat64?_toString`), and different natural numbers have
different numerals. Keys of arrays rest on these. Digits alone are also the numeral of a double, the
one nearest to their value (`readDouble?_of_digits`).
-/

set_option autoImplicit false

namespace QueryTypes.Numeral

theorem digitsValue_eq (cs : List Char) : digitsValue cs = Nat.ofDigitChars 10 cs 0 := by
  unfold digitsValue digitsValueFrom Nat.ofDigitChars
  simp only [Nat.mul_comm]

theorem isDigit_of_mem_toDigits {n : Nat} {c : Char} (h : c ∈ Nat.toDigits 10 n) :
    c.isDigit = true :=
  Nat.isDigit_of_mem_toDigits (by decide) (by decide) h

/-- The digits of a number other than zero do not begin with zero. -/
theorem exists_toDigits_eq_cons {n : Nat} (h : 0 < n) :
    ∃ c cs, Nat.toDigits 10 n = c :: cs ∧ c.isDigit = true ∧ c ≠ '0' := by
  induction n using Nat.strongRecOn with
  | ind n ih =>
    rw [Nat.toDigits_eq_if (by decide)]
    split
    · next hlt =>
      have hall : ∀ d : Fin 10, 0 < d.1 →
          (Nat.digitChar d.1).isDigit = true ∧ Nat.digitChar d.1 ≠ '0' := by decide
      exact ⟨_, [], rfl, hall ⟨n, hlt⟩ h⟩
    · next hge =>
      -- the first digit is the first digit of the quotient
      obtain ⟨c, cs, hcs, hc⟩ := ih (n / 10) (by omega) (by omega)
      exact ⟨c, cs ++ [Nat.digitChar (n % 10)], by rw [hcs]; rfl, hc⟩

theorem allDigits?_toDigits (n : Nat) : allDigits? (Nat.toDigits 10 n) = some n := by
  have hne : (Nat.toDigits 10 n).isEmpty = false := by
    rw [List.isEmpty_eq_false_iff]
    exact Nat.toDigits_ne_nil
  have hall : (Nat.toDigits 10 n).all Char.isDigit = true := by
    rw [List.all_eq_true]
    exact fun c hc => isDigit_of_mem_toDigits hc
  unfold allDigits?
  rw [hne, hall, digitsValue_eq, Nat.ofDigitChars_ten_toDigits]
  rfl

theorem takeSign_of_isDigit {cs : List Char} (h : ∀ c ∈ cs, c.isDigit = true) :
    takeSign cs = (false, cs) := by
  unfold takeSign
  split
  · exact absurd (h '+' List.mem_cons_self) (by decide)
  · exact absurd (h '-' List.mem_cons_self) (by decide)
  · rfl

theorem takeSign_toDigits (n : Nat) :
    takeSign (Nat.toDigits 10 n) = (false, Nat.toDigits 10 n) :=
  takeSign_of_isDigit fun _ hc => isDigit_of_mem_toDigits hc

theorem fitsInt64_toInt (n : Int64) : fitsInt64 n.toInt = true := by
  have hlow := n.le_toInt
  have hhigh := n.toInt_lt
  unfold fitsInt64
  rw [Bool.and_eq_true, decide_eq_true_eq, decide_eq_true_eq]
  constructor
  · omega
  · omega

theorem readInt64?_of_digits {s : String} {negative : Bool} {digits : List Char} {n : Nat}
    (hsign : takeSign s.toList = (negative, digits)) (hdigits : allDigits? digits = some n)
    (hfits : fitsInt64 (if negative then -(n : Int) else n) = true) :
    readInt64? s = some (Int64.ofInt (if negative then -(n : Int) else n)) := by
  unfold readInt64?
  rw [hsign]
  show (allDigits? digits).bind _ = _
  rw [hdigits]
  exact if_pos hfits

theorem toList_toString_ofNat (m : Nat) : (toString (Int.ofNat m)).toList = Nat.toDigits 10 m :=
  Nat.toList_repr

theorem toList_toString_negSucc (m : Nat) :
    (toString (Int.negSucc m)).toList = '-' :: Nat.toDigits 10 (m + 1) := by
  show ("-" ++ (m + 1).repr).toList = _
  rw [String.toList_append, Nat.toList_repr]
  rfl

/-- An integer of 64 bits is read back from its numeral. -/
theorem readInt64?_toString (n : Int64) : readInt64? (toString n.toInt) = some n := by
  have hfits := fitsInt64_toInt n
  have hback := Int64.ofInt_toInt n
  cases hn : n.toInt with
  | ofNat m =>
    rw [hn] at hfits hback
    have hlist := toList_toString_ofNat m
    have hsign := takeSign_toDigits m
    rw [← hlist] at hsign
    rw [readInt64?_of_digits hsign (hlist ▸ allDigits?_toDigits m) hfits]
    exact congrArg some hback
  | negSucc m =>
    rw [hn] at hfits hback
    have hlist := toList_toString_negSucc m
    have hsign : takeSign (toString (Int.negSucc m)).toList = (true, Nat.toDigits 10 (m + 1)) := by
      rw [hlist]
      rfl
    rw [readInt64?_of_digits hsign (allDigits?_toDigits (m + 1)) hfits]
    exact congrArg some hback

/-! ## Positions -/

/-- The number of positions that integers of 64 bits can count. -/
def positionBound : Nat := 0x8000000000000000

theorem fitsInt64_of_lt {n : Nat} (h : n < positionBound) : fitsInt64 n = true := by
  rw [positionBound] at h
  rw [fitsInt64, Bool.and_eq_true, decide_eq_true_eq, decide_eq_true_eq]
  omega

/-- As long as it can count, the counter shows the position. -/
theorem toString_toInt_ofNat {n : Nat} (h : n < positionBound) :
    toString (Int64.ofNat n).toInt = toString n := by
  rw [Int64.toInt_ofNat_of_lt h]
  rfl

/-- A position is read back from its numeral. -/
theorem readNat64?_toString {n : Nat} (h : n < natBound) : readNat64? (toString n) = some n := by
  have hlist : (toString n).toList = Nat.toDigits 10 n := Nat.toList_repr
  rw [readNat64?, hlist]
  split
  · next rest hplus =>
    -- a numeral has digits only
    have hmem : '+' ∈ Nat.toDigits 10 n := hplus ▸ List.mem_cons_self
    have hdigit := isDigit_of_mem_toDigits hmem
    exact absurd hdigit (by decide)
  · show (allDigits? (Nat.toDigits 10 n)).bind _ = _
    rw [allDigits?_toDigits]
    exact if_pos h

theorem readNat64?_toString_of_lt_positionBound {n : Nat} (h : n < positionBound) :
    readNat64? (toString n) = some n := readNat64?_toString (Nat.lt_trans h (by decide))

theorem allDigits?_eq_some {cs : List Char} {n : Nat} (h : allDigits? cs = some n) :
    cs ≠ [] ∧ (∀ c ∈ cs, c.isDigit = true) ∧ digitsValue cs = n := by
  unfold allDigits? at h
  split at h
  · cases h
  · next hdigits =>
    simp only [Bool.or_eq_true, List.isEmpty_iff, Bool.not_eq_true', not_or, Bool.not_eq_false,
      List.all_eq_true] at hdigits
    exact ⟨hdigits.1, hdigits.2, Option.some.inj h⟩

/-- Digits are read as the double nearest to their value. -/
theorem readDouble?_of_digits {s : String} {n : Nat} (h : allDigits? s.toList = some n) :
    readDouble? s = some (.ofNat n) := by
  obtain ⟨hne, hdigit, rfl⟩ := allDigits?_eq_some h
  rw [readDouble?, takeSign_of_isDigit hdigit]
  generalize s.toList = cs at hne hdigit
  have hlower : cs.map Char.toLower = cs := by
    refine (List.map_congr_left (g := id) fun c hc => ?_).trans (List.map_id cs)
    have hrange := Char.isDigit_iff_toNat.1 (hdigit c hc)
    exact dif_neg fun hupper => absurd (Nat.le_trans hupper.1 hrange.2) (by decide)
  -- no word is made of digits
  have hword (word : String) (c : Char) (hc : c ∈ word.toList) (hletter : c.isDigit = false) :
      (String.ofList cs == word) = false := by
    refine beq_false_of_ne ?_
    rintro rfl
    rw [String.toList_ofList] at hc
    exact Bool.false_ne_true (hletter.symm.trans (hdigit c hc))
  have hdecimal : readDecimal? cs = some (digitsValue cs, 0) := by
    have htake : takeDigits cs = (cs, []) := by
      rw [takeDigits, List.takeWhile_eq_self_iff.2 hdigit, List.dropWhile_eq_nil_iff.2 hdigit]
    rw [readDecimal?, htake]
    simp [readExponent?, digitsValueFrom, hne]
  have hexact : Double.ofDecimal false (digitsValue cs) 0 = .ofNat (digitsValue cs) := by
    by_cases hzero : digitsValue cs = 0
    · rw [hzero]
      decide +kernel
    · rw [Double.ofDecimal, if_neg hzero, if_neg (by decide), if_neg (by omega),
        if_pos (Int.le_refl 0)]
      exact congrArg (Double.ofRatio false · 1) (Nat.mul_one _)
  simp only [hlower, hword "inf" 'i' (by decide) (by decide),
    hword "infinity" 'i' (by decide) (by decide), hword "nan" 'n' (by decide) (by decide), hdecimal,
    Bool.or_false, Bool.false_eq_true, if_false, Option.map_some, hexact]

/-- Different positions have different numerals. -/
theorem eq_of_toString_eq {i j : Nat} (h : toString i = toString j) : i = j := by
  have hdigits : Nat.toDigits 10 i = Nat.toDigits 10 j := by
    rw [← Nat.toList_repr, ← Nat.toList_repr]
    exact congrArg String.toList h
  have hread : some i = some j := by rw [← allDigits?_toDigits i, ← allDigits?_toDigits j, hdigits]
  exact Option.some.inj hread

end QueryTypes.Numeral
