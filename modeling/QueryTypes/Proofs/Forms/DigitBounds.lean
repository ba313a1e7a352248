import Mathlib.Order.Bounds.Defs
import QueryTypes.Proofs.Forms.Patterns
import QueryTypes.Proofs.Numeral
import QueryTypes.Proofs.Rounding

/-!
# Bounds by digits

A rule that counts digits bounds an integer by the least and the greatest number with so many
digits. The bounds are doubles, so this holds as long as the numbers are doubles: powers of ten up
to `10 ^ 22`, and numbers made of nines up to fifteen of them. Beyond fifteen digits the greatest
number is odd and has more than 53 bits, and no double separates it from the next one, which has a
digit more (`leafType_digits`).

The counts are read back from the text of the rule (`leafType_digitRule`). What the bounds come to
is a matter of what fits a double (`Double.fits_ten_pow`, `Double.fits_nines`).
-/

set_option autoImplicit false

namespace QueryTypes

/-! ## Numbers of digits -/

namespace Numeral

/-- The number of digits with which a natural number is written. -/
def width (n : Nat) : Nat := (Nat.toDigits 10 n).length

/-- The least number with a number of digits; a single digit may be zero. -/
def leastOfWidth (k : Nat) : Nat := if k = 1 then 0 else 10 ^ (k - 1)

theorem width_le_iff {n k : Nat} (hk : 1 ≤ k) : width n ≤ k ↔ n < 10 ^ k :=
  Nat.length_toDigits_le_iff (by decide) hk

theorem le_width_iff {n k : Nat} (hk : 1 ≤ k) : k ≤ width n ↔ leastOfWidth k ≤ n := by
  unfold leastOfWidth
  split
  · next hone =>
    have hpos : 0 < width n := Nat.length_toDigits_pos
    omega
  · next hmore =>
    have hless := width_le_iff (n := n) (k := k - 1) (by omega)
    omega

theorem isLeast_width {k : Nat} (hk : 1 ≤ k) : IsLeast {n | width n = k} (leastOfWidth k) := by
  have hpow : leastOfWidth k < 10 ^ k := by
    unfold leastOfWidth
    split
    · exact Nat.pow_pos (by decide)
    · exact Nat.pow_lt_pow_right (by decide) (by omega)
  constructor
  · exact Nat.le_antisymm ((width_le_iff hk).2 hpow) ((le_width_iff hk).2 (Nat.le_refl _))
  · rintro n rfl
    exact (le_width_iff hk).1 (Nat.le_refl _)

theorem isGreatest_width {k : Nat} (hk : 1 ≤ k) : IsGreatest {n | width n = k} (10 ^ k - 1) := by
  have hpos : 0 < 10 ^ k := Nat.pow_pos (by decide)
  have hleast : leastOfWidth k ≤ 10 ^ k - 1 := by
    have hlt := (width_le_iff hk).1 (Nat.le_of_eq (isLeast_width hk).1)
    omega
  constructor
  · exact Nat.le_antisymm ((width_le_iff hk).2 (by omega)) ((le_width_iff hk).2 hleast)
  · rintro n rfl
    have hlt := (width_le_iff (n := n) hk).1 (Nat.le_refl _)
    omega

end Numeral

theorem Text.isBlank_of_isDigit {c : Char} (h : c.isDigit = true) : isBlank c = false := by
  have hrange : 48 ≤ c.toNat ∧ c.toNat ≤ 57 := Char.isDigit_iff_toNat.1 h
  refine Bool.eq_false_iff.2 fun hblank => ?_
  simp only [isBlank, Bool.or_eq_true, Bool.and_eq_true, decide_eq_true_eq, beq_iff_eq] at hblank
  omega

/-! ## Powers of ten as doubles -/

namespace Double

theorem fits_of_lt {n : Nat} (h : n < 2 ^ 53) : Fits (n * unitsPerOne) :=
  ⟨n, 1074, h, by decide, by rw [unitsPerOne_eq]⟩

/-- A power of ten is a double if its odd part has at most 53 bits. -/
theorem fits_ten_pow {n : Nat} : Fits (10 ^ n * unitsPerOne) ↔ n ≤ 22 := by
  have hodd : Odd (5 ^ n) := Odd.pow (by decide)
  have hten : 10 ^ n = 5 ^ n * 2 ^ n := by rw [← Nat.mul_pow]
  constructor
  · intro hfits
    have hne : 10 ^ n * unitsPerOne ≠ 0 :=
      Nat.mul_ne_zero (pow_ne_zero n (by decide)) zero_lt_unitsPerOne.ne'
    have hdvd : 5 ^ n ∣ 10 ^ n * unitsPerOne := by
      rw [hten, Nat.mul_assoc]
      exact Nat.dvd_mul_right _ _
    have hlt := (hfits.of_dvd hne hdvd).lt_of_odd hodd
    by_contra hmore
    have hle : 5 ^ 23 ≤ 5 ^ n := Nat.pow_le_pow_right (by decide) (by omega)
    omega
  · intro hn
    have hle : 5 ^ n ≤ 5 ^ 22 := Nat.pow_le_pow_right (by decide) hn
    refine ⟨5 ^ n, n + 1074, by omega, by omega, ?_⟩
    rw [hten, unitsPerOne_eq, Nat.pow_add, Nat.mul_assoc]

theorem odd_nines {n : Nat} (hn : 1 ≤ n) : Odd (10 ^ n - 1) := by
  have heven : Even (10 ^ n) := Even.pow_of_ne_zero (by decide) (by omega)
  exact Nat.Even.sub_odd (Nat.pow_pos (by decide)) heven odd_one

/-- A number made of nines is a double if it has at most 53 bits. -/
theorem fits_nines {n : Nat} (hn : 1 ≤ n) : Fits ((10 ^ n - 1) * unitsPerOne) ↔ n ≤ 15 := by
  constructor
  · intro hfits
    by_contra hmore
    have hle : 10 ^ 16 ≤ 10 ^ n := Nat.pow_le_pow_right (by decide) (by omega)
    have hne : (10 ^ n - 1) * unitsPerOne ≠ 0 := Nat.mul_ne_zero (by omega) zero_lt_unitsPerOne.ne'
    have hlt := (hfits.of_dvd hne (Nat.dvd_mul_right _ _)).lt_of_odd (odd_nines hn)
    omega
  · intro hn
    have hle : 10 ^ n ≤ 10 ^ 15 := Nat.pow_le_pow_right (by decide) hn
    exact fits_of_lt (by omega)

end Double

namespace Rules

/-! ## The numbers that bound -/

section Counts

variable {n : Nat}

theorem digitCount_ofNat (h : n ≤ 23) : digitCount (.ofNat n) = n := by
  have hcount : (Double.ofNat n).IsInt n := Double.isInt_ofNat (Double.fits_of_lt (by omega))
  rw [digitCount, Double.clampToInt, Double.isNaN_of_isFinite hcount.1,
    Double.isInfinite_of_isFinite hcount.1, hcount.truncate_eq]
  simp only [Bool.false_eq_true, if_false]
  omega

/-- The lower bound is the least number with the digits as long as this is a double. -/
theorem isInt_smallestWithDigits_iff (hn : 1 ≤ n) :
    (smallestWithDigits (.ofNat n)).IsInt (Numeral.leastOfWidth n) ↔ n ≤ 23 := by
  rw [Numeral.leastOfWidth]
  by_cases hsingle : n = 1
  · subst hsingle
    exact iff_of_true (by decide +kernel) (by decide)
  rw [if_neg hsingle]
  constructor
  · intro hint
    have hfits := hint.fits
    rw [Int.natAbs_natCast, Double.fits_ten_pow] at hfits
    omega
  · intro hmost
    have hcount : (Double.ofNat n).IsInt n := Double.isInt_ofNat (Double.fits_of_lt (by omega))
    have hgreater : (Double.cmp (.ofNat n) .one == .gt) = true := by
      have hnot : ¬ (Double.cmp (.ofNat n) .one != .gt) = true := by
        rw [Double.cmp_ne_gt_iff, hcount.le_iff Double.isInt_one]
        omega
      rwa [bne, Bool.not_eq_true', Bool.not_eq_false] at hnot
    have hexponent : digitCount (.ofNat n) - 1 = (n - 1 : Nat) := by
      rw [digitCount_ofNat hmost]
      omega
    rw [smallestWithDigits, hgreater, Bool.or_true, if_pos rfl, hexponent]
    exact Double.isInt_tenPow (Double.fits_ten_pow.2 (by omega))

/-- The upper bound is the greatest number with the digits, rounded, as long as the power of ten
above it is a double. -/
theorem largestWithDigits_eq (hn : 1 ≤ n) (hmost : n ≤ 22) :
    largestWithDigits (.ofNat n) = .ofNat (10 ^ n - 1) := by
  have hpower := Double.isInt_tenPow (Double.fits_ten_pow.2 hmost)
  have hpos : 1 < 10 ^ n := Nat.one_lt_pow (by omega) (by decide)
  have hvalue : ((10 ^ n : Nat) : Int) - (1 : Nat) = (10 ^ n - 1 : Nat) := by omega
  rw [largestWithDigits, digitCount_ofNat (by omega), hpower.sub_eq Double.isInt_one (by omega),
    hvalue, Double.ofInt_natCast]

theorem isInt_largestWithDigits_iff (hn : 1 ≤ n) :
    (largestWithDigits (.ofNat n)).IsInt (10 ^ n - 1 : Nat) ↔ n ≤ 15 := by
  constructor
  · intro hint
    have hfits := hint.fits
    rwa [Int.natAbs_natCast, Double.fits_nines hn] at hfits
  · intro hmost
    rw [largestWithDigits_eq hn (by omega)]
    exact Double.isInt_ofNat ((Double.fits_nines hn).2 hmost)

end Counts

/-! ## Rules that count digits -/

/-- A count as it is written: digits, of which the first may be zeros. -/
structure Count where
  text : String
  value : Nat
  reads : Numeral.allDigits? text.toList = some value

namespace Count

variable (count : Count)

theorem not_mem {c : Char} (h : c.isDigit = false) : c ∉ count.text.toList := fun hc =>
  Bool.false_ne_true (h.symm.trans ((Numeral.allDigits?_eq_some count.reads).2.1 c hc))

/-- A count can be listed among the parameters of a rule. -/
theorem listable : Listable count.text where
  comma := count.not_mem (by decide)
  bar := count.not_mem (by decide)
  trimmed := by
    have hblank {c : Char} (hc : c ∈ count.text.toList) : Text.isBlank c = false :=
      Text.isBlank_of_isDigit ((Numeral.allDigits?_eq_some count.reads).2.1 c hc)
    have hfront : Text.dropBlanks count.text.toList = count.text.toList := by
      cases htext : count.text.toList with
      | nil => rfl
      | cons c rest => exact Text.dropBlanks_cons_of_not_blank (hblank (htext ▸ List.mem_cons_self))
    rw [Text.trim, Text.trimChars, hfront,
      Text.dropBlanksEnd_of_getLast? fun c hc => hblank (List.mem_of_getLast? hc),
      String.ofList_toList]

theorem text_ne_empty : count.text ≠ "" := by
  intro hempty
  have hreads := count.reads
  rw [hempty] at hreads
  cases hreads

end Count

/-- A rule that counts digits. -/
inductive DigitRule where
  | exactly (count : Count)
  | between (least most : Count)

namespace DigitRule

/-- The text of the rule. -/
def text : DigitRule → String
  | exactly count => "digits:" ++ count.text
  | between least most => "digits_between:" ++ least.text ++ "," ++ most.text

/-- The least number of digits. -/
def least : DigitRule → Nat
  | exactly count => count.value
  | between least _ => least.value

/-- The greatest number of digits. -/
def most : DigitRule → Nat
  | exactly count => count.value
  | between _ most => most.value

/-- The name of the rule. -/
def name : DigitRule → String
  | exactly _ => "digits"
  | between _ _ => "digits_between"

/-- The counts that the rule lists. -/
def counts : DigitRule → List Count
  | exactly count => [count]
  | between least most => [least, most]

/-- The rule as it is read. -/
def named (rule : DigitRule) : NamedRule :=
  ⟨rule.name, ",".intercalate (rule.counts.map Count.text)⟩

theorem isRuleName (rule : DigitRule) : IsRuleName rule.name := by
  cases rule with
  | exactly count =>
    show IsRuleName "digits"
    exact ⟨⟨'d', by decide⟩, by decide, by decide, by decide +kernel, fun _ => rfl⟩
  | between least most =>
    show IsRuleName "digits_between"
    exact ⟨⟨'d', by decide⟩, by decide, by decide, by decide +kernel, fun _ => rfl⟩

theorem listable (rule : DigitRule) : ∀ v ∈ rule.counts.map Count.text, Listable v := by
  intro v hv
  obtain ⟨count, -, rfl⟩ := List.mem_map.1 hv
  exact count.listable

theorem text_eq (rule : DigitRule) :
    rule.text = rule.name ++ ":" ++ ",".intercalate (rule.counts.map Count.text) := by
  cases rule with
  | exactly count => exact congrArg ("digits:" ++ ·) String.intercalate_singleton.symm
  | between least most =>
    show "digits_between:" ++ least.text ++ "," ++ most.text =
      "digits_between:" ++ ",".intercalate [least.text, most.text]
    -- the literals are not to be unfolded
    generalize "digits_between:" = front, "," = comma
    rw [String.intercalate_cons_cons, String.intercalate_singleton]
    simp only [String.append_assoc]

theorem splitRules_text (rule : DigitRule) : splitRules rule.text = [rule.named] := by
  rw [text_eq]
  exact splitRules_values rule.listable rule.isRuleName

/-- The counts are read back from the parameters. -/
theorem number_named (rule : DigitRule) (i : Nat) :
    rule.named.number i = rule.counts[i]?.map fun count => .ofNat count.value := by
  have hne : rule.counts.map Count.text ≠ [""] := by
    cases rule with
    | exactly count => exact fun h => count.text_ne_empty (List.head_eq_of_cons_eq h)
    | between least most => exact fun h => List.cons_ne_nil _ _ (List.tail_eq_of_cons_eq h)
  rw [NamedRule.number, named, params_values rule.listable _ hne, List.getElem?_map]
  cases rule.counts[i]? with
  | none => rfl
  | some count => exact Numeral.readDouble?_of_digits count.reads

/-- The rule determines the type and both bounds. -/
theorem facts_named (rule : DigitRule) :
    Facts.named {} rule.named =
      { base := some .integer
        minimum := some (smallestWithDigits (.ofNat rule.least))
        maximum := some (largestWithDigits (.ofNat rule.most)) } := by
  have hnumber := rule.number_named
  cases rule with
  | exactly count =>
    show Facts.withBase (Facts.withMaximum (Facts.withMinimum {} _) _) _ = _
    rw [hnumber 0]
    rfl
  | between least most =>
    show Facts.withBase (Facts.withMaximum (Facts.withMinimum {} _) _) _ = _
    rw [hnumber 0, hnumber 1]
    rfl

end DigitRule

/-- The integers between two bounds. -/
def integerBetween (low high : Double) : Ty :=
  .ofKind (.scalar { kind := .integer, minimum := some low, maximum := some high })

theorem leafType_digitRule (cx : Context) (key : String) (rule : DigitRule) :
    leafType cx key { tokens := [.text rule.text] } =
      pure (integerBetween (smallestWithDigits (.ofNat rule.least))
        (largestWithDigits (.ofNat rule.most)), false) := by
  rw [leafType_text, ← foldl_named_eq_slots, rule.splitRules_text, List.foldl_cons, List.foldl_nil,
    rule.facts_named]
  rfl

/-! ## What the bounds admit -/

/-- The digits of an integer without a sign are admitted. -/
def DigitRule.Admits (rule : DigitRule) (k : Int) : Prop :=
  ∃ n : Nat, k = n ∧ rule.least ≤ Numeral.width n ∧ Numeral.width n ≤ rule.most

section Bounds

variable {rule : DigitRule} (hleast : 1 ≤ rule.least) (hle : rule.least ≤ rule.most)
  {low high : Double}
include hleast hle

theorem DigitRule.admits_iff {k : Int} :
    rule.Admits k ↔ (Numeral.leastOfWidth rule.least : Int) ≤ k ∧
      k ≤ (10 ^ rule.most - 1 : Nat) := by
  have hpos : 0 < 10 ^ rule.most := Nat.pow_pos (by decide)
  constructor
  · rintro ⟨n, rfl, hlow, hhigh⟩
    rw [Numeral.le_width_iff hleast] at hlow
    rw [Numeral.width_le_iff (hleast.trans hle)] at hhigh
    omega
  · rintro ⟨hlow, hhigh⟩
    refine ⟨k.toNat, by omega, ?_, ?_⟩
    · rw [Numeral.le_width_iff hleast]
      omega
    · rw [Numeral.width_le_iff (hleast.trans hle)]
      omega

/-- Beyond fifteen digits no bounds admit the integers with the digits and no others. -/
theorem DigitRule.most_le_of_admits_iff
    (h : ∀ k : Int, low.AtMostInt k ∧ high.AtLeastInt k ↔ rule.Admits k) : rule.most ≤ 15 := by
  by_contra hmore
  have hpow : 10 ^ 16 ≤ 10 ^ rule.most := Nat.pow_le_pow_right (by decide) (by omega)
  have hadmits (k : Int) := (h k).trans (admits_iff hleast hle)
  have hbelow : Numeral.leastOfWidth rule.least ≤ 10 ^ rule.most - 1 := by
    have hwidth := (Numeral.isLeast_width hleast).1
    have hlt := (Numeral.width_le_iff (hleast.trans hle)).1 (hwidth.trans_le hle)
    omega
  obtain ⟨hlow, hhigh⟩ := (hadmits (10 ^ rule.most - 1 : Nat)).2 ⟨by omega, Int.le_refl _⟩
  -- the greatest number is odd, so that the upper bound admits the next one with it
  have hnext : high.AtLeastInt (10 ^ rule.most - 1 + 1 : Nat) :=
    hhigh.succ (Double.odd_nines (hleast.trans hle)) (by omega)
  have hlow' : low.AtMostInt (10 ^ rule.most - 1 + 1 : Nat) := hlow.of_le (by omega)
  have hbound := ((hadmits _).1 ⟨hlow', hnext⟩).2
  omega

end Bounds

/-- A rule that counts digits bounds an integer by the least and the greatest number with so many
digits: below by the least one exactly if this has at most 23 digits, above by the greatest one
exactly if this has at most 15, and by the double nearest to it up to 22. So the integers between
the bounds are those with an admitted number of digits if and only if at most 15 digits are
admitted. -/
theorem leafType_digits (cx : Context) (key : String) (rule : DigitRule) (hleast : 1 ≤ rule.least)
    (hle : rule.least ≤ rule.most) :
    ∃ low high : Double,
      leafType cx key { tokens := [.text rule.text] } = pure (integerBetween low high, false) ∧
      ((∃ v : Nat, IsLeast {n | Numeral.width n = rule.least} v ∧ low.IsInt v) ↔ rule.least ≤ 23) ∧
      ((∃ v : Nat, IsGreatest {n | Numeral.width n = rule.most} v ∧ high.IsInt v) ↔
        rule.most ≤ 15) ∧
      (rule.most ≤ 22 → high = .ofNat (10 ^ rule.most - 1)) ∧
      ((∀ k : Int, low.AtMostInt k ∧ high.AtLeastInt k ↔ rule.Admits k) ↔ rule.most ≤ 15) := by
  have hmost : 1 ≤ rule.most := hleast.trans hle
  have hminimum := Numeral.isLeast_width hleast
  have hmaximum := Numeral.isGreatest_width hmost
  refine ⟨_, _, leafType_digitRule cx key rule, ?_, ?_, largestWithDigits_eq hmost, ?_⟩
  · rw [← isInt_smallestWithDigits_iff hleast]
    constructor
    · rintro ⟨v, hv, hint⟩
      rwa [hv.unique hminimum] at hint
    · exact fun hint => ⟨_, hminimum, hint⟩
  · rw [← isInt_largestWithDigits_iff hmost]
    constructor
    · rintro ⟨v, hv, hint⟩
      rwa [hv.unique hmaximum] at hint
    · exact fun hint => ⟨_, hmaximum, hint⟩
  · refine ⟨DigitRule.most_le_of_admits_iff hleast hle, fun hfew k => ?_⟩
    have hlow := (isInt_smallestWithDigits_iff hleast).2 (by omega)
    have hhigh := (isInt_largestWithDigits_iff hmost).2 hfew
    rw [hlow.atMostInt_iff, hhigh.atLeastInt_iff, DigitRule.admits_iff hleast hle]

/-- From four to fifteen digits, the last count whose greatest number is a double. -/
def fourToFifteen : DigitRule := .between ⟨"4", 4, by decide⟩ ⟨"015", 15, by decide⟩

theorem leafType_digits_fourToFifteen :
    1 ≤ fourToFifteen.least ∧ fourToFifteen.least ≤ fourToFifteen.most ∧ ∃ low high : Double,
      leafType ⟨{}, {}⟩ "code" { tokens := [.text "digits_between:4,015"] } =
        pure (integerBetween low high, false) ∧
      low.IsInt 1000 ∧ high.IsInt 999999999999999 ∧
      ∀ k : Int, low.AtMostInt k ∧ high.AtLeastInt k ↔ fourToFifteen.Admits k := by
  refine ⟨by decide, by decide, ?_⟩
  obtain ⟨low, high, hleaf, hminimum, hmaximum, -, hadmits⟩ :=
    leafType_digits ⟨{}, {}⟩ "code" fourToFifteen (by decide) (by decide)
  obtain ⟨v, hv, hlow⟩ := hminimum.2 (by decide)
  obtain ⟨w, hw, hhigh⟩ := hmaximum.2 (by decide)
  rw [hv.unique (Numeral.isLeast_width (by decide))] at hlow
  rw [hw.unique (Numeral.isGreatest_width (by decide))] at hhigh
  exact ⟨low, high, hleaf, hlow, hhigh, hadmits.2 (by decide)⟩

/-- The greatest number with sixteen digits is no double, and the bound is the next number, which
has seventeen. -/
theorem leafType_digits_sixteen : ∃ low high : Double,
    leafType ⟨{}, {}⟩ "card" { tokens := [.text "digits:16"] } =
      pure (integerBetween low high, false) ∧
      high.IsInt 10000000000000000 ∧
      low.AtMostInt 10000000000000000 ∧ high.AtLeastInt 10000000000000000 ∧
      Numeral.width 9999999999999999 = 16 ∧ Numeral.width 10000000000000000 = 17 := by
  have hleaf := leafType_digitRule ⟨{}, {}⟩ "card" (.exactly ⟨"16", 16, by decide⟩)
  have hlow : (smallestWithDigits (.ofNat 16)).IsInt (Numeral.leastOfWidth 16) :=
    (isInt_smallestWithDigits_iff (by decide)).2 (by decide)
  have hhigh : (largestWithDigits (.ofNat 16)).IsInt 10000000000000000 := by
    rw [largestWithDigits_eq (by decide) (by decide)]
    decide +kernel
  exact ⟨_, _, hleaf, hhigh, hlow.atMostInt_iff.2 (by decide),
    hhigh.atLeastInt_iff.2 (Int.le_refl _), by decide +kernel, by decide +kernel⟩

end Rules

end QueryTypes
