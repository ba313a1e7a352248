import Mathlib.Algebra.Ring.Parity
import Mathlib.Data.Nat.Factorization.Basic
import Mathlib.Tactic.Ring
import QueryTypes.Proofs.Schemas.Bounds

/-!
# Exact arithmetic of doubles

A finite double is a significand of at most 53 bits with zeros after it, and every number of units
of this form is a double (`Fits`, `fits_units`). Rounding changes no such number
(`isRounded_ofRatio`). So a product of integers is exact where it fits, and so is a power: every
product on the way to it divides it, and what divides a number that fits does so too (`Fits.of_dvd`,
`IsInt.powNatFrom`).

An odd number fits only below `2 ^ 53` (`Fits.lt_of_odd`). From there on every double is an even
integer (`even_of_le_units`), so that no upper bound admits an odd integer without the next one
(`AtLeastInt.succ`).
-/

set_option autoImplicit false

namespace QueryTypes.Double

/-! ## Significands -/

theorem unitsPerOne_eq : unitsPerOne = 2 ^ 1074 := by decide +kernel

theorem zero_lt_unitsPerOne : 0 < unitsPerOne := Int.natCast_pos.1 unitsPerOne_pos

/-- A number of units is the magnitude of a finite double: at most 53 bits, with zeros after
them. -/
def Fits (u : Nat) : Prop := ∃ s k, s < 2 ^ 53 ∧ k ≤ 2045 ∧ u = s * 2 ^ k

/-- The units of a magnitude that is put together from a significand and the number of zeros after
it. -/
theorem unitsOf_significand {s k : Nat} (hs : s < 2 ^ 53) (hnormal : k = 0 ∨ 2 ^ 52 ≤ s) :
    unitsOf (s + k * exponentBit) = s * 2 ^ k := by
  simp only [unitsOf, exponentBit, Nat.shiftLeft_eq]
  by_cases hsmall : s < 2 ^ 52
  · -- only the least exponent has significands without the leading one
    have hzero : k = 0 := by omega
    subst hzero
    rw [if_pos (by omega)]
    omega
  · have hexponent : (s + k * 0x10000000000000) / 0x10000000000000 = k + 1 := by omega
    have hfraction : 0x10000000000000 + (s + k * 0x10000000000000) % 0x10000000000000 =
        s := by omega
    rw [hexponent, hfraction, if_neg (Nat.succ_ne_zero k), Nat.add_sub_cancel]

/-- The magnitude of every finite double fits. -/
theorem fits_units {x : Double} (h : x.isFinite = true) : Fits x.units := by
  have hfinite : x.magnitude < 0x7FF0000000000000 := of_decide_eq_true h
  simp only [units, unitsOf, exponentBit, Nat.shiftLeft_eq]
  split
  · exact ⟨x.magnitude % 0x10000000000000, 0, by omega, by omega, by omega⟩
  · exact ⟨_, _, by omega, by omega, rfl⟩

namespace Fits

/-- What divides a number that fits does so too. -/
theorem of_dvd {u d : Nat} (h : Fits u) (hu : u ≠ 0) (hd : d ∣ u) : Fits d := by
  obtain ⟨s, k, hs, hk, rfl⟩ := h
  unfold Fits
  generalize 2045 = last at hk ⊢
  have hspos : 0 < s := by
    rw [Nat.pos_iff_ne_zero]
    rintro rfl
    exact hu (Nat.zero_mul _)
  obtain ⟨i, t, ht, rfl⟩ := Nat.exists_eq_two_pow_mul_odd (ne_zero_of_dvd_ne_zero hu hd)
  -- the odd part of the divisor divides the significand
  have hcoprime : t.Coprime (2 ^ k) := (Nat.coprime_two_right.2 ht).pow_right k
  have hle : t ≤ s :=
    Nat.le_of_dvd hspos (hcoprime.dvd_of_dvd_mul_right ((Dvd.intro_left _ rfl).trans hd))
  by_cases hi : i ≤ last
  · exact ⟨t, i, by omega, hi, Nat.mul_comm _ _⟩
  · -- zeros beyond the last exponent go into the significand
    have hsplit : 2 ^ i = 2 ^ (i - last) * 2 ^ last := by
      rw [← Nat.pow_add]
      congr 1
      omega
    have hlast : 2 ^ (i - last) * t * 2 ^ last ≤ s * 2 ^ last := by
      calc 2 ^ (i - last) * t * 2 ^ last = 2 ^ i * t := by rw [hsplit]; ring
        _ ≤ s * 2 ^ k := Nat.le_of_dvd (Nat.pos_of_ne_zero hu) hd
        _ ≤ s * 2 ^ last := Nat.mul_le_mul_left s (Nat.pow_le_pow_right (by decide) hk)
    have hbits : 2 ^ (i - last) * t ≤ s := Nat.le_of_mul_le_mul_right hlast (Nat.two_pow_pos last)
    exact ⟨2 ^ (i - last) * t, last, by omega, Nat.le_refl _, by rw [hsplit]; ring⟩

/-- An odd number that fits is a significand. -/
theorem lt_of_odd {u : Nat} (h : Fits u) (hodd : Odd u) : u < 2 ^ 53 := by
  obtain ⟨s, k, hs, -, rfl⟩ := h
  cases k with
  | zero => simpa using hs
  | succ k =>
    rw [Nat.pow_succ, ← Nat.mul_assoc] at hodd
    exact absurd hodd (Nat.not_odd_iff_even.2 (even_two.mul_left _))

/-- A number that fits is a significand with as many zeros after it as it has bits beyond 53. The
significand has its leading one, unless there are no such zeros. -/
theorem exists_normal {u : Nat} (h : Fits u) :
    ∃ w, w < 2 ^ 53 ∧ (u.log2 + 1 - 53 = 0 ∨ 2 ^ 52 ≤ w) ∧ u.log2 + 1 - 53 ≤ 2045 ∧
      u = w * 2 ^ (u.log2 + 1 - 53) := by
  obtain ⟨s, k, hs, hk, hsk⟩ := h
  by_cases hzero : u = 0
  · subst hzero
    exact ⟨0, by decide, .inl (by decide), by decide, (Nat.zero_mul _).symm⟩
  have hupper : u < 2 ^ (u.log2 + 1) := Nat.lt_log2_self
  have hlower : 2 ^ u.log2 ≤ u := Nat.log2_self_le hzero
  have hcut : u.log2 < 53 + k := by
    rw [Nat.log2_lt hzero, hsk, Nat.pow_add]
    exact Nat.mul_lt_mul_of_pos_right hs (Nat.two_pow_pos k)
  obtain ⟨w, hw⟩ : 2 ^ (u.log2 + 1 - 53) ∣ u := by
    rw [hsk] at hcut ⊢
    exact (Nat.pow_dvd_pow 2 (by omega)).mul_left s
  generalize hshift : u.log2 + 1 - 53 = shift at hw
  refine ⟨w, ?_, ?_, by omega, hw.trans (Nat.mul_comm _ _)⟩
  · have hlt : 2 ^ shift * w < 2 ^ shift * 2 ^ 53 := by
      rw [← hw, ← Nat.pow_add]
      exact Nat.lt_of_lt_of_le hupper (Nat.pow_le_pow_right (by decide) (by omega))
    exact Nat.lt_of_mul_lt_mul_left hlt
  · refine (Nat.eq_zero_or_pos shift).imp_right fun hpos => ?_
    have hle : 2 ^ shift * 2 ^ 52 ≤ 2 ^ shift * w := by
      rw [← hw, ← Nat.pow_add]
      exact Nat.le_trans (Nat.pow_le_pow_right (by decide) (by omega)) hlower
    exact Nat.le_of_mul_le_mul_left hle (Nat.two_pow_pos shift)

end Fits

/-- A double from `2 ^ 53` on is an even integer. -/
theorem even_of_le_units {x : Double} (h : x.isFinite = true)
    (hle : 2 ^ 53 * unitsPerOne ≤ x.units) : 2 * unitsPerOne ∣ x.units := by
  obtain ⟨s, k, hs, -, hunits⟩ := fits_units h
  rw [hunits, unitsPerOne_eq] at hle
  rw [hunits, unitsPerOne_eq]
  generalize 1074 = one at hle ⊢
  have hk : one < k := by
    by_contra hnot
    have hpow : 2 ^ k ≤ 2 ^ one := Nat.pow_le_pow_right (by decide) (Nat.not_lt.1 hnot)
    have hlt : s * 2 ^ k < 2 ^ 53 * 2 ^ one :=
      Nat.lt_of_le_of_lt (Nat.mul_le_mul_left s hpow)
        (Nat.mul_lt_mul_of_pos_right hs (Nat.two_pow_pos one))
    exact absurd hle (Nat.not_le.2 hlt)
  rw [← Nat.pow_succ']
  exact (Nat.pow_dvd_pow 2 hk).mul_left s

/-! ## Rounding -/

theorem magnitude_pack (negative : Bool) {m : Nat} (h : m < signBit) :
    (pack negative m).magnitude = m := by
  simp only [pack, magnitude, UInt64.toNat_ofNat', signBit] at *
  split <;> omega

theorem isNegative_pack (negative : Bool) {m : Nat} (h : m < signBit) :
    (pack negative m).isNegative = negative := by
  simp only [pack, isNegative, UInt64.toNat_ofNat', signBit] at *
  cases negative <;> simp <;> omega

theorem roundDiv_mul_left (q : Nat) {den : Nat} (h : 0 < den) : roundDiv (q * den) den = q := by
  rw [roundDiv, Nat.mul_div_cancel q h, Nat.mul_mod_left]
  simp
  omega

theorem roundDiv_mul_right (num den : Nat) {c : Nat} (h : 0 < c) :
    roundDiv (num * c) (den * c) = roundDiv num den := by
  have htwice : 2 * (num % den * c) = 2 * (num % den) * c := (Nat.mul_assoc ..).symm
  simp only [roundDiv, Nat.mul_div_mul_right num den h, Nat.mul_mod_mul_right, htwice,
    Nat.mul_lt_mul_right h, beq_eq_decide, Nat.mul_left_inj h.ne']

/-- Rounding depends on the value of a fraction only. -/
theorem ofRatio_mul_right (negative : Bool) (num den : Nat) {c : Nat} (h : 0 < c) :
    ofRatio negative (num * c) (den * c) = ofRatio negative num den := by
  have hscaled : num * c * unitsPerOne = num * unitsPerOne * c := Nat.mul_right_comm ..
  have hshift (k : Nat) : (den * c) <<< k = den <<< k * c := by
    rw [Nat.shiftLeft_eq, Nat.shiftLeft_eq, Nat.mul_right_comm]
  simp only [ofRatio, hscaled, Nat.mul_div_mul_right _ _ h, hshift, roundDiv_mul_right _ _ h]

/-- A finite double has the sign and the units. -/
structure IsRounded (x : Double) (negative : Bool) (u : Nat) : Prop where
  finite : x.isFinite = true
  sign : x.isNegative = negative
  units : x.units = u

theorem isRounded_pack (negative : Bool) {m : Nat} (h : m < infiniteMagnitude) :
    IsRounded (pack negative m) negative (unitsOf m) := by
  have hsign : m < signBit := Nat.lt_trans h (by decide)
  have hmagnitude := magnitude_pack negative hsign
  exact ⟨by simp [isFinite, hmagnitude, h], isNegative_pack negative hsign,
    by rw [units, hmagnitude]⟩

/-- Rounding changes no fraction that is a number of units that fits. -/
theorem isRounded_ofRatio (negative : Bool) {num den u : Nat} (hden : 0 < den)
    (hnum : num * unitsPerOne = u * den) (hu : Fits u) :
    IsRounded (ofRatio negative num den) negative u := by
  obtain ⟨w, hw, hnormal, hshift, hunits⟩ := hu.exists_normal
  generalize hcut : u.log2 + 1 - 53 = shift at hnormal hshift hunits
  -- what is cut off are zeros
  have hsignificand : roundDiv (u * den) (den <<< shift) = w := by
    rw [hunits, Nat.shiftLeft_eq, Nat.mul_assoc, Nat.mul_comm (2 ^ shift)]
    exact roundDiv_mul_left w (Nat.mul_pos hden (Nat.two_pow_pos shift))
  have hfinite : w + shift * exponentBit < infiniteMagnitude := by
    simp only [exponentBit, infiniteMagnitude]
    omega
  have hpack : ofRatio negative num den = pack negative (w + shift * exponentBit) := by
    simp only [ofRatio, hnum, Nat.mul_div_cancel u hden, hcut, hsignificand,
      Nat.min_eq_left (Nat.le_of_lt hfinite)]
  rw [hpack, hunits, ← unitsOf_significand hw hnormal]
  exact isRounded_pack negative hfinite

/-! ## Integers -/

/-- A number of units with a sign. -/
def signed (negative : Bool) (u : Nat) : Int := if negative then -(u : Int) else u

theorem signedUnits_eq (x : Double) : x.signedUnits = signed x.isNegative x.units := rfl

theorem natAbs_signed (negative : Bool) (u : Nat) : (signed negative u).natAbs = u := by
  cases negative <;> simp [signed]

theorem signed_bne_mul (p q : Bool) (u v : Nat) :
    signed (p != q) (u * v) = signed p u * signed q v := by
  cases p <;> cases q <;> simp [signed]

theorem IsRounded.isInt {x : Double} {negative : Bool} {n : Nat}
    (h : IsRounded x negative (n * unitsPerOne)) : x.IsInt (signed negative n) := by
  refine ⟨h.finite, ?_⟩
  rw [signedUnits_eq, h.sign, h.units]
  cases negative <;> simp [signed]

theorem ofInt_natCast (n : Nat) : ofInt n = ofNat n := by
  rw [ofInt, ofNat, decide_eq_false (by omega), Int.natAbs_natCast]

theorem isInt_ofNat {n : Nat} (h : Fits (n * unitsPerOne)) : (ofNat n).IsInt n :=
  (isRounded_ofRatio false Nat.one_pos (Nat.mul_one _).symm h).isInt

theorem isInt_one : one.IsInt (1 : Nat) := by decide +kernel

namespace IsInt

variable {x y : Double} {m n : Int}

/-- The integers that are doubles fit. -/
theorem fits (h : x.IsInt n) : Fits (n.natAbs * unitsPerOne) := by
  have hunits : x.units = n.natAbs * unitsPerOne := by
    rw [← natAbs_signed x.isNegative x.units, ← signedUnits_eq, h.2, Int.natAbs_mul,
      Int.natAbs_natCast]
  rw [← hunits]
  exact fits_units h.1

theorem neg (h : x.IsInt n) : x.neg.IsInt (-n) := by
  have hmagnitude : x.magnitude < infiniteMagnitude := by simpa [isFinite] using h.1
  have hpack := isRounded_pack (!x.isNegative) hmagnitude
  refine ⟨hpack.finite, ?_⟩
  have hvalue := h.2
  rw [Double.neg, signedUnits_eq, hpack.sign, hpack.units]
  rw [signedUnits_eq, units] at hvalue
  rw [Int.neg_mul, ← hvalue]
  cases x.isNegative <;> simp [signed]

/-- A sum other than zero is rounded once. -/
theorem add_eq (hx : x.IsInt m) (hy : y.IsInt n) (hne : m + n ≠ 0) : x.add y = ofInt (m + n) := by
  have hsum : x.signedUnits + y.signedUnits = (m + n) * unitsPerOne := by
    rw [hx.2, hy.2, Int.add_mul]
  have hsign : decide ((m + n) * (unitsPerOne : Int) < 0) = decide (m + n < 0) := by
    rw [decide_eq_decide, ← Int.zero_mul (unitsPerOne : Int), Int.mul_lt_mul_right unitsPerOne_pos,
      Int.zero_mul]
  rw [Double.add]
  simp only [isNaN_of_isFinite hx.1, isNaN_of_isFinite hy.1, isInfinite_of_isFinite hx.1,
    isInfinite_of_isFinite hy.1, Bool.or_false, Bool.false_eq_true, if_false, hsum]
  rw [if_neg (Int.mul_ne_zero hne (Int.ne_of_gt unitsPerOne_pos)), hsign, Int.natAbs_mul,
    Int.natAbs_natCast]
  have hcancel := ofRatio_mul_right (m + n < 0) (m + n).natAbs 1 zero_lt_unitsPerOne
  rw [Nat.one_mul] at hcancel
  exact hcancel

/-- A difference other than zero is rounded once. -/
theorem sub_eq (hx : x.IsInt m) (hy : y.IsInt n) (hne : m - n ≠ 0) : x.sub y = ofInt (m - n) := by
  rw [Int.sub_eq_add_neg] at hne ⊢
  exact hx.add_eq hy.neg hne

/-- A product that fits is exact. -/
theorem mul (hx : x.IsInt m) (hy : y.IsInt n) (hfits : Fits ((m * n).natAbs * unitsPerOne)) :
    (x.mul y).IsInt (m * n) := by
  have hvalue : signed (x.isNegative != y.isNegative) (x.units * y.units) =
      m * n * unitsPerOne * unitsPerOne := by
    rw [signed_bne_mul, ← signedUnits_eq, ← signedUnits_eq, hx.2, hy.2]
    ring
  have hunits : x.units * y.units = (m * n).natAbs * unitsPerOne * unitsPerOne := by
    rw [← natAbs_signed (x.isNegative != y.isNegative) (x.units * y.units), hvalue, Int.natAbs_mul,
      Int.natAbs_mul, Int.natAbs_natCast]
  have hnum : x.units * y.units * unitsPerOne =
      (m * n).natAbs * unitsPerOne * (unitsPerOne * unitsPerOne) := by
    rw [hunits]
    ring
  have hround := isRounded_ofRatio (x.isNegative != y.isNegative)
    (Nat.mul_pos zero_lt_unitsPerOne zero_lt_unitsPerOne) hnum hfits
  rw [Double.mul]
  simp only [isNaN_of_isFinite hx.1, isNaN_of_isFinite hy.1, isInfinite_of_isFinite hx.1,
    isInfinite_of_isFinite hy.1, Bool.or_false, Bool.false_eq_true, if_false]
  refine ⟨hround.finite, ?_⟩
  rw [signedUnits_eq, hround.sign, hround.units]
  refine Int.eq_of_mul_eq_mul_right (Int.ne_of_gt unitsPerOne_pos) ?_
  rw [← hvalue, hunits]
  cases x.isNegative != y.isNegative <;> simp [signed]

end IsInt

/-! ## Bounds -/

theorem isFinite_iff_rank {x : Double} :
    x.isFinite = true ↔ -(infiniteMagnitude : Int) < x.rank ∧ x.rank < infiniteMagnitude := by
  have hnan : (infiniteMagnitude : Int) < 0x10000000000000000 := by decide
  simp only [isFinite, rank, isNaN, decide_eq_true_eq]
  split
  · omega
  · split
    · omega
    · omega

namespace IsInt

variable {x : Double} {n : Int}

theorem atMostInt_iff (h : x.IsInt n) {k : Int} : x.AtMostInt k ↔ n ≤ k := by
  obtain ⟨hlow, hhigh⟩ := isFinite_iff_rank.1 h.1
  rw [AtMostInt, unitsOfRank_rank h.1, h.2, Int.mul_le_mul_iff_of_pos_right unitsPerOne_pos]
  exact ⟨fun hbound => hbound.2.resolve_left hlow.ne', fun hle => ⟨hhigh, .inr hle⟩⟩

theorem atLeastInt_iff (h : x.IsInt n) {k : Int} : x.AtLeastInt k ↔ k ≤ n := by
  obtain ⟨hlow, hhigh⟩ := isFinite_iff_rank.1 h.1
  rw [AtLeastInt, unitsOfRank_rank h.1, h.2, Int.mul_le_mul_iff_of_pos_right unitsPerOne_pos]
  exact ⟨fun hbound => (hbound.resolve_left (Int.not_le.2 hhigh)).2,
    fun hle => .inr ⟨hlow.ne', hle⟩⟩

end IsInt

theorem AtMostInt.of_le {x : Double} {m n : Int} (h : x.AtMostInt m) (hle : m ≤ n) :
    x.AtMostInt n := by
  refine ⟨h.1, h.2.imp_right fun hunits => Int.le_trans hunits ?_⟩
  exact Int.mul_le_mul_of_nonneg_right hle (Int.le_of_lt unitsPerOne_pos)

/-- From `2 ^ 53` on no upper bound ends at an odd number: what is at least such a number is at
least the next. -/
theorem AtLeastInt.succ {x : Double} {n : Nat} (h : x.AtLeastInt n) (hodd : Odd n)
    (hn : 2 ^ 53 ≤ n) : x.AtLeastInt (n + 1 : Nat) := by
  by_cases hinfinite : infiniteMagnitude ≤ x.rank
  · exact .inl hinfinite
  obtain ⟨hne, hle⟩ := h.resolve_left hinfinite
  have hlow := neg_infiniteMagnitude_le_rank x
  have hfinite : x.isFinite = true := isFinite_iff_rank.2 ⟨by omega, by omega⟩
  refine .inr ⟨hne, ?_⟩
  rw [unitsOfRank_rank hfinite] at hle ⊢
  have hvalue : x.signedUnits = x.units := by
    rw [signedUnits_eq] at hle ⊢
    cases hsign : x.isNegative with
    | false => rfl
    | true =>
      have hpos : (0 : Int) ≤ n * unitsPerOne :=
        Int.mul_nonneg (Int.natCast_nonneg n) (Int.natCast_nonneg _)
      rw [hsign, signed, if_pos rfl] at hle
      rw [signed, if_pos rfl]
      omega
  rw [hvalue] at hle ⊢
  obtain ⟨q, hq⟩ : 2 * unitsPerOne ∣ x.units :=
    even_of_le_units hfinite (Nat.le_trans (Nat.mul_le_mul_right _ hn) (by exact_mod_cast hle))
  rw [Nat.mul_right_comm] at hq
  rw [hq] at hle ⊢
  have heven : n ≤ 2 * q := Nat.le_of_mul_le_mul_right (by exact_mod_cast hle) zero_lt_unitsPerOne
  have hnext : n + 1 ≤ 2 * q := by
    obtain ⟨r, rfl⟩ := hodd
    omega
  exact_mod_cast Nat.mul_le_mul_right unitsPerOne hnext

/-! ## Powers -/

/-- A power that fits is exact, since every product on the way to it divides it. -/
theorem IsInt.powNatFrom {acc base : Double} {a b n : Nat} (hacc : acc.IsInt a)
    (hbase : base.IsInt b) (hfits : Fits (a * b ^ n * unitsPerOne))
    (hne : a * b ^ n * unitsPerOne ≠ 0) :
    (powNatFrom acc base n).IsInt (a * b ^ n : Nat) := by
  induction n using Nat.strongRecOn generalizing acc base a b with
  | ind n ih =>
    have hdivisor {d : Nat} (hd : d ∣ a * b ^ n) : Fits (d * unitsPerOne) :=
      hfits.of_dvd hne (Nat.mul_dvd_mul_right hd _)
    have hsplit : a * b ^ (n % 2) * (b * b) ^ (n / 2) = a * b ^ n := by
      rw [← Nat.pow_two, ← Nat.pow_mul, Nat.mul_assoc, ← Nat.pow_add, Nat.mod_add_div]
    have hstep : (if n % 2 = 1 then acc.mul base else acc).IsInt (a * b ^ (n % 2) : Nat) := by
      split
      · next hodd =>
        rw [hodd, Nat.pow_one]
        refine hacc.mul hbase (hdivisor (Nat.mul_dvd_mul_left a (dvd_pow_self b ?_)))
        omega
      · next heven =>
        rw [show n % 2 = 0 by omega, Nat.pow_zero, Nat.mul_one]
        exact hacc
    rw [Double.powNatFrom]
    split
    · next hlast =>
      rw [← hsplit, hlast, Nat.pow_zero, Nat.mul_one]
      exact hstep
    · next hmore =>
      have hsquare : b * b ∣ a * b ^ n := by
        rw [← hsplit]
        exact (dvd_pow_self (b * b) hmore).mul_left _
      rw [← hsplit] at hfits hne ⊢
      exact ih (n / 2) (by omega) hstep (hbase.mul hbase (hdivisor hsquare)) hfits hne

/-- The powers of ten that fit are exact. -/
theorem isInt_tenPow {n : Nat} (h : Fits (10 ^ n * unitsPerOne)) :
    (tenPow n).IsInt (10 ^ n : Nat) := by
  have hten : ten.IsInt (10 : Nat) := by decide +kernel
  have hne : 1 * 10 ^ n * unitsPerOne ≠ 0 := by
    rw [Nat.one_mul]
    exact Nat.mul_ne_zero (pow_ne_zero n (by decide)) zero_lt_unitsPerOne.ne'
  have hpower := isInt_one.powNatFrom hten (n := n) (by rwa [Nat.one_mul]) hne
  rw [Nat.one_mul] at hpower
  rw [tenPow, if_neg (by omega)]
  exact hpower

end QueryTypes.Double
