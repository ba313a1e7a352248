import QueryTypes.Proofs.Forms.Leaves
import QueryTypes.Proofs.Merging
import QueryTypes.Proofs.Schemas.Validity

/-!
# Bounds in schemas

The bounds of a scalar type are doubles, and its schema writes them as numbers of a document: as an
integer where the double is an integer of 64 bits, as the double itself otherwise. So a finite bound
is written exactly, with one exception: `2 ^ 63` is no integer of 64 bits, but the range that is
tested ends there, and what is written is the greatest integer below it. What is not finite is
written as null (`schema_bound`).

The test compares doubles with the ends of the range. That this is a comparison of values rests on
the order of ranks being the order of units (`Double.rank_le_iff`), and on both ends being doubles.
-/

set_option autoImplicit false

namespace QueryTypes

/-! ## Doubles and integers -/

namespace Double

/-- The double is a finite one with the value of an integer. -/
def IsInt (x : Double) (n : Int) : Prop := x.isFinite = true ∧ x.signedUnits = n * unitsPerOne

instance (x : Double) (n : Int) : Decidable (x.IsInt n) :=
  inferInstanceAs (Decidable (x.isFinite = true ∧ x.signedUnits = n * unitsPerOne))

theorem unitsPerOne_pos : (0 : Int) < unitsPerOne := by decide +kernel

theorem isNaN_of_isFinite {x : Double} (h : x.isFinite = true) : x.isNaN = false := by
  simp only [isFinite, isNaN, decide_eq_true_eq, decide_eq_false_iff_not] at h ⊢
  omega

theorem isInfinite_of_isFinite {x : Double} (h : x.isFinite = true) : x.isInfinite = false := by
  simp only [isFinite, isInfinite, decide_eq_true_eq, beq_eq_false_iff_ne] at h ⊢
  omega

/-- The value of a finite double is told by its rank. -/
theorem unitsOfRank_rank {x : Double} (h : x.isFinite = true) :
    unitsOfRank x.rank = x.signedUnits := by
  rw [rank, isNaN_of_isFinite h, signedUnits, units]
  cases x.isNegative with
  | false =>
    show unitsOfRank (x.magnitude : Int) = _
    rw [unitsOfRank, if_neg (by omega), Int.natAbs_natCast]
    rfl
  | true =>
    show unitsOfRank (-(x.magnitude : Int)) = -(unitsOf x.magnitude : Int)
    rw [unitsOfRank, Int.natAbs_neg, Int.natAbs_natCast]
    split
    · rfl
    · -- the negative zero has the rank of zero
      have hzero : x.magnitude = 0 := by omega
      rw [hzero]
      decide

/-- Finite doubles have the order of their values. -/
theorem rank_le_iff {x y : Double} (hx : x.isFinite = true) (hy : y.isFinite = true) :
    x.rank ≤ y.rank ↔ x.signedUnits ≤ y.signedUnits := by
  rw [← unitsOfRank_rank hx, ← unitsOfRank_rank hy]
  constructor
  · exact unitsOfRank_mono
  · intro hle
    by_contra hnot
    exact absurd (unitsOfRank_lt (Int.not_le.1 hnot)) (Int.not_lt.2 hle)

theorem cmp_ne_gt_iff {x y : Double} : (Double.cmp x y != .gt) = true ↔ x.rank ≤ y.rank := by
  rw [bne_iff_ne, Double.cmp]
  exact Int.compare_ne_gt

namespace IsInt

variable {x y : Double} {m n : Int}

theorem le_iff (hx : x.IsInt m) (hy : y.IsInt n) : x.rank ≤ y.rank ↔ m ≤ n := by
  rw [rank_le_iff hx.1 hy.1, hx.2, hy.2]
  exact Int.mul_le_mul_iff_of_pos_right unitsPerOne_pos

theorem eq (hm : x.IsInt m) (hn : x.IsInt n) : m = n :=
  Int.le_antisymm ((hm.le_iff hn).1 (Int.le_refl _)) ((hn.le_iff hm).1 (Int.le_refl _))

theorem truncate_eq (h : x.IsInt n) : x.truncate = n := by
  rw [truncate, h.2]
  exact Int.mul_tdiv_cancel n (Int.ne_of_gt unitsPerOne_pos)

end IsInt

/-- A double without a fraction is its integer part. -/
theorem isIntegral_iff {x : Double} : x.isIntegral = true ↔ ∃ n, x.IsInt n := by
  have hsigned : x.signedUnits.natAbs = x.units := by
    rw [signedUnits]
    split
    · rw [Int.natAbs_neg, Int.natAbs_natCast]
    · rw [Int.natAbs_natCast]
  have hmod : (x.units % unitsPerOne == 0) = true ↔ (unitsPerOne : Int) ∣ x.signedUnits := by
    rw [beq_iff_eq, ← Nat.dvd_iff_mod_eq_zero, Int.ofNat_dvd_left, hsigned]
  rw [isIntegral, Bool.and_eq_true, hmod]
  constructor
  · rintro ⟨hfinite, n, hn⟩
    exact ⟨n, hfinite, hn.trans (Int.mul_comm _ n)⟩
  · rintro ⟨n, hfinite, hn⟩
    exact ⟨hfinite, n, hn.trans (Int.mul_comm n _)⟩

end Double

/-! ## Written bounds -/

namespace Bound

theorem isInt_least : (Double.ofInt least).IsInt least := by decide +kernel

theorem isInt_succ_greatest :
    (Double.ofInt (greatest + 1)).IsInt (greatest + 1) := by decide +kernel

/-- An integer between the ends is written as an integer, the upper end as the one before it. -/
theorem ofDouble_of_isInt {x : Double} {n : Int} (h : x.IsInt n) :
    ofDouble x = if least ≤ n ∧ n ≤ greatest + 1 then .int (min greatest n) else .double x := by
  have hintegral : x.isIntegral = true := Double.isIntegral_iff.2 ⟨n, h⟩
  have htest : (x.isIntegral && Double.cmp (.ofInt least) x != .gt &&
      Double.cmp x (.ofInt (greatest + 1)) != .gt) = true ↔ least ≤ n ∧ n ≤ greatest + 1 := by
    rw [Bool.and_eq_true, Bool.and_eq_true, Double.cmp_ne_gt_iff, Double.cmp_ne_gt_iff,
      isInt_least.le_iff h, h.le_iff isInt_succ_greatest]
    exact ⟨fun hand => ⟨hand.1.2, hand.2⟩, fun hand => ⟨⟨hintegral, hand.1⟩, hand.2⟩⟩
  rw [ofDouble]
  split
  · next hrange =>
    obtain ⟨hleast, hgreatest⟩ := htest.1 hrange
    have hclamp : x.clampToInt least greatest = max least (min greatest x.truncate) := by
      rw [Double.clampToInt, Double.isNaN_of_isFinite h.1, Double.isInfinite_of_isFinite h.1]
      rfl
    have hlow : least ≤ greatest := by decide
    rw [if_pos ⟨hleast, hgreatest⟩, hclamp, h.truncate_eq,
      Int.max_eq_right (Int.le_min.2 ⟨hlow, hleast⟩)]
  · next hrange => rw [if_neg fun hand => hrange (htest.2 hand)]

/-- What is no integer is written as it is. -/
theorem ofDouble_of_not_isInt {x : Double} (h : ∀ n, ¬ x.IsInt n) : ofDouble x = .double x := by
  have hintegral : x.isIntegral = false := by
    rw [Bool.eq_false_iff]
    exact fun htrue => (Double.isIntegral_iff.1 htrue).elim h
  rw [ofDouble, hintegral]
  rfl

/-- A document stands for a double: it is the integer where the double is an integer of 64 bits, and
the double itself where it is any other finite one. -/
inductive Exact (x : Double) : Json → Prop
  | integer {n : Int} : least ≤ n → n ≤ greatest → x.IsInt n → Exact x (.int n)
  | double : x.isFinite = true → (∀ n, least ≤ n → n ≤ greatest → ¬ x.IsInt n) → Exact x (.float x)

/-- What stands for a double has its value. -/
theorem Exact.units?_eq {x : Double} {j : Json} (h : Exact x j) :
    j.units? = some x.signedUnits := by
  cases h with
  | integer _ _ hint => rw [Json.units?, hint.2]
  | double hfinite _ => rw [Json.units?, if_pos hfinite]

/-- A finite double other than the upper end is written exactly. -/
theorem exact_toJson {x : Double} (hfinite : x.isFinite = true) (hend : ¬ x.IsInt (greatest + 1)) :
    Exact x (ofDouble x).toJson := by
  have hdouble : (Bound.double x).toJson = .float x := if_pos hfinite
  by_cases hint : ∃ n, x.IsInt n
  · obtain ⟨n, hn⟩ := hint
    have hne : n ≠ greatest + 1 := fun heq => hend (heq ▸ hn)
    rw [ofDouble_of_isInt hn]
    split
    · next hrange =>
      have hle : n ≤ greatest := by omega
      rw [Int.min_eq_right hle]
      exact .integer hrange.1 hle hn
    · next hrange =>
      rw [hdouble]
      refine .double hfinite fun m hleast hgreatest hm => hrange ?_
      rw [hn.eq hm]
      omega
  · have hnot : ∀ n, ¬ x.IsInt n := fun n hn => hint ⟨n, hn⟩
    rw [ofDouble_of_not_isInt hnot, hdouble]
    exact .double hfinite fun n _ _ => hnot n

/-- The upper end is written as the greatest integer of 64 bits. -/
theorem toJson_succ_greatest {x : Double} (h : x.IsInt (greatest + 1)) :
    (ofDouble x).toJson = .int greatest := by
  rw [ofDouble_of_isInt h, if_pos (by decide), Int.min_eq_left (by decide)]
  rfl

/-- What is not finite is written as null. -/
theorem toJson_of_not_isFinite {x : Double} (h : x.isFinite = false) :
    (ofDouble x).toJson = .null := by
  have hnot : ∀ n, ¬ x.IsInt n := fun n hn => Bool.false_ne_true (h.symm.trans hn.1)
  rw [ofDouble_of_not_isInt hnot, toJson, Json.ofDouble, h]
  rfl

end Bound

/-! ## Schemas of scalars -/

namespace Entries

theorem get?_memberOption {α : Type} (key name : String) (write : α → Json) (o : Option α) :
    get? (Json.memberOption key write o) name = if key = name then o.map write else none := by
  cases o with
  | none => simp [Json.memberOption]
  | some a => simp [Json.memberOption, get?_cons]

theorem get?_memberList_of_ne {α : Type} {key name : String} (h : key ≠ name) (write : α → Json)
    (as : List α) : get? (Json.memberList key write as) name = none := by
  cases as with
  | nil => rfl
  | cons a rest => simp [Json.memberList, get?_cons, h]

end Entries

/-- The bounds of a scalar type. -/
inductive Limit where
  | minimum
  | maximum

namespace Limit

/-- The keyword of a bound. -/
def keyword : Limit → String
  | .minimum => "minimum"
  | .maximum => "maximum"

/-- The bound of a scalar. -/
def ofScalar : Limit → Scalar → Option Double
  | .minimum, s => s.minimum
  | .maximum, s => s.maximum

/-- The bound of a type, if it is a scalar with this bound. -/
def of (limit : Limit) (t : Ty) : Option Double :=
  match t.kind with
  | .scalar s => limit.ofScalar s
  | _ => none

/-- A type with a bound is a scalar. -/
theorem of_eq_some {limit : Limit} {t : Ty} {x : Double} (h : limit.of t = some x) :
    ∃ s slot, t = .mk (.scalar s) slot ∧ limit.ofScalar s = some x := by
  obtain ⟨kind, slot⟩ := t
  cases kind with
  | scalar s => exact ⟨s, slot, rfl, h⟩
  | unknown | array | object | union => cases h

/-- The schema of a scalar has the bound under its keyword. -/
theorem get?_schema (limit : Limit) (s : Scalar) (slot : Slot) :
    (Ty.mk (.scalar s) slot).schema.toJson.get? limit.keyword =
      (limit.ofScalar s).map fun x => (Bound.ofDouble x).toJson := by
  rw [Ty.schema, Kind.form, Schema.ofScalar, Schema.toJson, Schema.formMembers, Json.get?]
  cases limit with
  | minimum =>
    simp [keyword, ofScalar, Entries.get?_append, Entries.get?_cons, Entries.get?_memberOption,
      Entries.get?_memberList_of_ne, Function.comp_def]
  | maximum =>
    simp [keyword, ofScalar, Entries.get?_append, Entries.get?_cons, Entries.get?_memberOption,
      Entries.get?_memberList_of_ne, Function.comp_def]

end Limit

/-- The document under the keyword of a bound in the schema of a type. -/
def Ty.writtenBound? (t : Ty) (limit : Limit) : Option Json := t.schema.toJson.get? limit.keyword

/-- The schema of a scalar writes each bound that is finite and not `2 ^ 63` exactly: as an integer
where it is an integer of 64 bits, as the double itself otherwise. In place of `2 ^ 63` it writes
the integer before it, and null for what is not finite. -/
theorem schema_bound (t : Ty) (limit : Limit) (x : Double) (h : limit.of t = some x) :
    ∃ j, t.writtenBound? limit = some j ∧
      (x.isFinite = true → ¬ x.IsInt (Bound.greatest + 1) → Bound.Exact x j ∧
        j.units? = some x.signedUnits) ∧
      (x.IsInt (Bound.greatest + 1) → j = .int Bound.greatest) ∧
      (x.isFinite = false → j = .null) := by
  obtain ⟨s, slot, rfl, hs⟩ := Limit.of_eq_some h
  refine ⟨_, ?_, ?_, Bound.toJson_succ_greatest, Bound.toJson_of_not_isFinite⟩
  · rw [Ty.writtenBound?, limit.get?_schema, hs, Option.map_some]
  · intro hfinite hend
    have hexact := Bound.exact_toJson hfinite hend
    exact ⟨hexact, hexact.units?_eq⟩

/-- The rules give the type to a field. -/
def Rules.Declare (rules : String) (t : Ty) : Prop :=
  ∃ confirmed, leafOf ⟨{}, {}⟩ "size" { tokens := [.text rules] } = .ok (t, confirmed)

/-- What the rules of a field are found to bound it by are the bounds of its type. -/
theorem Rules.exists_declare {rules : String} {x y : Double}
    (h : (leafOf ⟨{}, {}⟩ "size" { tokens := [.text rules] }).toOption.map
      (fun result => (Limit.minimum.of result.1, Limit.maximum.of result.1)) =
        some (some x, some y)) :
    ∃ t, Declare rules t ∧ Limit.minimum.of t = some x ∧ Limit.maximum.of t = some y := by
  rcases hleaf : leafOf ⟨{}, {}⟩ "size" { tokens := [.text rules] } with e | ⟨t, confirmed⟩
  · rw [hleaf] at h
    cases h
  · rw [hleaf] at h
    have hbounds := Prod.mk.inj (Option.some.inj h)
    exact ⟨t, ⟨confirmed, hleaf⟩, hbounds.1, hbounds.2⟩

/-- A fraction, and the greatest double below `2 ^ 63`. -/
theorem schema_bound_between : ∃ t x y i j,
    Rules.Declare "numeric|between:-0.5,9223372036854774784" t ∧
      Limit.minimum.of t = some x ∧ x.signedUnits * 2 = -Double.unitsPerOne ∧
      t.writtenBound? .minimum = some i ∧ i.units? = some x.signedUnits ∧
      Limit.maximum.of t = some y ∧ y.IsInt 9223372036854774784 ∧
      t.writtenBound? .maximum = some j ∧ j.units? = some y.signedUnits := by
  obtain ⟨t, hdeclare, hmin, hmax⟩ : ∃ t,
    Rules.Declare "numeric|between:-0.5,9223372036854774784" t ∧
      Limit.minimum.of t = some (.ofRatio true 1 2) ∧
      Limit.maximum.of t = some (.ofInt 9223372036854774784) :=
        Rules.exists_declare (by decide +kernel)
  obtain ⟨i, hi, hexact, -⟩ := schema_bound t .minimum _ hmin
  obtain ⟨j, hj, hexact', -⟩ := schema_bound t .maximum _ hmax
  exact ⟨t, _, _, i, j, hdeclare, hmin, by decide +kernel, hi,
    (hexact (by decide +kernel) (by decide +kernel)).2,
    hmax, by decide +kernel, hj, (hexact' (by decide +kernel) (by decide +kernel)).2⟩

/-- Rules can ask for at least `2 ^ 63`, of which the schema writes the integer before it, and for
at most infinity, of which it writes null. Neither is a number with the value of the bound. -/
theorem schema_bound_inexact : ∃ t x y,
    Rules.Declare "integer|min:9223372036854775808|max:inf" t ∧
      Limit.minimum.of t = some x ∧ x.IsInt 9223372036854775808 ∧
      t.writtenBound? .minimum = some (.int 9223372036854775807) ∧
      (Json.int 9223372036854775807).units? ≠ some x.signedUnits ∧
      Limit.maximum.of t = some y ∧ y = .infinity ∧ t.writtenBound? .maximum = some .null := by
  obtain ⟨t, hdeclare, hmin, hmax⟩ : ∃ t,
    Rules.Declare "integer|min:9223372036854775808|max:inf" t ∧
      Limit.minimum.of t = some (.ofInt 9223372036854775808) ∧
      Limit.maximum.of t = some .infinity := Rules.exists_declare (by decide +kernel)
  obtain ⟨s, slot, rfl, hs⟩ := Limit.of_eq_some hmin
  have hend : (Double.ofInt 9223372036854775808).IsInt (Bound.greatest + 1) := by decide +kernel
  refine ⟨_, _, _, hdeclare, hmin, hend, ?_, by decide +kernel, hmax, rfl, ?_⟩
  · rw [Ty.writtenBound?, Limit.get?_schema, hs, Option.map_some, Bound.toJson_succ_greatest hend]
    rfl
  · have hmaximum : Limit.maximum.ofScalar s = some .infinity := hmax
    rw [Ty.writtenBound?, Limit.get?_schema, hmaximum, Option.map_some,
      Bound.toJson_of_not_isFinite (by decide +kernel)]

end QueryTypes
