import QueryTypes.Proofs.Narrowing
import QueryTypes.Proofs.Reading
import QueryTypes.Ty.Merge

/-!
# Merged types lose no values

Merging two types describes the values of both (`Ty.accepts_merge`), and a merge that goes deeper is
narrower (`Ty.narrows_merge`). Together with what a merge requires of a place this is
`Ty.merge_between`.

One level of a merge (`Ty.mergeStep`) takes the way in which entries are joined as a parameter, so
both facts are proved for a single level, from the same fact about the entries, and then by
induction on the depth. At the last level everything is unknown, which accepts every value.

Scalars of one kind are joined part by part. That a bound may be replaced by a wider one rests on
the order of doubles alone (`Double.BoundsBelow.mono`), also where the value is an integer.
-/

set_option autoImplicit false

namespace QueryTypes

/-! ## Wider bounds -/

namespace Double

theorem unitsOf_lt_succ (m : Nat) : unitsOf m < unitsOf (m + 1) := by
  simp only [unitsOf, exponentBit, Nat.shiftLeft_eq]
  by_cases hcarry : m % 0x10000000000000 = 0xFFFFFFFFFFFFF
  · -- the significand overflows into the exponent, which doubles what a digit stands for
    have hexponent : (m + 1) / 0x10000000000000 = m / 0x10000000000000 + 1 := by omega
    have hfraction : (m + 1) % 0x10000000000000 = 0 := by omega
    rw [hexponent, hfraction, hcarry, if_neg (Nat.succ_ne_zero _), Nat.add_sub_cancel]
    split
    · next hzero => rw [hzero]; decide
    · next hpositive =>
      have hpow : 2 ^ (m / 0x10000000000000) = 2 * 2 ^ (m / 0x10000000000000 - 1) := by
        rw [← Nat.pow_succ']
        congr 1
        omega
      have hone : 0 < 2 ^ (m / 0x10000000000000 - 1) := Nat.two_pow_pos _
      rw [hpow]
      omega
  · have hexponent : (m + 1) / 0x10000000000000 = m / 0x10000000000000 := by omega
    have hfraction : (m + 1) % 0x10000000000000 = m % 0x10000000000000 + 1 := by omega
    rw [hexponent, hfraction]
    split
    · omega
    · exact Nat.mul_lt_mul_of_pos_right (by omega) (Nat.two_pow_pos _)

/-- A greater magnitude stands for more units. -/
theorem unitsOf_lt {m n : Nat} (h : m < n) : unitsOf m < unitsOf n := by
  induction h with
  | refl => exact unitsOf_lt_succ m
  | step _ ih => exact Nat.lt_trans ih (unitsOf_lt_succ _)

theorem unitsOfRank_lt {r r' : Int} (h : r < r') : unitsOfRank r < unitsOfRank r' := by
  have hnonneg (m : Nat) : (0 : Int) ≤ unitsOf m := Int.natCast_nonneg _
  rw [unitsOfRank, unitsOfRank]
  split
  · split
    · -- below zero the order of magnitudes is turned round
      have hlt : unitsOf r'.natAbs < unitsOf r.natAbs := unitsOf_lt (by omega)
      omega
    · have hpositive : unitsOf 0 < unitsOf r.natAbs := unitsOf_lt (by omega)
      have := hnonneg r'.natAbs
      omega
  · rw [if_neg (by omega)]
    have hlt : unitsOf r.natAbs < unitsOf r'.natAbs := unitsOf_lt (by omega)
    omega

theorem unitsOfRank_mono {r r' : Int} (h : r ≤ r') : unitsOfRank r ≤ unitsOfRank r' := by
  rcases Int.lt_or_eq_of_le h with hlt | rfl
  · exact Int.le_of_lt (unitsOfRank_lt hlt)
  · exact Int.le_refl _

/-- Nothing is below negative infinity. -/
theorem neg_infiniteMagnitude_le_rank (x : Double) : -(infiniteMagnitude : Int) ≤ x.rank := by
  unfold rank
  split
  · decide
  · next hnumber =>
    have hmagnitude : x.magnitude ≤ infiniteMagnitude := by simpa [isNaN] using hnumber
    split
    · omega
    · omega

theorem AtMostInt.mono {x y : Double} {n : Int} (hxy : x.rank ≤ y.rank) (h : y.AtMostInt n) :
    x.AtMostInt n := by
  have hleast := neg_infiniteMagnitude_le_rank x
  obtain ⟨hfinite, hunits⟩ := h
  refine ⟨by omega, ?_⟩
  rcases hunits with hleft | hunits
  · exact .inl (by omega)
  · exact .inr (Int.le_trans (unitsOfRank_mono hxy) hunits)

theorem AtLeastInt.mono {x y : Double} {n : Int} (hxy : x.rank ≤ y.rank) (h : x.AtLeastInt n) :
    y.AtLeastInt n := by
  have hleast := neg_infiniteMagnitude_le_rank x
  rcases h with hinfinite | ⟨hne, hunits⟩
  · exact .inl (by omega)
  · exact .inr ⟨by omega, Int.le_trans hunits (unitsOfRank_mono hxy)⟩

/-- A smaller lower bound holds of more values. -/
theorem BoundsBelow.mono {x y : Double} {v : Value} (hxy : x.rank ≤ y.rank) (h : y.BoundsBelow v) :
    x.BoundsBelow v := by
  cases v with
  | literal l => cases l with
    | int n => exact AtMostInt.mono hxy h
    | float z => exact Int.le_trans hxy h
    | bool | str => trivial
  | null | record => trivial

/-- A greater upper bound holds of more values. -/
theorem BoundsAbove.mono {x y : Double} {v : Value} (hxy : x.rank ≤ y.rank) (h : x.BoundsAbove v) :
    y.BoundsAbove v := by
  cases v with
  | literal l => cases l with
    | int n => exact AtLeastInt.mono hxy h
    | float z => exact Int.le_trans h hxy
    | bool | str => trivial
  | null | record => trivial

end Double

/-! ## Larger sets -/

namespace SortedSet

variable {α : Type} {cmp : α → α → Ordering} [Std.TransCmp cmp]

theorem any_insertList {a c : α} {xs : List α}
    (h : cmp c a = .eq ∨ xs.any (fun b => cmp c b == .eq) = true) :
    (insertList cmp true a xs).any (fun b => cmp c b == .eq) = true := by
  induction xs with
  | nil => simpa [insertList] using h
  | cons b rest ih =>
    simp only [List.any_cons, Bool.or_eq_true, beq_iff_eq] at h
    rw [insertList]
    split
    · simpa only [List.any_cons, Bool.or_eq_true, beq_iff_eq] using h
    · -- the element is dropped for one that compares as equal
      next hab =>
      simp only [if_true, List.any_cons, Bool.or_eq_true, beq_iff_eq]
      rcases h with h | h
      · exact .inl (Std.TransCmp.eq_trans h hab)
      · exact h
    · simp only [List.any_cons, Bool.or_eq_true, beq_iff_eq]
      rcases h with h | h | h
      · exact .inr (ih (.inl h))
      · exact .inl h
      · exact .inr (ih (.inr h))

theorem contains_insert {s : SortedSet α cmp} {a c : α} (h : cmp c a = .eq ∨ s.contains c = true) :
    (s.insert a).contains c = true :=
  any_insertList h

/-- A union holds what one of the sets does. -/
theorem contains_union {s t : SortedSet α cmp} {c : α}
    (h : s.contains c = true ∨ t.contains c = true) : (s.union t).contains c = true := by
  suffices key : ∀ xs : List α, ∀ s : SortedSet α cmp,
      s.contains c = true ∨ xs.any (fun b => cmp c b == .eq) = true →
      (xs.foldl insert s).contains c = true from key t.toList s h
  intro xs
  induction xs with
  | nil =>
    intro s h
    simpa using h
  | cons a rest ih =>
    intro s h
    simp only [List.any_cons, Bool.or_eq_true, beq_iff_eq] at h
    apply ih
    rcases h with h | h | h
    · exact .inl (contains_insert (.inr h))
    · exact .inl (contains_insert (.inl h))
    · exact .inr h

end SortedSet

/-! ## Joined scalars -/

namespace Scalar

theorem joinBound_eq_some {pick : Double → Double → Double} {x y : Option Double} {b : Double}
    (h : joinBound pick x y = some b) : ∃ c d, x = some c ∧ y = some d ∧ pick c d = b := by
  cases x with
  | none => simp [joinBound] at h
  | some c => cases y with
    | none => simp [joinBound] at h
    | some d => exact ⟨c, d, rfl, rfl, Option.some.inj h⟩

variable {F : Facets} {v : Value}

/-- The join of two scalar types of one kind accepts what one of them does. -/
theorem accepts_join {s t : Scalar} (hkind : s.kind = t.kind)
    (h : s.Accepts F v ∨ t.Accepts F v) : (s.join t).Accepts F v := by
  refine ⟨?_, ?_, ?_, ?_, ?_, ?_⟩
  · rcases h with h | h
    · exact h.kind
    · exact hkind ▸ h.kind
  · -- the join is narrowed to literals only if both types are
    intro hne
    rw [join] at hne ⊢
    dsimp only at hne ⊢
    split at hne
    · simp [SortedSet.isEmpty, SortedSet.empty] at hne
    · next hboth =>
      rw [if_neg hboth]
      simp only [Bool.or_eq_true, not_or, Bool.not_eq_true] at hboth
      rcases h with h | h
      · obtain ⟨l, hl, hmem⟩ := h.literals hboth.1
        exact ⟨l, hl, SortedSet.contains_union (.inl hmem)⟩
      · obtain ⟨l, hl, hmem⟩ := h.literals hboth.2
        exact ⟨l, hl, SortedSet.contains_union (.inr hmem)⟩
  · intro f hf
    obtain ⟨hformat, hs⟩ : s.format = t.format ∧ s.format = some f := by simpa [join] using hf
    rcases h with h | h
    · exact h.format f hs
    · exact h.format f (hformat ▸ hs)
  · intro p hp
    obtain ⟨hpattern, hs⟩ : s.pattern = t.pattern ∧ s.pattern = some p := by simpa [join] using hp
    rcases h with h | h
    · exact h.pattern p hs
    · exact h.pattern p (hpattern ▸ hs)
  · intro b hb
    obtain ⟨c, d, hc, hd, rfl⟩ := joinBound_eq_some hb
    have hrank := Double.rank_min c d
    rcases h with h | h
    · exact (h.minimum c hc).mono (by omega)
    · exact (h.minimum d hd).mono (by omega)
  · intro b hb
    obtain ⟨c, d, hc, hd, rfl⟩ := joinBound_eq_some hb
    have hrank := Double.rank_max c d
    rcases h with h | h
    · exact (h.maximum c hc).mono (by omega)
    · exact (h.maximum d hd).mono (by omega)

end Scalar

/-! ## Merged shapes -/

namespace Entries

variable {α β : Type}

theorem get?_append (es es' : Entries α) (name : String) :
    get? (es ++ es') name = (get? es name).or (get? es' name) := by
  induction es with
  | nil => rfl
  | cons e rest ih =>
    obtain ⟨k, a⟩ := e
    rw [List.cons_append, get?_cons, get?_cons, ih]
    split <;> rfl

theorem get?_map_named (f : String → α → β) (es : Entries α) (name : String) :
    get? (es.map fun e => (e.1, f e.1 e.2)) name = (get? es name).map (f name) := by
  induction es with
  | nil => rfl
  | cons e rest ih =>
    obtain ⟨k, a⟩ := e
    rw [List.map_cons, get?_cons, get?_cons, ih]
    by_cases hk : k = name
    · rw [if_pos hk, if_pos hk, hk, Option.map_some]
    · rw [if_neg hk, if_neg hk]

theorem get?_filter_named (p : String → Bool) (es : Entries α) (name : String) :
    get? (es.filter fun e => p e.1) name = if p name then get? es name else none := by
  induction es with
  | nil => simp
  | cons e rest ih =>
    obtain ⟨k, a⟩ := e
    rw [get?_cons, List.filter_cons]
    by_cases hk : k = name
    · subst hk
      cases hp : p k with
      | true => simp [get?_cons]
      | false => simpa [hp] using ih
    · rw [if_neg hk]
      cases p k with
      | true => simpa [get?_cons, hk] using ih
      | false => simpa using ih

end Entries

namespace Ty

/-- The types of two sides under one name, joined. A name that only one side has need not be
there. -/
def mergeSides (join : Ty → Ty → Ty) : Option Ty → Option Ty → Option Ty
  | some a, some b => some (join a b)
  | some a, none => some (a.withRequired false)
  | none, some b => some (b.withRequired false)
  | none, none => none

section Shapes

variable {join : Ty → Ty → Ty} {as bs : Entries Ty}

/-- A name of the left side joined with the right side. -/
theorem mergeShapes_eq : mergeShapes join as bs =
    as.map (fun e => (e.1, (mergeSides join (some e.2) (Entries.get? bs e.1)).getD unknown)) ++
      (bs.filter fun e => (Entries.get? as e.1).isNone).map fun e =>
        (e.1, e.2.withRequired false) := by
  rw [mergeShapes]
  congr 1
  apply List.map_congr_left
  intro e _
  cases Entries.get? bs e.1 <;> rfl

/-- A merged shape has under a name what the two sides have, joined. -/
theorem get?_mergeShapes (name : String) : Entries.get? (mergeShapes join as bs) name =
    mergeSides join (Entries.get? as name) (Entries.get? bs name) := by
  have hleft := Entries.get?_map_named
    (fun name t => (mergeSides join (some t) (Entries.get? bs name)).getD unknown) as name
  have hright := Entries.get?_map_named (fun _ t => Ty.withRequired t false)
    (bs.filter fun e => (Entries.get? as e.1).isNone) name
  have hfilter := Entries.get?_filter_named (fun name => (Entries.get? as name).isNone) bs name
  rw [mergeShapes_eq, Entries.get?_append, hleft, hright, hfilter]
  cases Entries.get? as name with
  | some a => cases Entries.get? bs name <;> rfl
  | none => cases Entries.get? bs name <;> rfl

/-- An entry that a merged shape requires is one that both sides have. -/
theorem exists_of_required_mergeShapes {e : String × Ty} (he : e ∈ mergeShapes join as bs)
    (hrequired : e.2.required = true) :
    ∃ a b, (e.1, a) ∈ as ∧ Entries.get? bs e.1 = some b ∧ e.2 = join a b := by
  rw [mergeShapes_eq] at he
  rcases List.mem_append.1 he with he | he
  · obtain ⟨⟨name, a⟩, ha, rfl⟩ := List.mem_map.1 he
    cases hb : Entries.get? bs name with
    | some b => exact ⟨a, b, ha, rfl, rfl⟩
    | none =>
      simp only [hb] at hrequired
      exact absurd hrequired Bool.false_ne_true
  · obtain ⟨⟨name, b⟩, -, rfl⟩ := List.mem_map.1 he
    exact absurd hrequired Bool.false_ne_true

/-- A merged shape accepts what one of the shapes does, if the join of two types does and requires
nothing that one of them does not. -/
theorem accepts_mergeShapes {F : Facets} {v : Value} {item key item' key' : Option Ty}
    {oa ob origin : Option String} {sa sb slot : Slot}
    (hjoin : ∀ name a b, (name, a) ∈ as → Entries.get? bs name = some b → ∀ v,
      a.Accepts F v ∨ b.Accepts F v → (join a b).Accepts F v)
    (hrequired : ∀ a b, (join a b).required = true → a.required = true ∧ b.required = true)
    (h : (Ty.mk (.array item key (some as) oa) sa).Accepts F v ∨
      (Ty.mk (.array item' key' (some bs) ob) sb).Accepts F v) :
    (Ty.mk (.array none none (some (mergeShapes join as bs)) origin) slot).Accepts F v := by
  rcases h with h | h
  · obtain ⟨es, rfl, haccepts, hpresent⟩ := accepts_shape_iff.1 h
    refine accepts_shape_iff.2 ⟨es, rfl, ?_, ?_⟩
    · intro e he
      obtain ⟨a, ha, hv⟩ := haccepts e he
      rw [get?_mergeShapes, ha]
      cases hb : Entries.get? bs e.1 with
      | none => exact ⟨_, rfl, (accepts_withRequired a false).2 hv⟩
      | some b => exact ⟨_, rfl, hjoin _ a b (Entries.mem_of_get?_eq_some ha) hb e.2 (.inl hv)⟩
    · intro e he hreq
      obtain ⟨a, b, ha, -, heq⟩ := exists_of_required_mergeShapes he hreq
      exact hpresent (e.1, a) ha (hrequired a b (heq ▸ hreq)).1
  · obtain ⟨es, rfl, haccepts, hpresent⟩ := accepts_shape_iff.1 h
    refine accepts_shape_iff.2 ⟨es, rfl, ?_, ?_⟩
    · intro e he
      obtain ⟨b, hb, hv⟩ := haccepts e he
      rw [get?_mergeShapes, hb]
      cases ha : Entries.get? as e.1 with
      | none => exact ⟨_, rfl, (accepts_withRequired b false).2 hv⟩
      | some a => exact ⟨_, rfl, hjoin _ a b (Entries.mem_of_get?_eq_some ha) hb e.2 (.inr hv)⟩
    · intro e he hreq
      obtain ⟨a, b, -, hb, heq⟩ := exists_of_required_mergeShapes he hreq
      exact hpresent (e.1, b) (Entries.mem_of_get?_eq_some hb) (hrequired a b (heq ▸ hreq)).2

/-- A merged shape narrows with the join, if the narrower join requires as much. -/
theorem narrows_mergeShapes {join' : Ty → Ty → Ty} {origin : Option String} {slot : Slot}
    (h : ∀ name a b, (name, a) ∈ as → Entries.get? bs name = some b →
      (join' a b).Narrows (join a b))
    (hrequired : ∀ a b, (join a b).required = true → (join' a b).required = true) :
    (Ty.mk (.array none none (some (mergeShapes join' as bs)) origin) slot).Narrows
      (Ty.mk (.array none none (some (mergeShapes join as bs)) origin) slot) := by
  intro F v hv
  obtain ⟨es, rfl, haccepts, hpresent⟩ := accepts_shape_iff.1 hv
  refine accepts_shape_iff.2 ⟨es, rfl, ?_, ?_⟩
  · intro e he
    obtain ⟨t, ht, hv⟩ := haccepts e he
    rw [get?_mergeShapes] at ht ⊢
    cases ha : Entries.get? as e.1 with
    | none =>
      -- a name of the right side alone does not depend on the join
      rw [ha] at ht
      cases hb : Entries.get? bs e.1 with
      | none => simp [hb, mergeSides] at ht
      | some b =>
        rw [hb] at ht
        exact ⟨t, ht, hv⟩
    | some a =>
      rw [ha] at ht
      cases hb : Entries.get? bs e.1 with
      | none =>
        rw [hb] at ht
        exact ⟨t, ht, hv⟩
      | some b =>
        rw [hb] at ht
        cases ht
        exact ⟨_, rfl, h _ a b (Entries.mem_of_get?_eq_some ha) hb F e.2 hv⟩
  · intro e he hreq
    obtain ⟨a, b, ha, hb, heq⟩ := exists_of_required_mergeShapes he hreq
    -- the same entry of the other merged shape
    have hother : (e.1, join' a b) ∈ mergeShapes join' as bs := by
      rw [mergeShapes_eq]
      refine List.mem_append_left _ (List.mem_map.2 ⟨(e.1, a), ha, ?_⟩)
      simp only [hb]
      rfl
    exact hpresent (e.1, join' a b) hother (hrequired a b (heq ▸ hreq))

end Shapes

/-! ## One level of a merge -/

/-- Merge two types, joining the entries of shapes in a given way. -/
def mergeStep (join : Ty → Ty → Ty) (a b : Ty) : Ty :=
  if a.same b then a
  else
    let separate := (union [a, b]).withRequired (a.required && b.required)
    match a.kind, b.kind with
    | .array _ _ (some as) oa, .array _ _ (some bs) ob =>
      .mk (.array none none (some (mergeShapes join as bs)) (if oa = ob then oa else none))
        (mergeSlots a.slot b.slot)
    | .scalar s, .scalar t =>
      if s.kind = t.kind then .mk (.scalar (s.join t)) (mergeSlots a.slot b.slot) else separate
    | _, _ => separate

theorem merge_succ (depth : Nat) (a b : Ty) :
    merge (depth + 1) a b = mergeStep (merge depth) a b := rfl

/-- What one level of a merge can give: one of two equal types, a merged shape, a joined scalar, or
the union of both types. -/
@[elab_as_elim]
theorem mergeStep_cases {motive : Ty → Prop} {join : Ty → Ty → Ty} {a b : Ty}
    (same : a.same b = true → motive a)
    (shapes : ∀ {item key item' key' : Option Ty} {as bs : Entries Ty} {oa ob : Option String},
      a.kind = .array item key (some as) oa → b.kind = .array item' key' (some bs) ob →
      motive (.mk (.array none none (some (mergeShapes join as bs)) (if oa = ob then oa else none))
        (mergeSlots a.slot b.slot)))
    (scalars : ∀ {s t : Scalar}, a.kind = .scalar s → b.kind = .scalar t → s.kind = t.kind →
      motive (.mk (.scalar (s.join t)) (mergeSlots a.slot b.slot)))
    (separate : motive ((union [a, b]).withRequired (a.required && b.required))) :
    motive (mergeStep join a b) := by
  rw [mergeStep]
  split
  · next hsame => exact same hsame
  · dsimp only
    split
    · next hakind hbkind => exact shapes hakind hbkind
    · next hakind hbkind =>
      split
      · next hkind => exact scalars hakind hbkind hkind
      · exact separate
    · exact separate

/-- A place is filled when both sides must be. -/
theorem required_mergeStep (join : Ty → Ty → Ty) (a b : Ty) :
    (mergeStep join a b).required = (a.required && b.required) := by
  refine mergeStep_cases ?_ ?_ ?_ ?_
  · intro hsame
    rw [← required_eq_of_same hsame, Bool.and_self]
  · intros
    rfl
  · intros
    rfl
  · rfl

/-- What a merge requires, both sides require. -/
theorem required_of_required_merge {depth : Nat} {a b : Ty}
    (h : (merge depth a b).required = true) : a.required = true ∧ b.required = true := by
  cases depth with
  | zero => exact absurd h Bool.false_ne_true
  | succ depth => rwa [merge_succ, required_mergeStep, Bool.and_eq_true] at h

/-- A deeper merge requires as much. -/
theorem required_merge_of_le {depth depth' : Nat} (hle : depth ≤ depth') {a b : Ty}
    (h : (merge depth a b).required = true) : (merge depth' a b).required = true := by
  cases depth' with
  | zero => rwa [Nat.le_zero.1 hle] at h
  | succ depth' =>
    rw [merge_succ, required_mergeStep, Bool.and_eq_true]
    exact required_of_required_merge h

/-! ## Merging loses nothing -/

/-- The entries of a well-keyed shape. -/
theorem WellKeyed.entries {t : Ty} (h : t.WellKeyed) {item key : Option Ty} {es : Entries Ty}
    {origin : Option String} (hkind : t.kind = .array item key (some es) origin) :
    Entries.Distinct es ∧ ∀ e ∈ es, e.2.WellKeyed := by
  cases h with
  | array _ _ _ _ hdistinct hentries =>
    cases hkind
    exact ⟨hdistinct es rfl, hentries es rfl⟩
  | _ => cases hkind

theorem WellKeyed.pair {a b : Ty} (ha : a.WellKeyed) (hb : b.WellKeyed) :
    ∀ t ∈ [a, b], t.WellKeyed :=
  List.forall_mem_cons.2 ⟨ha, List.forall_mem_singleton.2 hb⟩

section Step

variable {join : Ty → Ty → Ty} {a b : Ty}

/-- A level of a merge accepts what one of the types does, if the join of entries does. -/
theorem accepts_mergeStep {F : Facets} {v : Value} (ha : a.WellKeyed) (hb : b.WellKeyed)
    (hjoin : ∀ x y : Ty, x.WellKeyed → y.WellKeyed → ∀ v,
      x.Accepts F v ∨ y.Accepts F v → (join x y).Accepts F v)
    (hrequired : ∀ x y, (join x y).required = true → x.required = true ∧ y.required = true)
    (h : a.Accepts F v ∨ b.Accepts F v) : (mergeStep join a b).Accepts F v := by
  refine mergeStep_cases ?_ ?_ ?_ ?_
  · intro hsame
    rcases h with h | h
    · exact h
    · exact ha.covers b v hsame h
  · intro item key item' key' as bs oa ob hakind hbkind
    obtain ⟨ka, sa⟩ := a
    obtain ⟨kb, sb⟩ := b
    cases hakind
    cases hbkind
    refine accepts_mergeShapes ?_ hrequired h
    intro name x y hx hy
    exact hjoin x y ((ha.entries rfl).2 _ hx)
      ((hb.entries rfl).2 _ (Entries.mem_of_get?_eq_some hy))
  · intro s t hakind hbkind hkind
    obtain ⟨ka, sa⟩ := a
    obtain ⟨kb, sb⟩ := b
    cases hakind
    cases hbkind
    rw [accepts_scalar_iff, accepts_scalar_iff] at h
    exact accepts_scalar_iff.2 (Scalar.accepts_join hkind h)
  · rw [accepts_withRequired]
    rcases h with h | h
    · exact accepts_union_of_mem (ha.pair hb) List.mem_cons_self h
    · exact accepts_union_of_mem (ha.pair hb) (List.mem_cons_of_mem _ List.mem_cons_self) h

/-- A level of a merge narrows with the join of entries, if the narrower join requires as much. -/
theorem narrows_mergeStep {join' : Ty → Ty → Ty} (h : ∀ x y, (join' x y).Narrows (join x y))
    (hrequired : ∀ x y, (join x y).required = true → (join' x y).required = true) :
    (mergeStep join' a b).Narrows (mergeStep join a b) := by
  -- both levels take the same branch, so they are opened side by side
  rw [mergeStep, mergeStep]
  split
  · exact .refl a
  · dsimp only
    -- only shapes have entries to join
    split
    · exact narrows_mergeShapes (fun _ x y _ _ => h x y) hrequired
    · exact .refl _
    · exact .refl _

end Step

/-! ## Names stay distinct -/

theorem distinct_mergeShapes {join : Ty → Ty → Ty} {as bs : Entries Ty} (has : Entries.Distinct as)
    (hbs : Entries.Distinct bs) : Entries.Distinct (mergeShapes join as bs) := by
  have hkeys : Entries.keys (mergeShapes join as bs) =
      Entries.keys as ++ Entries.keys (bs.filter fun e => (Entries.get? as e.1).isNone) := by
    simp [mergeShapes, Entries.keys, Function.comp_def]
  rw [Entries.Distinct, hkeys, List.nodup_append]
  refine ⟨has, (List.filter_sublist.map Prod.fst).nodup hbs, ?_⟩
  rintro name hname other hother rfl
  -- what is added from the right is missing on the left
  obtain ⟨e, he, rfl⟩ := List.mem_map.1 hother
  have hnone : (Entries.get? as e.1).isNone = true := (List.mem_filter.1 he).2
  have hsome : (Entries.get? as e.1).isSome = true := (Entries.isSome_get?_iff as e.1).2 hname
  rw [Option.isNone_iff_eq_none] at hnone
  rw [hnone] at hsome
  exact absurd hsome Bool.false_ne_true

/-- What holds of the types of two shapes holds of those of the merged shape, if it does not depend
on whether a place must be filled and the join keeps it. -/
theorem forall_mem_mergeShapes {P : Ty → Prop} {join : Ty → Ty → Ty} {as bs : Entries Ty}
    (has : ∀ e ∈ as, P e.2) (hbs : ∀ e ∈ bs, P e.2)
    (hrequired : ∀ t : Ty, P t → P (t.withRequired false))
    (hjoin : ∀ x y, P x → P y → P (join x y)) : ∀ e ∈ mergeShapes join as bs, P e.2 := by
  intro e he
  rcases List.mem_append.1 he with he | he
  · obtain ⟨a, ha, rfl⟩ := List.mem_map.1 he
    cases hget : Entries.get? bs a.1 with
    | none => exact hrequired a.2 (has a ha)
    | some b => exact hjoin a.2 b (has a ha) (hbs _ (Entries.mem_of_get?_eq_some hget))
  · obtain ⟨b, hb, rfl⟩ := List.mem_map.1 he
    exact hrequired b.2 (hbs b (List.mem_of_mem_filter hb))

theorem WellKeyed.merge {a b : Ty} (ha : a.WellKeyed) (hb : b.WellKeyed) (depth : Nat) :
    (merge depth a b).WellKeyed := by
  induction depth generalizing a b with
  | zero => exact wellKeyed_unknown
  | succ depth ih =>
    rw [merge_succ]
    refine mergeStep_cases ?_ ?_ ?_ ?_
    · exact fun _ => ha
    · intro item key item' key' as bs oa ob hakind hbkind
      obtain ⟨has, haentries⟩ := ha.entries hakind
      obtain ⟨hbs, hbentries⟩ := hb.entries hbkind
      refine .array _ _ nofun nofun ?_ ?_
      · rintro es ⟨⟩
        exact distinct_mergeShapes has hbs
      · rintro es ⟨⟩
        exact forall_mem_mergeShapes haentries hbentries (fun _ ht => ht.withRequired false)
          fun x y hx hy => ih hx hy
    · exact fun _ _ _ => .scalar _ _
    · exact (wellKeyed_union (ha.pair hb)).withRequired _

/-! ## Merging to a depth -/

/-- A merge accepts what one of the types does. -/
theorem accepts_merge {F : Facets} {v : Value} {a b : Ty} (ha : a.WellKeyed) (hb : b.WellKeyed)
    (depth : Nat) (h : a.Accepts F v ∨ b.Accepts F v) : (merge depth a b).Accepts F v := by
  induction depth generalizing a b v with
  | zero => exact accepts_unknown v
  | succ depth ih =>
    rw [merge_succ]
    exact accepts_mergeStep ha hb (fun x y hx hy v hv => ih hx hy hv)
      (fun x y => required_of_required_merge) h

/-- A deeper merge is narrower. -/
theorem narrows_merge {depth depth' : Nat} (hle : depth ≤ depth') (a b : Ty) :
    (merge depth' a b).Narrows (merge depth a b) := by
  induction depth generalizing depth' a b with
  | zero => exact narrows_unknown _
  | succ depth ih =>
    cases depth' with
    | zero => exact absurd hle (Nat.not_succ_le_zero depth)
    | succ depth' =>
      have hle := Nat.le_of_succ_le_succ hle
      rw [merge_succ, merge_succ]
      exact narrows_mergeStep (fun x y => ih hle x y) fun x y => required_merge_of_le hle

/-- The types merged from left to right accept what one of them does. -/
theorem accepts_foldl_merge {F : Facets} {v : Value} {depth : Nat} {ts : List Ty} {t : Ty}
    (ht : t.WellKeyed) (hts : ∀ u ∈ ts, u.WellKeyed)
    (h : t.Accepts F v ∨ ∃ u ∈ ts, u.Accepts F v) : (ts.foldl (merge depth) t).Accepts F v := by
  induction ts generalizing t with
  | nil => exact h.resolve_right fun ⟨u, hu, _⟩ => List.not_mem_nil hu
  | cons b rest ih =>
    have hb := hts b List.mem_cons_self
    rw [List.foldl_cons]
    refine ih (ht.merge hb depth) (fun u hu => hts u (List.mem_cons_of_mem _ hu)) ?_
    rcases h with h | ⟨u, hu, h⟩
    · exact .inl (accepts_merge ht hb depth (.inl h))
    · rcases List.mem_cons.1 hu with rfl | hu
      · exact .inl (accepts_merge ht hb depth (.inr h))
      · exact .inr ⟨u, hu, h⟩

/-- A merge loses no values and only gets narrower with more depth: to a greater depth it still
accepts what either type does, and nothing that it does not accept to the smaller depth. It requires
a place to be filled only if both types do. -/
theorem merge_between (F : Facets) (a b : Ty) (ha : a.WellKeyed) (hb : b.WellKeyed)
    (depth depth' : Nat) (hle : depth ≤ depth') (v : Value) :
    (a.Accepts F v ∨ b.Accepts F v → (merge depth' a b).Accepts F v) ∧
      ((merge depth' a b).Accepts F v → (merge depth a b).Accepts F v) ∧
      ((merge depth a b).required = true → a.required = true ∧ b.required = true) :=
  ⟨accepts_merge ha hb depth', narrows_merge hle a b F v, required_of_required_merge⟩

/-- Shapes that share one name, under which each has a shape of its own. -/
theorem merge_between_nested :
    let F : Facets := ⟨fun _ _ => True, fun _ _ => True, fun _ => True⟩
    let left : Json := .obj [("id", .int 1), ("meta", .obj [("x", .str "u")])]
    let right : Json := .obj [("meta", .obj [("y", .bool true)])]
    let a := (ofJson left).withRequired true
    let b := (ofJson right).withRequired true
    let v := Value.ofJson left
    a.WellKeyed ∧ b.WellKeyed ∧ a.Accepts F v ∧ (merge 2 a b).Accepts F v ∧
      (merge 1 a b).Accepts F v ∧ (merge 1 a b).required = true ∧ a.required = true ∧
      b.required = true := by
  intro F left right a b v
  have hleft : left.IsValue := by
    refine .obj (by simp [Entries.Distinct, Entries.keys])
      (List.forall_mem_cons.2 ⟨.int 1 (by decide), ?_⟩)
    exact List.forall_mem_singleton.2
      (.obj (List.nodup_singleton _) (List.forall_mem_singleton.2 (.str "u")))
  have hright : right.IsValue := by
    refine .obj (List.nodup_singleton _) (List.forall_mem_singleton.2 ?_)
    exact .obj (List.nodup_singleton _) (List.forall_mem_singleton.2 (.bool true))
  have ha : a.WellKeyed := hleft.wellKeyed_ofJson.withRequired true
  have hb : b.WellKeyed := hright.wellKeyed_ofJson.withRequired true
  have hv : a.Accepts F v := (accepts_withRequired _ true).2 hleft.accepts_ofJson
  have hrequired : (merge 1 a b).required = true := by decide +kernel
  obtain ⟨hmerge, hnarrows, hboth⟩ := merge_between F a b ha hb 1 2 (by decide) v
  exact ⟨ha, hb, hv, hmerge (.inl hv), hnarrows (hmerge (.inl hv)), hrequired, hboth hrequired⟩

end Ty

end QueryTypes
