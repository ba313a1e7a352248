import Mathlib.Data.List.Perm.Subperm
import QueryTypes.Number.Numeral
import QueryTypes.Proofs.Structure
import QueryTypes.Ty.Union

/-!
# The values of a type

A value is null, a literal or a record of named values; a list is the record of its items under
their positions. `Ty.Accepts` says which values a type describes. What a format or a pattern means,
and which keys an array without a key type may have, is left to a reading (`Facets`).

The operations on types are shown to lose no value: equal types accept the same values
(`Ty.WellKeyed.covers`), a union accepts what one of its members does (`Ty.accepts_union_of_mem`),
and a field accepts what stands under its name in an accepted record (`Ty.accepts_field`). Equality
compares shapes entry by entry from the left and by their lengths, so these need shapes without
repeated names (`Ty.WellKeyed`).
-/

set_option autoImplicit false

namespace QueryTypes

/-! ## Values -/

/-- A value of the programs that types describe. -/
inductive Value where
  | null
  | literal (l : Literal)
  | record (entries : List (String × Value))

namespace Value

/-- A string. -/
def str (s : String) : Value := .literal (.str s)

/-- An integer. -/
def int (n : Int64) : Value := .literal (.int n)

/-- The name under which a value is a key of a record. -/
def key? : Value → Option String
  | .literal (.int n) => some (toString n.toInt)
  | .literal (.str s) => some s
  | _ => none

/-- Values under their positions, from a first one on. -/
def positions (start : Nat) : List Value → List (String × Value)
  | [] => []
  | v :: rest => (toString start, v) :: positions (start + 1) rest

/-- A list. -/
def list (vs : List Value) : Value := .record (positions 0 vs)

end Value

/-! ## Bounds -/

namespace Double

/-- The units of a finite double of a given rank. -/
def unitsOfRank (rank : Int) : Int :=
  if rank < 0 then -(unitsOf rank.natAbs : Int) else unitsOf rank.natAbs

/-- A bound is at most an integer. -/
def AtMostInt (x : Double) (n : Int) : Prop :=
  x.rank < infiniteMagnitude ∧
    (x.rank = -infiniteMagnitude ∨ unitsOfRank x.rank ≤ n * unitsPerOne)

/-- A bound is at least an integer. -/
def AtLeastInt (x : Double) (n : Int) : Prop :=
  infiniteMagnitude ≤ x.rank ∨
    (x.rank ≠ -infiniteMagnitude ∧ n * unitsPerOne ≤ unitsOfRank x.rank)

/-- A lower bound holds of a value, if the value is a number. -/
def BoundsBelow (x : Double) : Value → Prop
  | .literal (.int n) => x.AtMostInt n.toInt
  | .literal (.float y) => x.rank ≤ y.rank
  | _ => True

/-- An upper bound holds of a value, if the value is a number. -/
def BoundsAbove (x : Double) : Value → Prop
  | .literal (.int n) => x.AtLeastInt n.toInt
  | .literal (.float y) => y.rank ≤ x.rank
  | _ => True

theorem boundsBelow_congr {x y : Double} (h : x.rank = y.rank) (v : Value) :
    x.BoundsBelow v ↔ y.BoundsBelow v := by
  unfold BoundsBelow AtMostInt
  rw [h]

theorem boundsAbove_congr {x y : Double} (h : x.rank = y.rank) (v : Value) :
    x.BoundsAbove v ↔ y.BoundsAbove v := by
  unfold BoundsAbove AtLeastInt
  rw [h]

end Double

/-! ## Acceptance -/

/-- A reading of what types leave open. -/
structure Facets where
  /-- The values in a format. -/
  format : String → Value → Prop
  /-- The values that match a pattern. -/
  pattern : String → Value → Prop
  /-- The keys of an array that has no key type. -/
  unkeyed : String → Prop

/-- Values of a scalar kind; every number is a float. -/
def ScalarKind.fits : ScalarKind → Value → Bool
  | .null, .null => true
  | .bool, .literal (.bool _) => true
  | .integer, .literal (.int _) => true
  | .float, .literal (.int _) => true
  | .float, .literal (.float _) => true
  | .string, .literal (.str _) => true
  | _, _ => false

/-- A scalar type accepts a value. -/
structure Scalar.Accepts (F : Facets) (s : Scalar) (v : Value) : Prop where
  kind : s.kind.fits v = true
  literals : s.literals.isEmpty = false → ∃ l, v = .literal l ∧ s.literals.contains l = true
  format : ∀ f, s.format = some f → F.format f v
  pattern : ∀ p, s.pattern = some p → F.pattern p v
  minimum : ∀ b, s.minimum = some b → b.BoundsBelow v
  maximum : ∀ b, s.maximum = some b → b.BoundsAbove v

section Accepts

variable (F : Facets)

mutual

/-- A type accepts a value. -/
def Ty.Accepts : Ty → Value → Prop
  | .mk k _, v => k.Accepts v

/-- A kind accepts a value. -/
def Kind.Accepts : Kind → Value → Prop
  | .unknown, _ => True
  | .scalar s, v => s.Accepts F v
  | .array _ _ (some shape) _, .record es =>
    (∀ e ∈ es, Ty.AcceptsNamed False shape e.1 e.2) ∧
      ∀ p ∈ shape, p.2.required = true → p.1 ∈ Entries.keys es
  | .array item key none _, .record es =>
    ∀ e ∈ es, Ty.AcceptsItem item e.2 ∧ Ty.AcceptsKey key e.1
  | .object properties _, .record es =>
    (∀ e ∈ es, Ty.AcceptsNamed True properties e.1 e.2) ∧
      ∀ p ∈ properties, p.2.required = true → p.1 ∈ Entries.keys es
  | .union members, v => Ty.AcceptsSome members v
  | _, _ => False

/-- The type under a name accepts a value; without one, it depends. -/
def Ty.AcceptsNamed (missing : Prop) : List (String × Ty) → String → Value → Prop
  | [], _, _ => missing
  | (name, t) :: rest, key, v =>
    if name = key then t.Accepts v else Ty.AcceptsNamed missing rest key v

/-- An optional type of items accepts a value. -/
def Ty.AcceptsItem : Option Ty → Value → Prop
  | none, _ => True
  | some t, v => t.Accepts v

/-- An optional type of keys accepts a key, read as a string or as the integer it is a numeral
of. -/
def Ty.AcceptsKey : Option Ty → String → Prop
  | none, key => F.unkeyed key
  | some t, key => t.Accepts (.str key) ∨ ∃ n, Numeral.readInt64? key = some n ∧ t.Accepts (.int n)

/-- One of the types accepts a value. -/
def Ty.AcceptsSome : List Ty → Value → Prop
  | [], _ => False
  | t :: rest, v => t.Accepts v ∨ Ty.AcceptsSome rest v

end

end Accepts

section

variable {F : Facets} {v : Value}

theorem Ty.accepts_withRequired (t : Ty) (required : Bool) :
    (t.withRequired required).Accepts F v ↔ t.Accepts F v := by
  obtain ⟨k, slot⟩ := t
  rw [withRequired, Ty.Accepts, Ty.Accepts, kind_mk]

theorem Ty.accepts_unknown (v : Value) : Ty.unknown.Accepts F v := trivial

theorem Ty.acceptsNamed_iff {missing : Prop} {es : List (String × Ty)} {name : String} :
    Ty.AcceptsNamed F missing es name v ↔
      (∃ t, Entries.get? es name = some t ∧ t.Accepts F v) ∨
        (Entries.get? es name = none ∧ missing) := by
  induction es with
  | nil => simp [Ty.AcceptsNamed]
  | cons e rest ih =>
    obtain ⟨k, t⟩ := e
    rw [Ty.AcceptsNamed, Entries.get?_cons]
    by_cases hk : k = name
    · simp [hk]
    · rw [if_neg hk, if_neg hk]
      exact ih

theorem Ty.acceptsSome_iff {ts : List Ty} : Ty.AcceptsSome F ts v ↔ ∃ t ∈ ts, t.Accepts F v := by
  induction ts with
  | nil => simp [Ty.AcceptsSome]
  | cons t rest ih => simp [Ty.AcceptsSome, ih]

theorem Ty.accepts_union_iff {ts : List Ty} {slot : Slot} :
    (Ty.mk (.union ts) slot).Accepts F v ↔ ∃ t ∈ ts, t.Accepts F v := by
  rw [Ty.Accepts, Kind.Accepts, Ty.acceptsSome_iff]

theorem Ty.accepts_scalar_iff {s : Scalar} {slot : Slot} :
    (Ty.mk (.scalar s) slot).Accepts F v ↔ s.Accepts F v := by
  rw [Ty.Accepts, Kind.Accepts]

/-- A shape accepts the records with only its names, its required names and accepted entries. -/
theorem Ty.accepts_shape_iff {item key : Option Ty} {shape : List (String × Ty)}
    {origin : Option String} {slot : Slot} :
    (Ty.mk (.array item key (some shape) origin) slot).Accepts F v ↔
      ∃ es, v = .record es ∧
        (∀ e ∈ es, ∃ t, Entries.get? shape e.1 = some t ∧ t.Accepts F e.2) ∧
        ∀ p ∈ shape, p.2.required = true → p.1 ∈ Entries.keys es := by
  rw [Ty.Accepts]
  cases v with
  | record es => simp [Kind.Accepts, Ty.acceptsNamed_iff]
  | null => simp [Kind.Accepts]
  | literal l => simp [Kind.Accepts]

/-- An array without a shape accepts the records with accepted entries under accepted keys. -/
theorem Ty.accepts_array_iff {item key : Option Ty} {origin : Option String} {slot : Slot} :
    (Ty.mk (.array item key none origin) slot).Accepts F v ↔
      ∃ es, v = .record es ∧ ∀ e ∈ es, Ty.AcceptsItem F item e.2 ∧ Ty.AcceptsKey F key e.1 := by
  rw [Ty.Accepts]
  cases v with
  | record es => simp [Kind.Accepts]
  | null => simp [Kind.Accepts]
  | literal l => simp [Kind.Accepts]

/-- An object accepts the records with its required names whose properties are accepted. -/
theorem Ty.accepts_object_iff {properties : List (String × Ty)} {origin : Option String}
    {slot : Slot} :
    (Ty.mk (.object properties origin) slot).Accepts F v ↔
      ∃ es, v = .record es ∧
        (∀ e ∈ es, ∀ t, Entries.get? properties e.1 = some t → t.Accepts F e.2) ∧
        ∀ p ∈ properties, p.2.required = true → p.1 ∈ Entries.keys es := by
  have hnamed (name : String) (v : Value) : Ty.AcceptsNamed F True properties name v ↔
      ∀ t, Entries.get? properties name = some t → t.Accepts F v := by
    rw [Ty.acceptsNamed_iff]
    cases Entries.get? properties name <;> simp
  rw [Ty.Accepts]
  cases v with
  | record es => simp [Kind.Accepts, hnamed]
  | null => simp [Kind.Accepts]
  | literal l => simp [Kind.Accepts]

end

/-! ## Equal types -/

/-- No shape inside a type gives a name twice. -/
inductive Ty.WellKeyed : Ty → Prop
  | unknown (slot : Slot) : WellKeyed (.mk .unknown slot)
  | scalar (s : Scalar) (slot : Slot) : WellKeyed (.mk (.scalar s) slot)
  | array {item key : Option Ty} {shape : Option (List (String × Ty))} (origin : Option String)
      (slot : Slot) (item_wellKeyed : ∀ t, item = some t → WellKeyed t)
      (key_wellKeyed : ∀ t, key = some t → WellKeyed t)
      (distinct : ∀ es, shape = some es → Entries.Distinct es)
      (entries_wellKeyed : ∀ es, shape = some es → ∀ e ∈ es, WellKeyed e.2) :
      WellKeyed (.mk (.array item key shape origin) slot)
  | object {properties : List (String × Ty)} (origin : Option String) (slot : Slot)
      (properties_wellKeyed : ∀ e ∈ properties, WellKeyed e.2) :
      WellKeyed (.mk (.object properties origin) slot)
  | union {members : List Ty} (slot : Slot) (members_wellKeyed : ∀ t ∈ members, WellKeyed t) :
      WellKeyed (.mk (.union members) slot)

namespace Entries

variable {α : Type} {es : Entries α} {name : String} {a : α}

theorem mem_of_get?_eq_some (h : es.get? name = some a) : (name, a) ∈ es := by
  induction es with
  | nil => simp at h
  | cons e rest ih =>
    obtain ⟨k, b⟩ := e
    rw [get?_cons] at h
    by_cases hk : k = name
    · rw [if_pos hk, Option.some.injEq] at h
      rw [hk, h]
      exact List.mem_cons_self
    · rw [if_neg hk] at h
      exact List.mem_cons_of_mem _ (ih h)

theorem exists_get?_of_mem_keys (h : name ∈ es.keys) : ∃ a, es.get? name = some a :=
  Option.isSome_iff_exists.1 ((isSome_get?_iff es name).2 h)

theorem mem_keys_of_get?_eq_some (h : es.get? name = some a) : name ∈ es.keys :=
  (isSome_get?_iff es name).1 (Option.isSome_iff_exists.2 ⟨a, h⟩)

/-- In a map proper an entry is found under its name. -/
theorem Distinct.get?_eq_some (hes : es.Distinct) (h : (name, a) ∈ es) : es.get? name = some a := by
  induction es with
  | nil => exact absurd h List.not_mem_nil
  | cons e rest ih =>
    obtain ⟨k, b⟩ := e
    obtain ⟨hk, hrest⟩ := List.nodup_cons.1 hes
    rw [get?_cons]
    rcases List.mem_cons.1 h with heq | hmem
    · rw [Prod.mk.injEq] at heq
      rw [if_pos heq.1.symm, heq.2]
    · have hne : k ≠ name := by
        rintro rfl
        exact hk (List.mem_map.2 ⟨_, hmem, rfl⟩)
      rw [if_neg hne]
      exact ih hrest hmem

end Entries

theorem Ty.sameEntries_iff {es es' : List (String × Ty)} :
    Ty.sameEntries es es' = true ↔
      ∀ e ∈ es, ∃ t, Entries.get? es' e.1 = some t ∧ e.2.same t = true := by
  induction es with
  | nil => simp [Ty.sameEntries]
  | cons e rest ih =>
    obtain ⟨name, t⟩ := e
    rw [Ty.sameEntries, Bool.and_eq_true, ih, List.forall_mem_cons]
    refine and_congr_left fun _ => ?_
    cases Entries.get? es' name <;> simp

theorem Ty.exists_same_of_sameList {ts ts' : List Ty} (h : Ty.sameList ts ts' = true) {t : Ty}
    (ht : t ∈ ts') : ∃ u ∈ ts, u.same t = true := by
  induction ts generalizing ts' with
  | nil =>
    cases ts' with
    | nil => exact absurd ht List.not_mem_nil
    | cons t' rest' => simp [Ty.sameList] at h
  | cons u rest ih =>
    cases ts' with
    | nil => exact absurd ht List.not_mem_nil
    | cons t' rest' =>
      rw [Ty.sameList, Bool.and_eq_true] at h
      rcases List.mem_cons.1 ht with rfl | ht
      · exact ⟨u, List.mem_cons_self, h.1⟩
      · obtain ⟨w, hw, hwt⟩ := ih h.2 ht
        exact ⟨w, List.mem_cons_of_mem _ hw, hwt⟩

theorem Ty.required_eq_of_same {t t' : Ty} (h : t.same t' = true) : t.required = t'.required := by
  obtain ⟨k, slot⟩ := t
  obtain ⟨k', slot'⟩ := t'
  rw [Ty.same, Bool.and_eq_true, beq_iff_eq] at h
  rw [required, required, slot_mk, slot_mk, h.2]

namespace Scalar

theorem any_of_sameLiterals {ls ls' : List Literal} (h : sameLiterals ls ls' = true) {l : Literal}
    (hl : ls'.any (fun b => Literal.cmp l b == .eq) = true) :
    ls.any (fun b => Literal.cmp l b == .eq) = true := by
  induction ls generalizing ls' with
  | nil =>
    cases ls' with
    | nil => exact hl
    | cons b rest' => simp [sameLiterals] at h
  | cons a rest ih =>
    cases ls' with
    | nil => simp at hl
    | cons b rest' =>
      rw [sameLiterals, Bool.and_eq_true, Literal.same, beq_iff_eq] at h
      rw [List.any_cons, Bool.or_eq_true, beq_iff_eq] at hl ⊢
      rcases hl with hb | hrest
      · exact .inl (Std.TransCmp.eq_trans hb (Std.OrientedCmp.eq_symm h.1))
      · exact .inr (ih h.2 hrest)

theorem isEmpty_eq_of_sameLiterals {ls ls' : List Literal} (h : sameLiterals ls ls' = true) :
    ls.isEmpty = ls'.isEmpty := by
  cases ls with
  | nil => cases ls' with
    | nil => rfl
    | cons b rest' => simp [sameLiterals] at h
  | cons a rest => cases ls' with
    | nil => simp [sameLiterals] at h
    | cons b rest' => rfl

theorem exists_of_sameBound {x y : Option Double} (h : sameBound x y = true) {b : Double}
    (hx : x = some b) : ∃ c, y = some c ∧ b.rank = c.rank := by
  subst hx
  cases y with
  | none => simp [sameBound] at h
  | some c => exact ⟨c, rfl, Double.same_iff.1 h⟩

theorem accepts_of_same {F : Facets} {s s' : Scalar} {v : Value} (h : s.same s' = true)
    (hv : s'.Accepts F v) : s.Accepts F v := by
  simp only [same, Bool.and_eq_true, beq_iff_eq] at h
  obtain ⟨⟨⟨⟨⟨hkind, hliterals⟩, hformat⟩, hminimum⟩, hmaximum⟩, hpattern⟩ := h
  refine ⟨hkind ▸ hv.kind, ?_, ?_, ?_, ?_, ?_⟩
  · intro hne
    have hne' : s'.literals.isEmpty = false :=
      (isEmpty_eq_of_sameLiterals hliterals).symm.trans hne
    obtain ⟨l, hl, hmem⟩ := hv.literals hne'
    exact ⟨l, hl, any_of_sameLiterals hliterals hmem⟩
  · intro f hf
    exact hv.format f (hformat ▸ hf)
  · intro p hp
    exact hv.pattern p (hpattern ▸ hp)
  · intro b hb
    obtain ⟨c, hc, hrank⟩ := exists_of_sameBound hminimum hb
    exact (Double.boundsBelow_congr hrank v).2 (hv.minimum c hc)
  · intro b hb
    obtain ⟨c, hc, hrank⟩ := exists_of_sameBound hmaximum hb
    exact (Double.boundsAbove_congr hrank v).2 (hv.maximum c hc)

end Scalar

/-- Shapes of one length, each entry of the one equal to the entry of its name in the other, have
the same names, if the one has no name twice. -/
theorem keys_perm_of_sameEntries {es es' : List (String × Ty)} (hes : Entries.Distinct es)
    (hlength : es.length = es'.length) (h : Ty.sameEntries es es' = true) :
    (Entries.keys es).Perm (Entries.keys es') := by
  have hsubset : Entries.keys es ⊆ Entries.keys es' := by
    intro k hk
    obtain ⟨e, he, rfl⟩ := List.mem_map.1 hk
    obtain ⟨t, ht, -⟩ := Ty.sameEntries_iff.1 h e he
    exact Entries.mem_keys_of_get?_eq_some ht
  -- only the names of `es` were looked up; that there are no others follows by counting
  refine (List.subperm_of_subset hes hsubset).perm_of_length_le ?_
  rw [Entries.keys, Entries.keys, List.length_map, List.length_map]
  exact Nat.le_of_eq hlength.symm

/-- A type accepts whatever is accepted by a type that it equals. -/
def Ty.Covers (F : Facets) (u : Ty) : Prop :=
  ∀ t v, u.same t = true → t.Accepts F v → u.Accepts F v

section

variable {F : Facets}

theorem Ty.acceptsItem_of_same {item item' : Option Ty} (ih : ∀ u, item = some u → u.Covers F)
    (h : Ty.sameOption item item' = true) {v : Value} (hv : Ty.AcceptsItem F item' v) :
    Ty.AcceptsItem F item v := by
  cases item with
  | none => trivial
  | some u => cases item' with
    | none => simp [Ty.sameOption] at h
    | some t =>
      rw [Ty.sameOption] at h
      exact ih u rfl t v h hv

theorem Ty.acceptsKey_of_same {key key' : Option Ty} (ih : ∀ u, key = some u → u.Covers F)
    (h : Ty.sameOption key key' = true) {name : String} (hname : Ty.AcceptsKey F key' name) :
    Ty.AcceptsKey F key name := by
  cases key with
  | none => cases key' with
    | none => exact hname
    | some t => simp [Ty.sameOption] at h
  | some u => cases key' with
    | none => simp [Ty.sameOption] at h
    | some t =>
      rw [Ty.sameOption] at h
      rcases hname with hstr | ⟨n, hn, hint⟩
      · exact .inl (ih u rfl t _ h hstr)
      · exact .inr ⟨n, hn, ih u rfl t _ h hint⟩

theorem Ty.covers_shape {item key : Option Ty} {es : List (String × Ty)} {origin : Option String}
    {slot : Slot} (hes : Entries.Distinct es) (ih : ∀ e ∈ es, e.2.Covers F) :
    (Ty.mk (.array item key (some es) origin) slot).Covers F := by
  rintro ⟨k, slot'⟩ v h hv
  cases k with
  | array item' key' shape' origin' =>
    simp only [Ty.same, Kind.same, Bool.and_eq_true] at h
    obtain ⟨⟨⟨-, hshape⟩, -⟩, -⟩ := h
    cases shape' with
    | none => simp [Ty.sameShape] at hshape
    | some es' =>
      rw [Ty.sameShape, Bool.and_eq_true, beq_iff_eq] at hshape
      obtain ⟨hlength, hsame⟩ := hshape
      have hentry := Ty.sameEntries_iff.1 hsame
      obtain ⟨entries, rfl, haccepts, hrequired⟩ := Ty.accepts_shape_iff.1 hv
      refine Ty.accepts_shape_iff.2 ⟨entries, rfl, ?_, ?_⟩
      · -- the entry is under a name of the other shape, so this one has it, with an equal type
        intro e he
        obtain ⟨t', ht', hv'⟩ := haccepts e he
        have hname := (keys_perm_of_sameEntries hes hlength hsame).mem_iff.2
          (Entries.mem_keys_of_get?_eq_some ht')
        obtain ⟨t, ht⟩ := Entries.exists_get?_of_mem_keys hname
        have hmem := Entries.mem_of_get?_eq_some ht
        obtain ⟨t'', ht'', htt''⟩ := hentry _ hmem
        rw [ht', Option.some.injEq] at ht''
        exact ⟨t, ht, ih _ hmem t' e.2 (ht'' ▸ htt'') hv'⟩
      · intro p hp hreq
        obtain ⟨t', ht', htt'⟩ := hentry p hp
        rw [Ty.required_eq_of_same htt'] at hreq
        exact hrequired (p.1, t') (Entries.mem_of_get?_eq_some ht') hreq
  | unknown | scalar | object | union => simp [Ty.same, Kind.same] at h

theorem Ty.covers_array {item key : Option Ty} {origin : Option String} {slot : Slot}
    (ihitem : ∀ u, item = some u → u.Covers F) (ihkey : ∀ u, key = some u → u.Covers F) :
    (Ty.mk (.array item key none origin) slot).Covers F := by
  rintro ⟨k, slot'⟩ v h hv
  cases k with
  | array item' key' shape' origin' =>
    simp only [Ty.same, Kind.same, Bool.and_eq_true] at h
    obtain ⟨⟨⟨⟨hitem, hkey⟩, hshape⟩, -⟩, -⟩ := h
    cases shape' with
    | some es' => simp [Ty.sameShape] at hshape
    | none =>
      obtain ⟨entries, rfl, haccepts⟩ := Ty.accepts_array_iff.1 hv
      refine Ty.accepts_array_iff.2 ⟨entries, rfl, fun e he => ?_⟩
      obtain ⟨hvalue, hname⟩ := haccepts e he
      exact ⟨Ty.acceptsItem_of_same ihitem hitem hvalue, Ty.acceptsKey_of_same ihkey hkey hname⟩
  | unknown | scalar | object | union => simp [Ty.same, Kind.same] at h

theorem Ty.covers_object {properties : List (String × Ty)} {origin : Option String} {slot : Slot}
    (ih : ∀ e ∈ properties, e.2.Covers F) : (Ty.mk (.object properties origin) slot).Covers F := by
  rintro ⟨k, slot'⟩ v h hv
  cases k with
  | object properties' origin' =>
    simp only [Ty.same, Kind.same, Bool.and_eq_true] at h
    obtain ⟨⟨⟨-, hsame⟩, -⟩, -⟩ := h
    have hentry := Ty.sameEntries_iff.1 hsame
    obtain ⟨es, rfl, haccepts, hrequired⟩ := Ty.accepts_object_iff.1 hv
    refine Ty.accepts_object_iff.2 ⟨es, rfl, ?_, ?_⟩
    · -- an object is open, so only its own properties are asked about
      intro e he t ht
      have hmem := Entries.mem_of_get?_eq_some ht
      obtain ⟨t', ht', htt'⟩ := hentry _ hmem
      exact ih _ hmem t' e.2 htt' (haccepts e he t' ht')
    · intro p hp hreq
      obtain ⟨t', ht', htt'⟩ := hentry p hp
      rw [Ty.required_eq_of_same htt'] at hreq
      exact hrequired (p.1, t') (Entries.mem_of_get?_eq_some ht') hreq
  | unknown | scalar | array | union => simp [Ty.same, Kind.same] at h

theorem Ty.covers_union {members : List Ty} {slot : Slot} (ih : ∀ u ∈ members, u.Covers F) :
    (Ty.mk (.union members) slot).Covers F := by
  rintro ⟨k, slot'⟩ v h hv
  cases k with
  | union members' =>
    rw [Ty.same, Kind.same, Bool.and_eq_true] at h
    rw [Ty.accepts_union_iff] at hv ⊢
    obtain ⟨t, ht, hv⟩ := hv
    obtain ⟨u, hu, hut⟩ := Ty.exists_same_of_sameList h.1 ht
    exact ⟨u, hu, ih u hu t v hut hv⟩
  | unknown | scalar | array | object => simp [Ty.same, Kind.same] at h

/-- Equal types accept the same values. -/
theorem Ty.WellKeyed.covers {u : Ty} (h : u.WellKeyed) : u.Covers F := by
  induction h with
  | unknown slot => exact fun _ _ _ _ => trivial
  | scalar s slot =>
    rintro ⟨k, slot'⟩ v h hv
    cases k with
    | scalar s' =>
      rw [Ty.same, Kind.same, Bool.and_eq_true] at h
      rw [Ty.accepts_scalar_iff] at hv ⊢
      exact Scalar.accepts_of_same h.1 hv
    | unknown | array | object | union => simp [Ty.same, Kind.same] at h
  | @array item key shape origin slot _ _ hdistinct _ ihitem ihkey ihshape =>
    cases shape with
    | none => exact Ty.covers_array ihitem ihkey
    | some es => exact Ty.covers_shape (hdistinct es rfl) (ihshape es rfl)
  | object origin slot _ ih => exact Ty.covers_object ih
  | union slot _ ih => exact Ty.covers_union ih

end

/-! ## Unions -/

namespace Ty

variable {F : Facets} {v : Value}

theorem wellKeyed_unknown : Ty.unknown.WellKeyed := .unknown {}

theorem WellKeyed.withRequired {t : Ty} (h : t.WellKeyed) (required : Bool) :
    (t.withRequired required).WellKeyed := by
  cases h with
  | unknown slot => exact .unknown _
  | scalar s slot => exact .scalar s _
  | array origin slot hitem hkey hdistinct hentries =>
    exact .array origin _ hitem hkey hdistinct hentries
  | object origin slot hproperties => exact .object origin _ hproperties
  | union slot hmembers => exact .union _ hmembers

theorem WellKeyed.members {t : Ty} (h : t.WellKeyed) : ∀ m ∈ t.members, m.WellKeyed := by
  cases h with
  | union slot hmembers => exact hmembers
  | unknown slot => exact List.forall_mem_singleton.2 (.unknown slot)
  | scalar s slot => exact List.forall_mem_singleton.2 (.scalar s slot)
  | array origin slot hitem hkey hdistinct hentries =>
    exact List.forall_mem_singleton.2 (.array origin slot hitem hkey hdistinct hentries)
  | object origin slot hproperties =>
    exact List.forall_mem_singleton.2 (.object origin slot hproperties)

theorem accepts_iff_members {t : Ty} : t.Accepts F v ↔ ∃ m ∈ t.members, m.Accepts F v := by
  obtain ⟨k, slot⟩ := t
  cases k with
  | union members => exact accepts_union_iff
  | unknown | scalar | array | object => simp [members]

theorem mem_of_mem_addDistinct {ts : List Ty} {t u : Ty} (h : u ∈ addDistinct ts t) :
    u ∈ ts ∨ u = t := by
  unfold addDistinct at h
  split at h
  · exact .inl h
  · simpa using h

/-- A step of the fold that drops repeated types: what was accepted still is, and so is what the new
type accepts. -/
theorem accepts_addDistinct {ts : List Ty} {t : Ty} (hts : ∀ u ∈ ts, u.WellKeyed)
    (h : (∃ u ∈ ts, u.Accepts F v) ∨ t.Accepts F v) : ∃ u ∈ addDistinct ts t, u.Accepts F v := by
  cases hany : ts.any (·.same t) with
  | true =>
    rw [addDistinct_of_any hany]
    rcases h with h | h
    · exact h
    · -- the new type is dropped for an equal one
      obtain ⟨u, hu, hsame⟩ := List.any_eq_true.1 hany
      exact ⟨u, hu, (hts u hu).covers t v hsame h⟩
  | false =>
    rw [addDistinct_of_not_any hany]
    rcases h with ⟨u, hu, h⟩ | h
    · exact ⟨u, List.mem_append_left _ hu, h⟩
    · exact ⟨t, List.mem_append_right _ (List.mem_singleton.2 rfl), h⟩

theorem mem_of_mem_distinct {ts : List Ty} {u : Ty} (h : u ∈ distinct ts) : u ∈ ts := by
  suffices key : ∀ seen : List Ty, u ∈ ts.foldl addDistinct seen → u ∈ seen ∨ u ∈ ts from
    (key [] h).resolve_left List.not_mem_nil
  clear h
  induction ts with
  | nil => exact fun seen h => .inl h
  | cons t rest ih =>
    intro seen h
    rcases ih _ h with h | h
    · rcases mem_of_mem_addDistinct h with h | rfl
      · exact .inl h
      · exact .inr List.mem_cons_self
    · exact .inr (List.mem_cons_of_mem _ h)

theorem accepts_distinct {ts : List Ty} (hts : ∀ t ∈ ts, t.WellKeyed)
    (h : ∃ t ∈ ts, t.Accepts F v) : ∃ u ∈ distinct ts, u.Accepts F v := by
  suffices key : ∀ seen : List Ty, (∀ u ∈ seen, u.WellKeyed) →
      ((∃ u ∈ seen, u.Accepts F v) ∨ ∃ t ∈ ts, t.Accepts F v) →
      ∃ u ∈ ts.foldl addDistinct seen, u.Accepts F v from
    key [] (fun _ hu => absurd hu List.not_mem_nil) (.inr h)
  clear h
  induction ts with
  | nil =>
    intro seen _ h
    exact h.resolve_right fun ⟨t, ht, _⟩ => List.not_mem_nil ht
  | cons t rest ih =>
    intro seen hseen h
    have hseen' : ∀ u ∈ addDistinct seen t, u.WellKeyed := by
      intro u hu
      rcases mem_of_mem_addDistinct hu with hu | rfl
      · exact hseen u hu
      · exact hts u List.mem_cons_self
    refine ih (fun u hu => hts u (List.mem_cons_of_mem _ hu)) _ hseen' ?_
    rcases h with h | ⟨u, hu, h⟩
    · exact .inl (accepts_addDistinct hseen (.inl h))
    · rcases List.mem_cons.1 hu with rfl | hu
      · exact .inl (accepts_addDistinct hseen (.inr h))
      · exact .inr ⟨u, hu, h⟩

theorem accepts_ofMembers {ts : List Ty} (h : ∃ t ∈ ts, t.Accepts F v) :
    (ofMembers ts).Accepts F v := by
  match ts with
  | [] => exact accepts_unknown v
  | [t] => simpa [ofMembers] using h
  | t :: u :: rest => exact accepts_union_iff.2 h

theorem wellKeyed_ofMembers {ts : List Ty} (h : ∀ t ∈ ts, t.WellKeyed) :
    (ofMembers ts).WellKeyed := by
  match ts with
  | [] => exact wellKeyed_unknown
  | [t] => exact h t List.mem_cons_self
  | t :: u :: rest => exact .union _ h

/-- A union accepts what one of its members accepts. -/
theorem accepts_union_of_mem {ts : List Ty} (hts : ∀ t ∈ ts, t.WellKeyed) {t : Ty} (ht : t ∈ ts)
    (h : t.Accepts F v) : (union ts).Accepts F v := by
  have hmembers : ∀ m ∈ ts.flatMap members, m.WellKeyed := by
    intro m hm
    obtain ⟨t, ht, hm⟩ := List.mem_flatMap.1 hm
    exact (hts t ht).members m hm
  obtain ⟨m, hm, h⟩ := accepts_iff_members.1 h
  exact accepts_ofMembers
    (accepts_distinct hmembers ⟨m, List.mem_flatMap.2 ⟨t, ht, hm⟩, h⟩)

theorem wellKeyed_union {ts : List Ty} (hts : ∀ t ∈ ts, t.WellKeyed) : (union ts).WellKeyed := by
  refine wellKeyed_ofMembers fun m hm => ?_
  obtain ⟨t, ht, hm⟩ := List.mem_flatMap.1 (mem_of_mem_distinct hm)
  exact (hts t ht).members m hm

/-! ## Fields -/

theorem WellKeyed.field {t : Ty} (h : t.WellKeyed) (name : String) : (t.field name).WellKeyed := by
  induction h with
  | unknown slot => exact wellKeyed_unknown
  | scalar s slot => exact wellKeyed_unknown
  | @array item key shape origin slot hitem hkey hdistinct hentries _ _ _ =>
    cases shape with
    | none => cases item with
      | none => exact wellKeyed_unknown
      | some t => exact hitem t rfl
    | some es =>
      rw [Ty.field]
      cases hget : Entries.get? es name with
      | none => exact wellKeyed_unknown
      | some t => exact hentries es rfl _ (Entries.mem_of_get?_eq_some hget)
  | @object properties origin slot hproperties _ =>
    rw [Ty.field]
    cases hget : Entries.get? properties name with
    | none => exact wellKeyed_unknown
    | some t => exact hproperties _ (Entries.mem_of_get?_eq_some hget)
  | @union members slot _ ih =>
    rw [Ty.field, fieldList_eq_map]
    refine wellKeyed_union fun t ht => ?_
    obtain ⟨m, hm, rfl⟩ := List.mem_map.1 ht
    exact (ih m (List.mem_of_mem_filter hm)).withRequired false

theorem not_isNull_of_accepts_record {t : Ty} {es : List (String × Value)}
    (h : t.Accepts F (.record es)) : t.isNull = false := by
  obtain ⟨k, slot⟩ := t
  cases k with
  | scalar s =>
    have hfits := (accepts_scalar_iff.1 h).kind
    cases hkind : s.kind <;> simp [hkind, ScalarKind.fits] at hfits
  | unknown | array | object | union => rfl

/-- A field accepts what stands under its name in an accepted record. -/
theorem accepts_field {t : Ty} (ht : t.WellKeyed) {es : List (String × Value)}
    (h : t.Accepts F (.record es)) {name : String} (hv : (name, v) ∈ es) :
    (t.field name).Accepts F v := by
  induction ht with
  | unknown slot => exact accepts_unknown v
  | scalar s slot => exact accepts_unknown v
  | @array item key shape origin slot hitem hkey hdistinct hentries _ _ _ =>
    cases shape with
    | none =>
      obtain ⟨es', hes, haccepts⟩ := accepts_array_iff.1 h
      cases hes
      have hitem := (haccepts _ hv).1
      cases item with
      | none => exact accepts_unknown v
      | some t => exact hitem
    | some shape =>
      obtain ⟨es', hes, haccepts, -⟩ := accepts_shape_iff.1 h
      cases hes
      obtain ⟨t, ht, hv⟩ := haccepts _ hv
      rw [Ty.field, ht]
      exact hv
  | @object properties origin slot hproperties _ =>
    obtain ⟨es', hes, haccepts, -⟩ := accepts_object_iff.1 h
    cases hes
    rw [Ty.field]
    cases hget : Entries.get? properties name with
    | none => exact accepts_unknown v
    | some t => exact haccepts _ hv t hget
  | @union members slot hmembers ih =>
    obtain ⟨m, hm, h⟩ := accepts_union_iff.1 h
    -- the members that are left out are null, and null accepts no record
    have hfiltered : m ∈ members.filter fun t => !t.isNull := by
      rw [List.mem_filter, not_isNull_of_accepts_record h]
      exact ⟨hm, rfl⟩
    rw [Ty.field, fieldList_eq_map]
    refine accepts_union_of_mem ?_ (List.mem_map_of_mem hfiltered) ?_
    · intro t ht
      obtain ⟨m', hm', rfl⟩ := List.mem_map.1 ht
      exact ((hmembers m' (List.mem_of_mem_filter hm')).field name).withRequired false
    · exact (accepts_withRequired _ false).2 (ih m hm h)

end Ty

end QueryTypes
