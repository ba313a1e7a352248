import Mathlib.Data.List.Perm.Basic
import QueryTypes.Proofs.Acceptance
import QueryTypes.Proofs.Lists

/-!
# Types up to the order of properties

Properties are listed in the order in which they were first given. `Ty.Reordered` relates two types
that differ in nothing but this order, at any depth: objects have the same properties, each of them
reordered in turn, and everything else is equal. It is finer than the equality of types, which also
identifies equal doubles and does not see the order of the entries of a shape.

Equality of types does not see the order of properties (`Ty.Reordered.indistinct`), so that a union
of reordered types drops the same members (`Ty.Reordered.union_of_forall₂`).
-/

set_option autoImplicit false

namespace QueryTypes

/-- The types differ in the order of properties only. -/
inductive Ty.Reordered : Ty → Ty → Prop
  | refl (t : Ty) : Reordered t t
  | object {props props' : Entries Ty} (origin : Option String) (slot : Slot) :
      props.Distinct → props.keys.Perm props'.keys →
      (∀ name t t', props.get? name = some t → props'.get? name = some t' → Reordered t t') →
      Reordered (.mk (.object props origin) slot) (.mk (.object props' origin) slot)
  | item {a b : Ty} (key : Option Ty) (origin : Option String) (slot : Slot) :
      Reordered a b →
      Reordered (.mk (.array (some a) key none origin) slot)
        (.mk (.array (some b) key none origin) slot)
  | union {ts ts' : List Ty} (slot : Slot) :
      ts.length = ts'.length →
      (∀ (i : Nat) t t', ts[i]? = some t → ts'[i]? = some t' → Reordered t t') →
      Reordered (.mk (.union ts) slot) (.mk (.union ts') slot)

namespace Ty.Reordered

/-- A type and another one beside a third in a union. -/
theorem pair {a b : Ty} (h : a.Reordered b) (c : Ty) (slot : Slot) :
    Reordered (.mk (.union [a, c]) slot) (.mk (.union [b, c]) slot) := by
  refine .union slot rfl ?_
  intro i t t' ht ht'
  match i with
  | 0 =>
    simp only [List.getElem?_cons_zero, Option.some.injEq] at ht ht'
    rw [← ht, ← ht']
    exact h
  | 1 =>
    simp only [List.getElem?_cons_succ, List.getElem?_cons_zero, Option.some.injEq] at ht ht'
    rw [← ht, ← ht']
    exact .refl c
  | i + 2 => simp at ht

/-! ## Kinds and places -/

/-- The place of a type has no order. -/
theorem mk {a b : Ty} (h : a.Reordered b) (slot : Slot) :
    Reordered (.mk a.kind slot) (.mk b.kind slot) := by
  cases h with
  | refl => exact .refl _
  | object origin _ hdistinct hkeys hget => exact .object origin slot hdistinct hkeys hget
  | item key origin _ hab => exact .item key origin slot hab
  | union _ hlength hget => exact .union slot hlength hget

theorem slot_eq {a b : Ty} (h : a.Reordered b) : a.slot = b.slot := by
  cases h with
  | refl | object | item | union => rfl

theorem isNull_eq {a b : Ty} (h : a.Reordered b) : a.isNull = b.isNull := by
  cases h with
  | refl | object | item | union => rfl

theorem withRequired {a b : Ty} (h : a.Reordered b) (required : Bool) :
    (a.withRequired required).Reordered (b.withRequired required) := by
  rw [Ty.withRequired, Ty.withRequired, h.slot_eq]
  exact h.mk _

/-- The same properties but for one, which is reordered. -/
theorem put {es : Entries Ty} (hes : es.Distinct) (name : String) {a b : Ty} (h : a.Reordered b)
    (origin : Option String) (slot : Slot) :
    Reordered (.mk (.object (es.put name a) origin) slot)
      (.mk (.object (es.put name b) origin) slot) := by
  refine .object origin slot (hes.put name a) ?_ ?_
  · rw [Entries.keys_put, Entries.keys_put]
  · intro other t t' ht ht'
    by_cases hname : name = other
    · subst hname
      rw [Entries.get?_put_self, Option.some.injEq] at ht ht'
      rw [← ht, ← ht']
      exact h
    · rw [Entries.get?_put_of_ne _ _ hname] at ht ht'
      rw [Option.some.inj (ht.symm.trans ht')]
      exact .refl t'

end Ty.Reordered

/-! ## Equality -/

/-- Types that equal the same types. -/
def Ty.Indistinct (a b : Ty) : Prop := ∀ c : Ty, a.same c = b.same c ∧ c.same a = c.same b

theorem Ty.sameList_congr {ts ts' : List Ty} (h : List.Forall₂ Ty.Indistinct ts ts')
    (us : List Ty) : sameList ts us = sameList ts' us ∧ sameList us ts = sameList us ts' := by
  induction h generalizing us with
  | nil => exact ⟨rfl, rfl⟩
  | cons hhead _ ih =>
    cases us with
    | nil => simp [sameList]
    | cons u rest => simp [sameList, hhead u, ih rest]

/-- Entries under the same names that equal the same types. -/
theorem Ty.sameEntries_congr {es es' : Entries Ty} (hes : es.Distinct)
    (hkeys : es.keys.Perm es'.keys)
    (h : ∀ name t t', es.get? name = some t → es'.get? name = some t' → t.Indistinct t')
    (others : Entries Ty) :
    sameEntries es others = sameEntries es' others ∧
      sameEntries others es = sameEntries others es' := by
  have hes' : es'.Distinct := hkeys.nodup_iff.1 hes
  -- an entry has a partner of its name on the other side
  have hpartner {name : String} {t : Ty} (ht : es.get? name = some t) :
      ∃ t', es'.get? name = some t' :=
    Entries.exists_get?_of_mem_keys (hkeys.mem_iff.1 (Entries.mem_keys_of_get?_eq_some ht))
  have hpartner' {name : String} {t : Ty} (ht : es'.get? name = some t) :
      ∃ t', es.get? name = some t' :=
    Entries.exists_get?_of_mem_keys (hkeys.mem_iff.2 (Entries.mem_keys_of_get?_eq_some ht))
  simp only [Bool.eq_iff_iff (b := sameEntries es' others),
    Bool.eq_iff_iff (b := sameEntries others es'), sameEntries_iff]
  refine ⟨⟨?_, ?_⟩, forall₂_congr fun e _ => ⟨?_, ?_⟩⟩
  · intro hsame e he
    have hget := hes'.get?_eq_some he
    obtain ⟨t, ht⟩ := hpartner' hget
    obtain ⟨u, hu, htu⟩ := hsame _ (Entries.mem_of_get?_eq_some ht)
    exact ⟨u, hu, (h e.1 t e.2 ht hget u).1 ▸ htu⟩
  · intro hsame e he
    have hget := hes.get?_eq_some he
    obtain ⟨t, ht⟩ := hpartner hget
    obtain ⟨u, hu, htu⟩ := hsame _ (Entries.mem_of_get?_eq_some ht)
    exact ⟨u, hu, (h e.1 e.2 t hget ht u).1.symm ▸ htu⟩
  · rintro ⟨t, ht, hsame⟩
    obtain ⟨t', ht'⟩ := hpartner ht
    exact ⟨t', ht', (h e.1 t t' ht ht' e.2).2 ▸ hsame⟩
  · rintro ⟨t', ht', hsame⟩
    obtain ⟨t, ht⟩ := hpartner' ht'
    exact ⟨t, ht, (h e.1 t t' ht ht' e.2).2.symm ▸ hsame⟩

namespace Ty.Reordered

/-- Equality does not see the order of properties. -/
theorem indistinct {a b : Ty} (h : a.Reordered b) : a.Indistinct b := by
  induction h with
  | refl => exact fun c => ⟨rfl, rfl⟩
  | @object props props' origin slot hdistinct hkeys _ ih =>
    rintro ⟨k, place⟩
    have hlength : props.length = props'.length := by simpa [Entries.keys] using hkeys.length_eq
    cases k with
    | object others other =>
      obtain ⟨hleft, hright⟩ := sameEntries_congr hdistinct hkeys ih others
      simp [Ty.same, Kind.same, hleft, hright, hlength]
    | unknown | scalar | array | union => simp [Ty.same, Kind.same]
  | @item a b key origin slot _ ih =>
    rintro ⟨k, place⟩
    cases k with
    | array item key' shape other =>
      cases item with
      | none => simp [Ty.same, Kind.same, sameOption]
      | some t => simp [Ty.same, Kind.same, sameOption, ih t]
    | unknown | scalar | object | union => simp [Ty.same, Kind.same]
  | @union ts ts' slot hlength _ ih =>
    rintro ⟨k, place⟩
    cases k with
    | union us =>
      obtain ⟨hleft, hright⟩ := sameList_congr (forall₂_iff_getElem?.2 ⟨hlength, ih⟩) us
      simp [Ty.same, Kind.same, hleft, hright]
    | unknown | scalar | array | object => simp [Ty.same, Kind.same]

/-! ## Unions -/

theorem members {a b : Ty} (h : a.Reordered b) : List.Forall₂ Reordered a.members b.members := by
  cases h with
  | refl => exact List.forall₂_same.2 fun t _ => .refl t
  | object origin slot hdistinct hkeys hget =>
    exact .cons (.object origin slot hdistinct hkeys hget) .nil
  | item key origin slot hab => exact .cons (.item key origin slot hab) .nil
  | union slot hlength hget => exact forall₂_iff_getElem?.2 ⟨hlength, hget⟩

/-- A type is dropped beside types of which one equals it, on both sides. -/
theorem forall₂_addDistinct {ts ts' : List Ty} (hts : List.Forall₂ Reordered ts ts') {a b : Ty}
    (h : a.Reordered b) : List.Forall₂ Reordered (addDistinct ts a) (addDistinct ts' b) := by
  have hany : ts.any (·.same a) = ts'.any (·.same b) := by
    induction hts with
    | nil => rfl
    | @cons t t' _ _ hhead _ ih =>
      rw [List.any_cons, List.any_cons, ih, (hhead.indistinct a).1, (h.indistinct t').2]
  rw [addDistinct, addDistinct, hany]
  split
  · exact hts
  · exact List.rel_append hts (.cons h .nil)

theorem forall₂_foldl_addDistinct {seen seen' ts ts' : List Ty}
    (hseen : List.Forall₂ Reordered seen seen') (h : List.Forall₂ Reordered ts ts') :
    List.Forall₂ Reordered (ts.foldl addDistinct seen) (ts'.foldl addDistinct seen') := by
  induction h generalizing seen seen' with
  | nil => exact hseen
  | cons hhead _ ih => exact ih (forall₂_addDistinct hseen hhead)

theorem ofMembers {ts ts' : List Ty} (h : List.Forall₂ Reordered ts ts') :
    (ofMembers ts).Reordered (ofMembers ts') := by
  cases h with
  | nil => exact .refl _
  | cons hfirst hrest =>
    cases hrest with
    | nil => exact hfirst
    | cons hsecond hrest =>
      obtain ⟨hlength, hget⟩ := forall₂_iff_getElem?.1 (.cons hfirst (.cons hsecond hrest))
      exact .union _ hlength hget

theorem union_of_forall₂ {ts ts' : List Ty} (h : List.Forall₂ Reordered ts ts') :
    (Ty.union ts).Reordered (Ty.union ts') := by
  have hmembers : List.Forall₂ Reordered (ts.flatMap Ty.members) (ts'.flatMap Ty.members) :=
    List.rel_flatMap h fun _ _ hab => hab.members
  exact ofMembers (forall₂_foldl_addDistinct .nil hmembers)

theorem nullable {a b : Ty} (h : a.Reordered b) : a.nullable.Reordered b.nullable := by
  rw [Ty.nullable, Ty.nullable, h.isNull_eq]
  split
  · exact h
  · have hrequired : a.required = b.required := congrArg Slot.required h.slot_eq
    rw [hrequired]
    exact (union_of_forall₂ (.cons (h.withRequired false) (.cons (.refl _) .nil))).withRequired _

end Ty.Reordered

end QueryTypes
