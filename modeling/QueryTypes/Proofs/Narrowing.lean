import QueryTypes.Proofs.Acceptance

/-!
# Narrower types

A type narrows another one if every value of the first is a value of the second (`Ty.Narrows`),
whatever formats and patterns mean. A union narrows with its members (`Ty.narrows_union`) and a
nullable type with the type (`Ty.narrows_nullable`), with one reservation each: a union of nothing
accepts everything, and the type of null is not made nullable again.
-/

set_option autoImplicit false

namespace QueryTypes

/-- Every value of the first type is a value of the second. -/
def Ty.Narrows (t' t : Ty) : Prop := ∀ F v, t'.Accepts F v → t.Accepts F v

namespace Ty

theorem WellKeyed.mk {t : Ty} (h : t.WellKeyed) (slot : Slot) : WellKeyed (.mk t.kind slot) := by
  cases h with
  | unknown _ => exact .unknown slot
  | scalar s _ => exact .scalar s slot
  | array origin _ hitem hkey hdistinct hentries =>
    exact .array origin slot hitem hkey hdistinct hentries
  | object origin _ hproperties => exact .object origin slot hproperties
  | union _ hmembers => exact .union slot hmembers

theorem Narrows.refl (t : Ty) : t.Narrows t := fun _ _ h => h

theorem narrows_unknown (t : Ty) : t.Narrows .unknown := fun _ v _ => accepts_unknown v

/-- The place of a type does not matter. -/
theorem accepts_iff_of_kind_eq {F : Facets} {v : Value} {t u : Ty} (h : t.kind = u.kind) :
    t.Accepts F v ↔ u.Accepts F v := by
  obtain ⟨k, slot⟩ := t
  obtain ⟨k', slot'⟩ := u
  obtain rfl : k = k' := h
  rw [Ty.Accepts, Ty.Accepts]

theorem Narrows.of_kind_eq {t' t u' u : Ty} (h : t'.Narrows t) (h' : u'.kind = t'.kind)
    (h'' : u.kind = t.kind) : u'.Narrows u := by
  intro F v hv
  rw [accepts_iff_of_kind_eq h'']
  exact h F v ((accepts_iff_of_kind_eq h').1 hv)

/-! ## Unions -/

theorem mem_addDistinct {ts : List Ty} {t u : Ty} (h : u ∈ ts) : u ∈ addDistinct ts t := by
  rw [addDistinct]
  split
  · exact h
  · exact List.mem_append_left _ h

theorem mem_foldl_addDistinct {ts seen : List Ty} {u : Ty} (h : u ∈ seen) :
    u ∈ ts.foldl addDistinct seen :=
  List.foldlRecOn ts addDistinct h fun _ hseen _ _ => mem_addDistinct hseen

/-- A type of a list is among the distinct ones, or an equal one is. -/
theorem exists_mem_distinct {ts : List Ty} {t : Ty} (h : t ∈ ts) :
    ∃ u ∈ distinct ts, u = t ∨ u.same t = true := by
  obtain ⟨before, after, rfl⟩ := List.append_of_mem h
  rw [distinct, List.foldl_append, List.foldl_cons]
  cases hany : (before.foldl addDistinct []).any (·.same t) with
  | true =>
    -- `t` is dropped for an equal type that came before
    obtain ⟨u, hu, hsame⟩ := List.any_eq_true.1 hany
    exact ⟨u, mem_foldl_addDistinct (mem_addDistinct hu), .inr hsame⟩
  | false =>
    refine ⟨t, mem_foldl_addDistinct ?_, .inl rfl⟩
    rw [addDistinct_of_not_any hany]
    exact List.mem_append_right _ (List.mem_singleton.2 rfl)

theorem distinct_ne_nil {ts : List Ty} (h : ts ≠ []) : distinct ts ≠ [] := by
  obtain ⟨t, ht⟩ := List.exists_mem_of_ne_nil _ h
  obtain ⟨u, hu, -⟩ := exists_mem_distinct ht
  exact List.ne_nil_of_mem hu

/-- What a union accepts, one of its members does, unless there is no member at all. -/
theorem accepts_union_cases {F : Facets} {v : Value} {ts : List Ty} (h : (union ts).Accepts F v) :
    ts.flatMap members = [] ∨ ∃ t ∈ ts, t.Accepts F v := by
  by_cases hempty : ts.flatMap members = []
  · exact .inl hempty
  · right
    have hmember : ∃ m ∈ distinct (ts.flatMap members), m.Accepts F v := by
      rw [union] at h
      generalize hne : distinct (ts.flatMap members) = ms at h
      match ms with
      | [] => exact absurd hne (distinct_ne_nil hempty)
      | [m] => exact ⟨m, List.mem_singleton.2 rfl, h⟩
      | m :: m' :: rest => exact accepts_union_iff.1 h
    obtain ⟨m, hm, hv⟩ := hmember
    obtain ⟨t, ht, hm⟩ := List.mem_flatMap.1 (mem_of_mem_distinct hm)
    exact ⟨t, ht, accepts_iff_members.2 ⟨m, hm, hv⟩⟩

/-- A union narrows with its members, if those that are unions of nothing stay. -/
theorem narrows_union {α : Type} {f' f : α → Ty} {xs : List α}
    (hkeyed : ∀ x ∈ xs, (f x).WellKeyed) (h : ∀ x ∈ xs, (f' x).Narrows (f x))
    (hempty : ∀ x ∈ xs, (f' x).members = [] → f' x = f x) :
    (union (xs.map f')).Narrows (union (xs.map f)) := by
  intro F v hv
  rcases accepts_union_cases hv with hnil | ⟨t, ht, hv⟩
  · -- a union of nothing, of which `h` says nothing: both unions are the same
    have heq : xs.map f' = xs.map f := by
      apply List.map_congr_left
      intro x hx
      exact hempty x hx (List.flatMap_eq_nil_iff.1 hnil _ (List.mem_map_of_mem hx))
    rwa [← heq]
  · obtain ⟨x, hx, rfl⟩ := List.mem_map.1 ht
    have hkeyed' : ∀ t ∈ xs.map f, t.WellKeyed := by
      intro t ht
      obtain ⟨x, hx, rfl⟩ := List.mem_map.1 ht
      exact hkeyed x hx
    exact accepts_union_of_mem hkeyed' (List.mem_map_of_mem hx) (h x hx F v hv)

/-! ## Null -/

theorem wellKeyed_null : Ty.null.WellKeyed := .scalar _ _

theorem WellKeyed.orNull {t : Ty} (h : t.WellKeyed) :
    ∀ u ∈ [t.withRequired false, null], u.WellKeyed := by
  intro u hu
  rcases List.mem_cons.1 hu with rfl | hu
  · exact h.withRequired false
  · rw [List.mem_singleton.1 hu]
    exact wellKeyed_null

/-- A nullable type narrows with the type, if it is no longer the type of null only where nothing
changes. -/
theorem narrows_nullable {t' t : Ty} (ht : t.WellKeyed) (h : t'.Narrows t)
    (hnull : t.isNull = true → t' = t) : t'.nullable.Narrows t.nullable := by
  cases hisNull : t.isNull with
  | true =>
    rw [hnull hisNull]
    exact .refl _
  | false =>
    -- `t'` may be the type of null and is then left as it is, but null is added to `t`
    intro F v hv
    have hcases : t'.Accepts F v ∨ null.Accepts F v := by
      rw [Ty.nullable] at hv
      split at hv
      · exact .inl hv
      · rw [accepts_withRequired] at hv
        rcases accepts_union_cases hv with hnil | ⟨u, hu, hv⟩
        · -- null itself is a member
          simp [members, null, scalar, ofKind] at hnil
        · rcases List.mem_cons.1 hu with rfl | hu
          · exact .inl ((accepts_withRequired _ _).1 hv)
          · rw [List.mem_singleton.1 hu] at hv
            exact .inr hv
    rw [Ty.nullable, hisNull, if_neg Bool.false_ne_true, accepts_withRequired]
    rcases hcases with hv | hv
    · have hv := (accepts_withRequired t false).2 (h F v hv)
      exact accepts_union_of_mem ht.orNull List.mem_cons_self hv
    · exact accepts_union_of_mem ht.orNull (List.mem_cons_of_mem _ List.mem_cons_self) hv

end Ty

end QueryTypes
