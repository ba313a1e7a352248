import QueryTypes.Collection
import QueryTypes.Proofs.Merging
import QueryTypes.Proofs.Reading
import QueryTypes.Query.Method

/-!
# Well-formed types

A type is well-formed (`Ty.WellFormed`) if at every depth a union has at least two members, none of
which is a union and no two of which are equal, and an array with a shape has neither an item nor a
key type. The place of a type does not matter (`WellFormed.mk`).

Every operation on types keeps this. The one that builds unions establishes it: members of unions
are taken one by one and equal ones are dropped, so that a union of well-formed types is well-formed
(`wellFormed_union`), whatever the types are. The others are put together from it.
-/

set_option autoImplicit false

namespace QueryTypes

namespace Ty

/-- Unions. -/
def isUnion (t : Ty) : Bool :=
  match t.kind with
  | .union _ => true
  | _ => false

/-- The members that a union may have: two at least, none of them a union, and no two of them
equal. -/
structure Alternatives (ts : List Ty) : Prop where
  two_le : 2 ≤ ts.length
  flat : ∀ t ∈ ts, t.isUnion = false
  unequal : ts.Pairwise fun a b => a.same b = false

/-- Unions have proper members and shapes stand alone, at every depth. -/
inductive WellFormed : Ty → Prop
  | unknown (slot : Slot) : WellFormed (.mk .unknown slot)
  | scalar (s : Scalar) (slot : Slot) : WellFormed (.mk (.scalar s) slot)
  | array {item key : Option Ty} {shape : Option (List (String × Ty))} (origin : Option String)
      (slot : Slot) (alone : shape.isSome = true → item = none ∧ key = none)
      (item_wellFormed : ∀ t, item = some t → WellFormed t)
      (key_wellFormed : ∀ t, key = some t → WellFormed t)
      (entries_wellFormed : ∀ es, shape = some es → ∀ e ∈ es, WellFormed e.2) :
      WellFormed (.mk (.array item key shape origin) slot)
  | object {properties : List (String × Ty)} (origin : Option String) (slot : Slot)
      (properties_wellFormed : ∀ e ∈ properties, WellFormed e.2) :
      WellFormed (.mk (.object properties origin) slot)
  | union {members : List Ty} (slot : Slot) (alternatives : Alternatives members)
      (members_wellFormed : ∀ t ∈ members, WellFormed t) : WellFormed (.mk (.union members) slot)

namespace WellFormed

variable {t : Ty}

/-- The place does not matter. -/
theorem mk (h : t.WellFormed) (slot : Slot) : WellFormed (.mk t.kind slot) := by
  cases h with
  | unknown _ => exact .unknown slot
  | scalar s _ => exact .scalar s slot
  | array origin _ halone hitem hkey hentries => exact .array origin slot halone hitem hkey hentries
  | object origin _ hproperties => exact .object origin slot hproperties
  | union _ hmembers hwf => exact .union slot hmembers hwf

theorem withRequired (h : t.WellFormed) (required : Bool) : (t.withRequired required).WellFormed :=
  h.mk _

theorem withOrigin (h : t.WellFormed) (origin : Option String) :
    (t.withOrigin origin).WellFormed := by
  cases h with
  | unknown slot => exact .unknown slot
  | scalar s slot => exact .scalar s slot
  | array _ slot halone hitem hkey hentries => exact .array origin slot halone hitem hkey hentries
  | object _ slot hproperties => exact .object origin slot hproperties
  | union slot hmembers hwf => exact .union slot hmembers hwf

/-- Members of a well-formed type are well-formed and no unions. -/
theorem members (h : t.WellFormed) : ∀ m ∈ t.members, m.WellFormed ∧ m.isUnion = false := by
  intro m hm
  cases h with
  | union slot hmembers hwf => exact ⟨hwf m hm, hmembers.flat m hm⟩
  | unknown slot =>
    rw [List.mem_singleton.1 hm]
    exact ⟨.unknown slot, rfl⟩
  | scalar s slot =>
    rw [List.mem_singleton.1 hm]
    exact ⟨.scalar s slot, rfl⟩
  | array origin slot halone hitem hkey hentries =>
    rw [List.mem_singleton.1 hm]
    exact ⟨.array origin slot halone hitem hkey hentries, rfl⟩
  | object origin slot hproperties =>
    rw [List.mem_singleton.1 hm]
    exact ⟨.object origin slot hproperties, rfl⟩

end WellFormed

/-! ## Building types -/

theorem wellFormed_unknown : Ty.unknown.WellFormed := .unknown {}

theorem wellFormed_scalar (kind : ScalarKind) : (Ty.scalar kind).WellFormed := .scalar _ _

theorem wellFormed_getD {o : Option Ty} {t : Ty} (h : ∀ u, o = some u → u.WellFormed)
    (ht : t.WellFormed) : (o.getD t).WellFormed := by
  cases o with
  | none => exact ht
  | some u => exact h u rfl

theorem wellFormed_keyed {key : Option Ty} {item : Ty} (hkey : ∀ t, key = some t → t.WellFormed)
    (hitem : item.WellFormed) : (Ty.keyed key item).WellFormed := by
  refine .array none {} nofun ?_ hkey nofun
  intro t ht
  cases ht
  exact hitem

theorem wellFormed_list {item : Ty} (hitem : item.WellFormed) : (Ty.list item).WellFormed :=
  wellFormed_keyed nofun hitem

theorem wellFormed_shape {entries : Entries Ty} (h : ∀ e ∈ entries, e.2.WellFormed) :
    (Ty.shape entries).WellFormed := by
  refine .array none {} (fun _ => ⟨rfl, rfl⟩) nofun nofun ?_
  intro es hes
  cases hes
  exact h

theorem wellFormed_object {properties : Entries Ty} (h : ∀ e ∈ properties, e.2.WellFormed)
    (origin : Option String) : (Ty.object properties origin).WellFormed :=
  .object origin {} h

/-! ## Unions -/

theorem pairwise_addDistinct {ts : List Ty} (h : ts.Pairwise fun a b => a.same b = false) (t : Ty) :
    (addDistinct ts t).Pairwise fun a b => a.same b = false := by
  cases hany : ts.any (·.same t) with
  | true =>
    rw [addDistinct_of_any hany]
    exact h
  | false =>
    rw [addDistinct_of_not_any hany, List.pairwise_append]
    refine ⟨h, List.pairwise_singleton _ t, ?_⟩
    intro a ha b hb
    rw [List.mem_singleton.1 hb]
    exact List.any_eq_false.1 hany a ha |> Bool.eq_false_iff.2

/-- No two types of a list without repetitions are equal. -/
theorem pairwise_distinct (ts : List Ty) : (distinct ts).Pairwise fun a b => a.same b = false := by
  suffices key : ∀ seen : List Ty, (seen.Pairwise fun a b => a.same b = false) →
      (ts.foldl addDistinct seen).Pairwise fun a b => a.same b = false from key [] List.Pairwise.nil
  induction ts with
  | nil => exact fun seen hseen => hseen
  | cons t rest ih => exact fun seen hseen => ih _ (pairwise_addDistinct hseen t)

/-- Of unequal types nothing is dropped. -/
theorem distinct_of_pairwise {ts : List Ty} (h : ts.Pairwise fun a b => a.same b = false) :
    distinct ts = ts := by
  suffices key : ∀ seen : List Ty, ((seen ++ ts).Pairwise fun a b => a.same b = false) →
      ts.foldl addDistinct seen = seen ++ ts from key [] h
  induction ts with
  | nil => simp
  | cons t rest ih =>
    intro seen hseen
    have hany : seen.any (·.same t) = false := by
      rw [List.any_eq_false]
      intro a ha
      simpa using (List.pairwise_append.1 hseen).2.2 a ha t List.mem_cons_self
    rw [List.foldl_cons, addDistinct_of_not_any hany,
      ih (List.pairwise_cons.1 h).2 _ (by simpa using hseen)]
    simp

/-- A type that is no union is its only member. -/
theorem members_of_not_isUnion {t : Ty} (h : t.isUnion = false) : t.members = [t] := by
  obtain ⟨k, slot⟩ := t
  cases k with
  | union members => cases h
  | unknown | scalar | array | object => rfl

theorem Alternatives.pair {t u : Ty} (ht : t.isUnion = false) (hu : u.isUnion = false)
    (hsame : t.same u = false) : Alternatives [t, u] :=
  ⟨Nat.le_refl 2, by simp [ht, hu], List.pairwise_pair.2 hsame⟩

/-- Alternatives are the members of their union. -/
theorem Alternatives.union_eq {ts : List Ty} (h : Alternatives ts) :
    union ts = ofKind (.union ts) := by
  have hflat : ts.flatMap Ty.members = ts := by
    rw [List.flatMap_congr fun t ht => members_of_not_isUnion (h.flat t ht),
      List.flatMap_singleton']
  rw [union, hflat, distinct_of_pairwise h.unequal]
  rcases ts with _ | ⟨t, _ | ⟨u, rest⟩⟩
  · exact absurd h.two_le (by simp)
  · exact absurd h.two_le (by simp)
  · rfl

theorem wellFormed_ofMembers {ts : List Ty} (hwf : ∀ t ∈ ts, t.WellFormed)
    (hflat : ∀ t ∈ ts, t.isUnion = false) (hunequal : ts.Pairwise fun a b => a.same b = false) :
    (ofMembers ts).WellFormed := by
  match ts with
  | [] => exact wellFormed_unknown
  | [t] => exact hwf t List.mem_cons_self
  | t :: u :: rest =>
    have hlength : 2 ≤ (t :: u :: rest).length := by simp
    exact .union {} ⟨hlength, hflat, hunequal⟩ hwf

/-- A union of well-formed types is well-formed. -/
theorem wellFormed_union {ts : List Ty} (h : ∀ t ∈ ts, t.WellFormed) : (union ts).WellFormed := by
  have hmembers : ∀ m ∈ distinct (ts.flatMap Ty.members), m.WellFormed ∧ m.isUnion = false := by
    intro m hm
    obtain ⟨t, ht, hmt⟩ := List.mem_flatMap.1 (mem_of_mem_distinct hm)
    exact (h t ht).members m hmt
  exact wellFormed_ofMembers (fun m hm => (hmembers m hm).1) (fun m hm => (hmembers m hm).2)
    (pairwise_distinct _)

theorem wellFormed_union_pair {a b : Ty} (ha : a.WellFormed) (hb : b.WellFormed) :
    (union [a, b]).WellFormed :=
  wellFormed_union (List.forall_mem_cons.2 ⟨ha, List.forall_mem_singleton.2 hb⟩)

theorem WellFormed.nullable {t : Ty} (h : t.WellFormed) : t.nullable.WellFormed := by
  rw [Ty.nullable]
  split
  · exact h
  · exact (wellFormed_union_pair (h.withRequired false) (wellFormed_scalar .null)).withRequired _

/-! ## Fields -/

/-- What is found under a name is well-formed, also if nothing is. -/
theorem wellFormed_get?_getD {es : Entries Ty} (h : ∀ e ∈ es, e.2.WellFormed) (name : String) :
    ((Entries.get? es name).getD unknown).WellFormed :=
  wellFormed_getD (fun u hu => h (name, u) (Entries.mem_of_get?_eq_some hu)) wellFormed_unknown

theorem WellFormed.field {t : Ty} (h : t.WellFormed) (name : String) :
    (t.field name).WellFormed := by
  induction h with
  | unknown slot => simpa [Ty.field] using wellFormed_unknown
  | scalar s slot => simpa [Ty.field] using wellFormed_unknown
  | @array item key shape origin slot _ hitem _ hentries _ _ _ =>
    cases shape with
    | none =>
      rw [Ty.field]
      exact wellFormed_getD hitem wellFormed_unknown
    | some es =>
      rw [Ty.field]
      exact wellFormed_get?_getD (hentries es rfl) name
  | object origin slot hproperties _ =>
    rw [Ty.field]
    exact wellFormed_get?_getD hproperties name
  | union slot _ _ ih =>
    rw [Ty.field, fieldList_eq_map]
    refine wellFormed_union fun u hu => ?_
    obtain ⟨m, hm, rfl⟩ := List.mem_map.1 hu
    exact (ih m (List.mem_of_mem_filter hm)).withRequired false

/-! ## Merging -/

/-- The entries of a well-formed shape are well-formed. -/
theorem WellFormed.entries {t : Ty} (h : t.WellFormed) {item key : Option Ty} {es : Entries Ty}
    {origin : Option String} (hkind : t.kind = .array item key (some es) origin) :
    ∀ e ∈ es, e.2.WellFormed := by
  cases h with
  | array _ _ _ _ _ hentries =>
    cases hkind
    exact hentries es rfl
  | _ => cases hkind

theorem WellFormed.merge {a b : Ty} (ha : a.WellFormed) (hb : b.WellFormed) (depth : Nat) :
    (merge depth a b).WellFormed := by
  induction depth generalizing a b with
  | zero => exact wellFormed_unknown
  | succ depth ih =>
    rw [merge_succ]
    refine mergeStep_cases ?_ ?_ ?_ ?_
    · exact fun _ => ha
    · -- two shapes are merged entry by entry, with less depth
      intro item key item' key' as bs oa ob hakind hbkind
      refine .array _ _ (fun _ => ⟨rfl, rfl⟩) nofun nofun ?_
      rintro es ⟨⟩
      exact forall_mem_mergeShapes (ha.entries hakind) (hb.entries hbkind)
        (fun _ ht => ht.withRequired false) fun x y hx hy => ih hx hy
    · exact fun _ _ _ => .scalar _ _
    · exact (wellFormed_union_pair ha hb).withRequired _

theorem wellFormed_mergeAll? {depth : Nat} {ts : List Ty} (h : ∀ t ∈ ts, t.WellFormed) {u : Ty}
    (hu : mergeAll? depth ts = some u) : u.WellFormed := by
  cases ts with
  | nil => cases hu
  | cons t rest =>
    cases hu
    have hrest : ∀ t ∈ rest, t.WellFormed := fun t ht => h t (List.mem_cons_of_mem _ ht)
    exact List.foldlRecOn rest (merge depth) (h t List.mem_cons_self)
      fun a ha b hb => ha.merge (hrest b hb) depth

theorem WellFormed.unwrap {t : Ty} (h : t.WellFormed) (depth : Nat) :
    (unwrap depth t).WellFormed := by
  induction depth generalizing t with
  | zero => exact wellFormed_unknown
  | succ depth ih =>
    rw [Ty.unwrap]
    split
    · next shape origin hkind =>
      have hentries := h.entries hkind
      refine .array _ _ nofun ?_ ?_ nofun
      · rintro item hitem
        cases hitem
        refine wellFormed_getD (fun u hu => wellFormed_mergeAll? ?_ hu) wellFormed_unknown
        intro u hu
        obtain ⟨v, hv, rfl⟩ := List.mem_map.1 hu
        obtain ⟨e, he, rfl⟩ := List.mem_map.1 hv
        exact (hentries e he).withRequired false
      · intro key hkey
        unfold keyTypeOf at hkey
        split at hkey
        · cases hkey
        · split at hkey
          · cases hkey
            exact wellFormed_scalar .integer
          · cases hkey
            exact wellFormed_scalar .string
    · next members hkind =>
      refine (wellFormed_union ?_).withRequired _
      intro u hu
      obtain ⟨m, hm, rfl⟩ := List.mem_map.1 hu
      have hmember : m ∈ t.members := by
        rw [Ty.members, hkind]
        exact hm
      exact ih (h.members m hmember).1
    · exact h

/-! ## Literal values -/

/-- The type of a literal value is well-formed. -/
theorem wellFormed_ofJson : ∀ j : Json, (ofJson j).WellFormed
  | .null | .bool _ | .int _ | .float _ | .str _ => .scalar _ _
  | .arr xs => by
    rw [ofJson]
    exact wellFormed_shape (forall_ofJsonList 0 fun x _hx =>
      (wellFormed_ofJson x).withRequired true)
  | .obj ms => by
    rw [ofJson, ofJsonMembers_eq_map]
    refine wellFormed_shape fun e he => ?_
    obtain ⟨m, _hm, rfl⟩ := List.mem_map.1 he
    exact (wellFormed_ofJson m.2).withRequired true
termination_by j => sizeOf j
decreasing_by
  · have := List.sizeOf_lt_of_mem _hx
    simp only [Json.arr.sizeOf_spec]
    omega
  · have := sizeOf_snd_lt_of_mem _hm
    simp only [Json.obj.sizeOf_spec]
    omega

/-! ## Declared types and envelopes -/

/-- What a contract declares is well-formed. -/
theorem wellFormed_returnOf (method : String) : (Contract.returnOf method).WellFormed := by
  unfold Contract.returnOf
  split
  case h_2 =>
    refine wellFormed_union ?_
    simp [Ty.integer, Ty.float, wellFormed_scalar]
  case h_3 | h_4 => exact (wellFormed_scalar .float).nullable
  case h_5 | h_6 =>
    refine wellFormed_union ?_
    simp [Ty.integer, Ty.float, Ty.string, Ty.null, wellFormed_scalar]
  case h_19 => exact wellFormed_unknown
  -- all other methods return a scalar
  all_goals exact wellFormed_scalar _

theorem wellFormed_declaredReturn? {method : String} {t : Ty}
    (h : Contract.declaredReturn? method = some t) : t.WellFormed := by
  obtain ⟨c, -, hc⟩ := List.exists_of_findSome?_eq_some h
  unfold Contract.returns? at hc
  split at hc
  · cases hc
    exact wellFormed_returnOf method
  · cases hc

end Ty

/-- An optional type is well-formed if there is one. -/
abbrev OptionalType (t : Option Ty) : Prop := ∀ u, t = some u → u.WellFormed

theorem optionalType_none : OptionalType none := by
  intro u hu
  cases hu

theorem optionalType_some {t : Ty} (h : t.WellFormed) : OptionalType (some t) := by
  intro u hu
  cases hu
  exact h

theorem optionalType_map {o : Option Ty} {f : Ty → Ty} (ho : OptionalType o)
    (hf : ∀ t, t.WellFormed → (f t).WellFormed) : OptionalType (o.map f) := by
  cases o with
  | none => exact optionalType_none
  | some t => exact optionalType_some (hf t (ho t rfl))

/-- The envelope around well-formed rows is well-formed. -/
theorem PageKind.wellFormed_envelope (kind : PageKind) {row : Ty} (h : row.WellFormed) :
    (kind.envelope row).WellFormed := by
  have hpresent {entries : Entries Ty} (hentries : ∀ e ∈ entries, e.2.WellFormed) :
      ∀ e ∈ present entries, e.2.WellFormed := by
    intro e he
    obtain ⟨e', he', rfl⟩ := List.mem_map.1 he
    exact (hentries e' he').withRequired true
  have hscalar {s : Scalar} : (Ty.ofKind (.scalar s)).WellFormed := .scalar s {}
  have hnullable {s : Scalar} : (Ty.ofKind (.scalar s)).nullable.WellFormed := hscalar.nullable
  have hrows : (rows row).WellFormed := (Ty.wellFormed_list h).withOrigin _
  have hlink : (Ty.list link).WellFormed := by
    refine Ty.wellFormed_list (Ty.wellFormed_object (hpresent ?_) none)
    simp [url, Ty.formatted, Ty.string, Ty.boolean, Ty.scalar, hscalar, hnullable]
  refine Ty.wellFormed_object (hpresent ?_) _
  cases kind with
  | lengthAware =>
    simp [entries, url, pageNumber, Ty.formatted, Ty.integerFrom, Ty.integer, Ty.scalar, hscalar,
      hnullable, hrows, hlink]
  | simple =>
    simp [entries, url, pageNumber, Ty.formatted, Ty.integerFrom, Ty.integer, Ty.scalar, hscalar,
      hnullable, hrows]
  | cursor =>
    simp [entries, url, Ty.formatted, Ty.integer, Ty.string, Ty.scalar, hscalar, hnullable, hrows]

end QueryTypes
