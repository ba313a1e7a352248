import QueryTypes.Proofs.MergeOrder

/-!
# Laws of unions

A union is built from a list of types by taking their members one by one and dropping what equals an
earlier one. So types may be joined in steps: a union that stands in the list is as good as the
types it was built from (`Ty.union_union_append`). Neither the order of the types nor how often they
occur matters, except to the order of the members (`Ty.sameMembers_union`). And a type that has been
given null does not take it a second time (`Ty.nullable_nullable`). `Ty.union_laws` states the three
together.

The first law asks that no member of a union is a union, for only one level is taken apart, and that
no union is empty, for a union of nothing is unknown. The second asks that equality is an
equivalence, which it is where maps are maps proper. The third asks for nothing.
-/

set_option autoImplicit false

namespace QueryTypes.Ty

/-- If the type is a union, then of two members at least, none of them a union and no two of them
equal. -/
def HasAlternatives (t : Ty) : Prop := ∀ ms, t.kind = .union ms → Alternatives ms

/-! ## Members -/

namespace HasAlternatives

variable {t : Ty}

theorem members_ne_nil (h : t.HasAlternatives) : t.members ≠ [] := by
  obtain ⟨k, slot⟩ := t
  cases k with
  | union ms =>
    intro hnil
    have htwo : 2 ≤ ms.length := (h ms rfl).two_le
    have hms : ms = [] := hnil
    rw [hms] at htwo
    cases htwo
  | unknown | scalar | array | object => exact List.cons_ne_nil _ _

theorem flat (h : t.HasAlternatives) : ∀ m ∈ t.members, m.isUnion = false := by
  obtain ⟨k, slot⟩ := t
  cases k with
  | union ms => exact (h ms rfl).flat
  | unknown | scalar | array | object => exact List.forall_mem_singleton.2 rfl

end HasAlternatives

theorem WellFormed.hasAlternatives {t : Ty} (h : t.WellFormed) : t.HasAlternatives := by
  rintro ms hms
  cases h with
  | union slot halternatives _ =>
    cases hms
    exact halternatives
  | unknown | scalar | array | object => cases hms

/-- The type that is made of members has these members. -/
theorem members_ofMembers {ms : List Ty} (hne : ms ≠ []) (hflat : ∀ m ∈ ms, m.isUnion = false) :
    (ofMembers ms).members = ms := by
  match ms with
  | [] => exact absurd rfl hne
  | [m] => exact members_of_not_isUnion (hflat m List.mem_cons_self)
  | _ :: _ :: _ => rfl

/-! ## Dropping repetitions -/

theorem distinct_append (ts us : List Ty) :
    distinct (ts ++ us) = us.foldl addDistinct (distinct ts) :=
  List.foldl_append

theorem distinct_append_singleton (ts : List Ty) (t : Ty) :
    distinct (ts ++ [t]) = addDistinct (distinct ts) t := distinct_append ts [t]

theorem distinct_distinct (ts : List Ty) : distinct (distinct ts) = distinct ts :=
  distinct_of_pairwise (pairwise_distinct ts)

/-- Repetitions may be dropped in a first part before they are dropped in the whole. -/
theorem distinct_distinct_append (ts us : List Ty) :
    distinct (distinct ts ++ us) = distinct (ts ++ us) := by
  rw [distinct_append, distinct_append, distinct_distinct]

/-! ## Unions of unions -/

section Union

variable {ts : List Ty}

theorem flat_flatMap_members (h : ∀ t ∈ ts, t.HasAlternatives) :
    ∀ m ∈ distinct (ts.flatMap members), m.isUnion = false := by
  intro m hm
  obtain ⟨t, ht, hmt⟩ := List.mem_flatMap.1 (mem_of_mem_distinct hm)
  exact (h t ht).flat m hmt

/-- The members of a union of types are the members of these types, each once. -/
theorem members_union (hne : ts ≠ []) (h : ∀ t ∈ ts, t.HasAlternatives) :
    (union ts).members = distinct (ts.flatMap members) := by
  obtain ⟨t, ht⟩ := List.exists_mem_of_ne_nil ts hne
  refine members_ofMembers (distinct_ne_nil fun hnil => ?_) (flat_flatMap_members h)
  exact (h t ht).members_ne_nil (List.flatMap_eq_nil_iff.1 hnil t ht)

/-- A union in a list of types may be replaced by what it was built from. -/
theorem union_union_append (hne : ts ≠ []) (h : ∀ t ∈ ts, t.HasAlternatives) (us : List Ty) :
    union ([union ts] ++ us) = union (ts ++ us) := by
  have hmembers : ([union ts] ++ us).flatMap members =
      distinct (ts.flatMap members) ++ us.flatMap members := by
    rw [List.flatMap_append, List.flatMap_singleton, members_union hne h]
  rw [union, hmembers, distinct_distinct_append, ← List.flatMap_append]
  rfl

end Union

/-! ## Order and repetition -/

/-- Types that are equal up to the order of their members: both are unions or neither is, in the
same place, and the members of the one equal those of the other after they have been put in
order. -/
structure SameMembers (a b : Ty) : Prop where
  slot : a.slot = b.slot
  isUnion : a.isUnion = b.isUnion
  members : ∃ ms, a.members.Perm ms ∧ List.Forall₂ (fun m m' => m.same m' = true) ms b.members

theorem slot_eq_of_same {a b : Ty} (h : a.same b = true) : a.slot = b.slot := by
  obtain ⟨k, s⟩ := a
  obtain ⟨k', s'⟩ := b
  rw [same, Bool.and_eq_true, beq_iff_eq] at h
  exact h.2

theorem sameMembers_ofMembers {ms ms' ms'' : List Ty} (hflat : ∀ m ∈ ms, m.isUnion = false)
    (hflat' : ∀ m ∈ ms', m.isUnion = false) (horder : ms.Perm ms'')
    (h : List.Forall₂ (fun m m' => m.same m' = true) ms'' ms') :
    SameMembers (ofMembers ms) (ofMembers ms') := by
  cases h with
  | nil =>
    rw [horder.eq_nil]
    exact ⟨rfl, rfl, [unknown], List.Perm.refl _, .cons steady_unknown .nil⟩
  | @cons m m' _ _ hfirst hrest =>
    cases hrest with
    | nil =>
      -- a single member stands for itself on both sides
      obtain rfl := List.perm_singleton.1 horder
      have hm : m.isUnion = false := hflat m List.mem_cons_self
      have hm' : m'.isUnion = false := hflat' m' List.mem_cons_self
      refine ⟨slot_eq_of_same hfirst, hm.trans hm'.symm, [m], ?_, ?_⟩
      · rw [show (ofMembers [m]).members = [m] from members_of_not_isUnion hm]
      · rw [show (ofMembers [m']).members = [m'] from members_of_not_isUnion hm']
        exact .cons hfirst .nil
    | cons hsecond hrest =>
      rcases ms with _ | ⟨n, _ | ⟨n', rest⟩⟩
      · cases horder.length_eq
      · cases horder.length_eq
      · exact ⟨rfl, rfl, _, horder, .cons hfirst (.cons hsecond hrest)⟩

/-- Which types stand in the list decides about their union, up to the order of its members. -/
theorem sameMembers_union {ts us : List Ty} (halternatives : ∀ t ∈ ts, t.HasAlternatives)
    (hnamed : ∀ t ∈ ts, t.WellNamed) (h : ∀ t, t ∈ ts ↔ t ∈ us) :
    SameMembers (union ts) (union us) := by
  have hmembers (m : Ty) : m ∈ ts.flatMap members ↔ m ∈ us.flatMap members := by
    simp only [List.mem_flatMap, h]
  have hnamed' : ∀ m ∈ ts.flatMap members, m.WellNamed := by
    intro m hm
    obtain ⟨t, ht, hmt⟩ := List.mem_flatMap.1 hm
    exact (hnamed t ht).members m hmt
  obtain ⟨ms, horder, hsame⟩ := exists_perm_distinct hnamed' hmembers
  exact sameMembers_ofMembers (flat_flatMap_members halternatives)
    (flat_flatMap_members fun u hu => halternatives u ((h u).2 hu)) horder hsame

/-! ## Null -/

/-- What equals null is null. -/
theorem isNull_of_same_null {t : Ty} (h : t.same null = true) : t.isNull = true := by
  obtain ⟨k, slot⟩ := t
  cases k with
  | scalar s =>
    have hs : s.same (.ofKind .null) = true := by
      simp only [same, null, scalar, ofKind, Kind.same, Bool.and_eq_true] at h
      exact h.1
    have hkind : s.kind = .null := (Scalar.same_iff.1 hs).1
    simp [isNull, scalarKind?, hkind]
  | unknown | array | object | union => simp [same, null, scalar, ofKind, Kind.same] at h

/-- A type that is not null, with null beside its members. -/
theorem nullable_of_not_isNull {t : Ty} (h : t.isNull = false) :
    t.nullable =
      (ofMembers (addDistinct (distinct (t.withRequired false).members) null)).withRequired
        t.required := by
  have hmembers : [t.withRequired false, null].flatMap members =
      (t.withRequired false).members ++ [null] := rfl
  rw [nullable, h, union, hmembers, distinct_append_singleton]
  rfl

/-- A list to which null has been added holds it, or holds a type equal to it. -/
theorem any_same_addDistinct_null (ts : List Ty) :
    (addDistinct ts null).any (·.same null) = true := by
  cases hany : ts.any (·.same null) with
  | true => rw [addDistinct_of_any hany, hany]
  | false =>
    have hnull : null.same null = true := steady_null
    rw [addDistinct_of_not_any hany, List.any_append, List.any_cons, hnull]
    simp

/-- Null is added once. -/
theorem nullable_nullable (t : Ty) : t.nullable.nullable = t.nullable := by
  cases hnull : t.isNull with
  | true => rw [nullable_of_isNull hnull, nullable_of_isNull hnull]
  | false =>
    rw [nullable_of_not_isNull hnull]
    have hunequal := pairwise_addDistinct (pairwise_distinct (t.withRequired false).members) null
    have hholds := any_same_addDistinct_null (distinct (t.withRequired false).members)
    generalize addDistinct (distinct (t.withRequired false).members) null = ms at hunequal hholds
    match ms with
    | [] => cases hholds
    | [m] =>
      -- the type was a union of null alone, and what is left is null itself
      have hm : m.isNull = true := isNull_of_same_null (by simpa using hholds)
      exact nullable_of_isNull hm
    | m :: m' :: rest =>
      rw [nullable_of_not_isNull rfl]
      have hmembers :
          (((ofMembers (m :: m' :: rest)).withRequired t.required).withRequired false).members =
        m :: m' :: rest := rfl
      rw [hmembers, distinct_of_pairwise hunequal, addDistinct_of_any hholds]
      rfl

/-! ## The laws -/

/-- Building unions is associative, and up to the order of the members it depends only on which
types there are, not on their order or on how often each occurs; and null is added at most once. -/
theorem union_laws :
    (∀ xs ys : List Ty, xs ≠ [] → (∀ t ∈ xs, t.HasAlternatives) →
      union ([union xs] ++ ys) = union (xs ++ ys)) ∧
    (∀ xs ys : List Ty, (∀ t ∈ xs, t.HasAlternatives) → (∀ t ∈ xs, t.WellNamed) →
      (∀ t, t ∈ xs ↔ t ∈ ys) → SameMembers (union xs) (union ys)) ∧
    ∀ t : Ty, t.nullable.nullable = t.nullable := by
  refine ⟨?_, ?_, nullable_nullable⟩
  · intro xs ys hne halternatives
    exact union_union_append hne halternatives ys
  · intro xs ys halternatives hnamed hmem
    exact sameMembers_union halternatives hnamed hmem

/-- A record of an identifier and a name. -/
def buyer : Ty := object [("id", integer), ("name", string)] none

/-- The same record with its properties in the other order: an equal type, but not the same one. -/
def turnedBuyer : Ty := object [("name", string), ("id", integer)] none

/-- Of two equal records a union keeps the one that comes first. -/
theorem union_laws_records :
    union ([union [buyer, integer.nullable]] ++ [turnedBuyer]) =
      union [buyer, integer.nullable, turnedBuyer] ∧
    SameMembers (union [buyer, integer.nullable, turnedBuyer])
      (union [turnedBuyer, integer.nullable, turnedBuyer, buyer]) ∧
    (union [buyer, integer.nullable, turnedBuyer]).members = [buyer, integer, null] ∧
    (union [turnedBuyer, integer.nullable, turnedBuyer, buyer]).members =
      [turnedBuyer, integer, null] ∧
    buyer.nullable.nullable = buyer.nullable := by
  obtain ⟨hassoc, hsame, hnullable⟩ := union_laws
  have hinteger : integer.nullable = .mk (.union [integer, null]) {} := by cbv
  have halternatives : ∀ t ∈ [buyer, integer.nullable, turnedBuyer], t.HasAlternatives := by
    simp only [List.forall_mem_cons, List.not_mem_nil, false_implies, implies_true, and_true]
    refine ⟨?_, (wellFormed_scalar .integer).nullable.hasAlternatives, ?_⟩
    · intro members hunion
      cases hunion
    · intro members hunion
      cases hunion
  have hnamed : ∀ t ∈ [buyer, integer.nullable, turnedBuyer], t.WellNamed := by
    have hrecord {properties : Entries Ty} (hkeys : properties.keys.Nodup)
        (h : ∀ e ∈ properties, e.2.WellNamed) : (object properties none).WellNamed :=
      .object none {} hkeys h
    simp only [List.forall_mem_cons, List.not_mem_nil, false_implies, implies_true, and_true]
    refine ⟨hrecord (by decide) ?_, ?_, hrecord (by decide) ?_⟩
    · exact List.forall_mem_cons.2 ⟨.scalar _ _, List.forall_mem_singleton.2 (.scalar _ _)⟩
    · rw [hinteger]
      exact .union _
        (List.forall_mem_cons.2 ⟨.scalar _ _, List.forall_mem_singleton.2 (.scalar _ _)⟩)
    · exact List.forall_mem_cons.2 ⟨.scalar _ _, List.forall_mem_singleton.2 (.scalar _ _)⟩
  refine ⟨hassoc [buyer, integer.nullable] [turnedBuyer] (List.cons_ne_nil _ _) ?_,
    hsame [buyer, integer.nullable, turnedBuyer] _ halternatives hnamed ?_, by cbv, by cbv,
    hnullable buyer⟩
  · intro t ht
    exact halternatives t (List.mem_append_left [turnedBuyer] ht)
  · intro t
    simp only [List.mem_cons, List.not_mem_nil, or_false]
    tauto

end QueryTypes.Ty
