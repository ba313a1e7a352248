import Mathlib.Data.List.Forall2
import QueryTypes.Proofs.Documents
import QueryTypes.Proofs.Structure

/-!
# Equality of types

Equality of types compares doubles by value and looks every entry of a map up by its name. So a type
in which a map gives a name twice need not equal itself; one that does is called steady
(`Ty.Steady`).

If the maps inside a type are maps proper (`Ty.WellNamed`), then the types it equals are those that
have equal parts: the same names with equal types under them, and equal members in the same order
(`Ty.WellNamed.same_rec`). From this it follows that equality is an equivalence among such types
(`Ty.WellNamed.steady`, `Ty.WellNamed.same_symm`, `Ty.WellNamed.same_trans`).
-/

set_option autoImplicit false

namespace QueryTypes

variable {α : Type}

/-! ## Steady types -/

theorem Scalar.same_self (s : Scalar) : s.same s = true := by
  have hliterals (ls : List Literal) : sameLiterals ls ls = true := by
    induction ls with
    | nil => rfl
    | cons l rest ih =>
      have hself : l.cmp l = .eq := Std.ReflCmp.compare_self
      rw [sameLiterals, ih, Literal.same, hself]
      rfl
  have hbound (b : Option Double) : sameBound b b = true := by
    cases b with
    | none => rfl
    | some x => exact x.same_refl
  rw [same, hliterals, hbound, hbound]
  simp

/-- Types that equal themselves. -/
def Ty.Steady (t : Ty) : Prop := t.same t = true

instance : DecidablePred Ty.Steady := fun t => inferInstanceAs (Decidable (t.same t = true))

namespace Ty

theorem steady_mk {k : Kind} {slot : Slot} : Steady (.mk k slot) ↔ k.same k = true := by
  rw [Steady, same, beq_self_eq_true, Bool.and_true]

/-- The place does not matter. -/
theorem Steady.mk {t : Ty} (h : t.Steady) (slot : Slot) : Steady (.mk t.kind slot) := by
  obtain ⟨k, _⟩ := t
  exact steady_mk.2 (steady_mk.1 h)

theorem steady_scalar (s : Scalar) (slot : Slot) : Steady (.mk (.scalar s) slot) := by
  rw [steady_mk, Kind.same]
  exact s.same_self

theorem steady_unknown : Ty.unknown.Steady := by
  rw [unknown, ofKind, steady_mk, Kind.same]

theorem steady_null : Ty.null.Steady := steady_scalar _ _

theorem sameOption_self {o : Option Ty} (h : ∀ t, o = some t → t.Steady) :
    sameOption o o = true := by
  cases o with
  | none => rw [sameOption]
  | some t =>
    rw [sameOption]
    exact h t rfl

/-- In a map proper every entry is found under its name. -/
theorem sameEntries_self {es : Entries Ty} (h : es.MapOf Steady) : sameEntries es es = true := by
  rw [sameEntries_iff]
  intro e he
  exact ⟨e.2, h.distinct.get?_eq_some he, h.values e he⟩

theorem steady_array {item key : Option Ty} {shape : Option (List (String × Ty))}
    (origin : Option String) (slot : Slot) (hitem : ∀ t, item = some t → t.Steady)
    (hkey : ∀ t, key = some t → t.Steady)
    (hshape : ∀ es, shape = some es → Entries.MapOf Steady es) :
    Steady (.mk (.array item key shape origin) slot) := by
  have hsame : sameShape shape shape = true := by
    cases shape with
    | none => rw [sameShape]
    | some es => rw [sameShape, sameEntries_self (hshape es rfl), beq_self_eq_true, Bool.and_true]
  rw [steady_mk, Kind.same, sameOption_self hitem, sameOption_self hkey, hsame, beq_self_eq_true]
  rfl

theorem steady_object {properties : Entries Ty} (origin : Option String) (slot : Slot)
    (h : properties.MapOf Steady) : Steady (.mk (.object properties origin) slot) := by
  rw [steady_mk, Kind.same, sameEntries_self h, beq_self_eq_true, beq_self_eq_true]
  rfl

theorem steady_members {members : List Ty} {slot : Slot} :
    Steady (.mk (.union members) slot) ↔ ∀ m ∈ members, m.Steady := by
  rw [steady_mk, Kind.same]
  induction members with
  | nil => simp [sameList]
  | cons m rest ih => rw [sameList, Bool.and_eq_true, ih, List.forall_mem_cons, Steady]

theorem composed_steady : Composed Steady where
  unknown slot := by rw [steady_mk, Kind.same]
  scalar := steady_scalar
  array := steady_array
  object := steady_object
  union _ := steady_members.2

theorem Steady.members {t : Ty} (h : t.Steady) : ∀ m ∈ t.members, m.Steady := by
  obtain ⟨k, slot⟩ := t
  cases k with
  | union members => exact steady_members.1 h
  | unknown | scalar | array | object => exact List.forall_mem_singleton.2 h

theorem steady_ofMembers {ts : List Ty} (h : ∀ t ∈ ts, t.Steady) : (ofMembers ts).Steady := by
  rcases ts with _ | ⟨t, _ | ⟨u, rest⟩⟩
  · exact steady_unknown
  · exact h t List.mem_cons_self
  · exact steady_members.2 h

theorem steady_union {ts : List Ty} (h : ∀ t ∈ ts, t.Steady) : (Ty.union ts).Steady := by
  apply steady_ofMembers
  intro m hm
  obtain ⟨t, ht, hmt⟩ := List.mem_flatMap.1 (mem_of_mem_distinct hm)
  exact (h t ht).members m hmt

end Ty

/-! ## Equal scalars -/

namespace Scalar

theorem sameLiterals_iff {ls ls' : List Literal} :
    sameLiterals ls ls' = true ↔ List.Forall₂ (fun a b => Literal.cmp a b = .eq) ls ls' := by
  induction ls generalizing ls' with
  | nil => cases ls' <;> simp [sameLiterals]
  | cons l rest ih => cases ls' <;> simp [sameLiterals, Literal.same, ih]

theorem sameBound_iff {x y : Option Double} :
    sameBound x y = true ↔ x.map Double.rank = y.map Double.rank := by
  cases x <;> cases y <;> simp [sameBound, Double.same_iff]

theorem same_iff {s t : Scalar} :
    s.same t = true ↔ s.kind = t.kind ∧
      List.Forall₂ (fun a b => Literal.cmp a b = .eq) s.literals.toList t.literals.toList ∧
        s.format = t.format ∧ s.minimum.map Double.rank = t.minimum.map Double.rank ∧
          s.maximum.map Double.rank = t.maximum.map Double.rank ∧ s.pattern = t.pattern := by
  simp only [same, Bool.and_eq_true, beq_iff_eq, sameLiterals_iff, sameBound_iff, and_assoc]

theorem same_symm {s t : Scalar} (h : s.same t = true) : t.same s = true := by
  obtain ⟨hkind, hliterals, hformat, hminimum, hmaximum, hpattern⟩ := same_iff.1 h
  refine same_iff.2 ⟨hkind.symm, .flip ?_, hformat.symm, hminimum.symm, hmaximum.symm,
    hpattern.symm⟩
  exact hliterals.imp fun _ _ => Std.OrientedCmp.eq_symm

theorem same_trans {s t u : Scalar} (h : s.same t = true) (h' : t.same u = true) :
    s.same u = true := by
  obtain ⟨hkind, hliterals, hformat, hminimum, hmaximum, hpattern⟩ := same_iff.1 h
  obtain ⟨hkind', hliterals', hformat', hminimum', hmaximum', hpattern'⟩ := same_iff.1 h'
  -- only the literals are not simply equal
  refine same_iff.2 ⟨hkind.trans hkind', ?_, hformat.trans hformat', hminimum.trans hminimum',
    hmaximum.trans hmaximum', hpattern.trans hpattern'⟩
  generalize s.literals.toList = ls at hliterals ⊢
  generalize t.literals.toList = ls' at hliterals hliterals'
  generalize u.literals.toList = ls'' at hliterals' ⊢
  induction hliterals generalizing ls'' with
  | nil => exact hliterals'
  | cons hab _ ih =>
    cases hliterals' with
    | cons hbc hrest => exact .cons (Std.TransCmp.eq_trans hab hbc) (ih _ hrest)

end Scalar

/-! ## Equal types -/

/-- Maps proper of the same names, with related values under each of them. -/
structure Entries.Paired (R : α → α → Prop) (es es' : Entries α) : Prop where
  distinct : es.Distinct
  keys : es.keys.Perm es'.keys
  values : ∀ name a a', es.get? name = some a → es'.get? name = some a' → R a a'

namespace Entries.Paired

variable {R : α → α → Prop} {es es' : Entries α} {name : String} {a : α}

theorem exists_right (h : Entries.Paired R es es') (ha : es.get? name = some a) :
    ∃ a', es'.get? name = some a' ∧ R a a' := by
  obtain ⟨a', ha'⟩ := exists_get?_of_mem_keys (h.keys.mem_iff.1 (mem_keys_of_get?_eq_some ha))
  exact ⟨a', ha', h.values name a a' ha ha'⟩

theorem exists_left (h : Entries.Paired R es es') (ha : es'.get? name = some a) :
    ∃ a', es.get? name = some a' ∧ R a' a := by
  obtain ⟨a', ha'⟩ := exists_get?_of_mem_keys (h.keys.mem_iff.2 (mem_keys_of_get?_eq_some ha))
  exact ⟨a', ha', h.values name a' a ha' ha⟩

theorem distinct_right (h : Entries.Paired R es es') : es'.Distinct := h.keys.nodup_iff.1 h.distinct

theorem length_eq (h : Entries.Paired R es es') : es.length = es'.length := by
  simpa [Entries.keys] using h.keys.length_eq

end Entries.Paired

namespace Ty

/-- No map inside a type gives a name twice. -/
inductive WellNamed : Ty → Prop
  | unknown (slot : Slot) : WellNamed (.mk .unknown slot)
  | scalar (s : Scalar) (slot : Slot) : WellNamed (.mk (.scalar s) slot)
  | array {item key : Option Ty} {shape : Option (List (String × Ty))} (origin : Option String)
      (slot : Slot) (item_wellNamed : ∀ t, item = some t → WellNamed t) (key_wellNamed : ∀ t,
      key = some t → WellNamed t) (distinct : ∀ es, shape = some es → Entries.Distinct es)
      (entries_wellNamed : ∀ es, shape = some es → ∀ e ∈ es, WellNamed e.2) :
      WellNamed (.mk (.array item key shape origin) slot)
  | object {properties : List (String × Ty)} (origin : Option String) (slot : Slot)
      (distinct : Entries.Distinct properties)
      (properties_wellNamed : ∀ e ∈ properties, WellNamed e.2) :
      WellNamed (.mk (.object properties origin) slot)
  | union {members : List Ty} (slot : Slot) (members_wellNamed : ∀ t ∈ members, WellNamed t) :
      WellNamed (.mk (.union members) slot)

namespace WellNamed

/-- The place does not matter. -/
theorem withRequired {t : Ty} (h : t.WellNamed) (required : Bool) :
    (t.withRequired required).WellNamed := by
  cases h with
  | unknown slot => exact .unknown _
  | scalar s slot => exact .scalar s _
  | array origin slot hitem hkey hdistinct hentries =>
    exact .array origin _ hitem hkey hdistinct hentries
  | object origin slot hdistinct hproperties => exact .object origin _ hdistinct hproperties
  | union slot hmembers => exact .union _ hmembers

theorem members {t : Ty} (h : t.WellNamed) : ∀ m ∈ t.members, m.WellNamed := by
  cases h with
  | union slot hmembers => exact hmembers
  | unknown slot => exact List.forall_mem_singleton.2 (.unknown slot)
  | scalar s slot => exact List.forall_mem_singleton.2 (.scalar s slot)
  | array origin slot hitem hkey hdistinct hentries =>
    exact List.forall_mem_singleton.2 (.array origin slot hitem hkey hdistinct hentries)
  | object origin slot hdistinct hproperties =>
    exact List.forall_mem_singleton.2 (.object origin slot hdistinct hproperties)

/-- The entries of a shape. -/
theorem entries {t : Ty} (h : t.WellNamed) {item key : Option Ty} {es : Entries Ty}
    {origin : Option String} (hkind : t.kind = .array item key (some es) origin) :
    es.Distinct ∧ ∀ e ∈ es, e.2.WellNamed := by
  cases h with
  | array _ _ _ _ hdistinct hentries =>
    cases hkind
    exact ⟨hdistinct es rfl, hentries es rfl⟩
  | _ => cases hkind

theorem steady {t : Ty} (h : t.WellNamed) : t.Steady := by
  induction h with
  | unknown slot => exact composed_steady.unknown slot
  | scalar s slot => exact steady_scalar s slot
  | array origin slot _ _ hdistinct _ hitem hkey hentries =>
    exact steady_array origin slot hitem hkey fun es hes => ⟨hdistinct es hes, hentries es hes⟩
  | object origin slot hdistinct _ hproperties =>
    exact steady_object origin slot ⟨hdistinct, hproperties⟩
  | union slot _ hmembers => exact steady_members.2 hmembers

end WellNamed

/-- Equal maps proper have the same names. -/
theorem paired_of_sameEntries {R : Ty → Ty → Prop} {es es' : Entries Ty} (hes : es.Distinct)
    (hlength : es.length = es'.length) (h : sameEntries es es' = true)
    (hR : ∀ e ∈ es, ∀ t, e.2.same t = true → R e.2 t) : Entries.Paired R es es' where
  distinct := hes
  keys := keys_perm_of_sameEntries hes hlength h
  values name t t' ht ht' := by
    have hmem := Entries.mem_of_get?_eq_some ht
    obtain ⟨u, hu, hsame⟩ := sameEntries_iff.1 h _ hmem
    rw [Option.some.inj (hu.symm.trans ht')] at hsame
    exact hR _ hmem t' hsame

theorem rel_of_sameOption {R : Ty → Ty → Prop} {o o' : Option Ty}
    (hR : ∀ t, o = some t → ∀ u, t.same u = true → R t u) (h : sameOption o o' = true) :
    o.Rel R o' := by
  cases o with
  | none =>
    cases o' with
    | none => exact .none
    | some t' => simp [sameOption] at h
  | some t =>
    cases o' with
    | none => simp [sameOption] at h
    | some t' =>
      rw [sameOption] at h
      exact .some (hR t rfl t' h)

theorem forall₂_of_sameList {R : Ty → Ty → Prop} {ts ts' : List Ty}
    (hR : ∀ t ∈ ts, ∀ u, t.same u = true → R t u) (h : sameList ts ts' = true) :
    List.Forall₂ R ts ts' := by
  induction ts generalizing ts' with
  | nil =>
    cases ts' with
    | nil => exact .nil
    | cons t' rest' => simp [sameList] at h
  | cons t rest ih =>
    cases ts' with
    | nil => simp [sameList] at h
    | cons t' rest' =>
      rw [sameList, Bool.and_eq_true] at h
      obtain ⟨hhead, hrest⟩ := List.forall_mem_cons.1 hR
      exact .cons (hhead t' h.1) (ih hrest h.2)

/-- What relates types with related parts relates equal types, if the maps inside are maps
proper. -/
@[elab_as_elim]
theorem WellNamed.same_rec {motive : Ty → Ty → Prop} {a b : Ty}
    (unknown : ∀ slot, motive (.mk .unknown slot) (.mk .unknown slot))
    (scalar : ∀ {s s' : Scalar} (slot : Slot), s.same s' = true →
      motive (.mk (.scalar s) slot) (.mk (.scalar s') slot))
    (array : ∀ {item item' key key' : Option Ty} {shape shape' : Option (Entries Ty)}
      (origin : Option String)
      (slot : Slot), item.Rel motive item' → key.Rel motive key' →
        shape.Rel (Entries.Paired motive) shape' →
      motive (.mk (.array item key shape origin) slot) (.mk (.array item' key' shape' origin) slot))
    (object : ∀ {properties properties' : Entries Ty} (origin : Option String) (slot : Slot),
      Entries.Paired motive properties properties' →
      motive (.mk (.object properties origin) slot) (.mk (.object properties' origin) slot))
    (union : ∀ {ms ms' : List Ty} (slot : Slot), List.Forall₂ motive ms ms' →
      motive (.mk (.union ms) slot) (.mk (.union ms') slot))
    (ha : a.WellNamed) (h : a.same b = true) : motive a b := by
  -- over the parts of the first type; of which kind the second is, the equality says
  induction ha generalizing b with
  | unknown slot =>
    obtain ⟨k, slot'⟩ := b
    cases k with
    | unknown =>
      obtain rfl : slot = slot' := by simpa [Ty.same, Kind.same] using h
      exact unknown slot
    | _ => simp [Ty.same, Kind.same] at h
  | scalar s slot =>
    obtain ⟨k, slot'⟩ := b
    cases k with
    | scalar s' =>
      obtain ⟨hs, rfl⟩ : s.same s' = true ∧ slot = slot' := by simpa [Ty.same, Kind.same] using h
      exact scalar slot hs
    | _ => simp [Ty.same, Kind.same] at h
  | @array item key shape origin slot _ _ hdistinct _ ihitem ihkey ihentries =>
    obtain ⟨k, slot'⟩ := b
    cases k with
    | array item' key' shape' origin' =>
      simp only [Ty.same, Kind.same, Bool.and_eq_true, beq_iff_eq] at h
      obtain ⟨⟨⟨⟨hitem, hkey⟩, hshape⟩, rfl⟩, rfl⟩ := h
      refine array origin slot (rel_of_sameOption (fun t ht u => ihitem t ht) hitem)
        (rel_of_sameOption (fun t ht u => ihkey t ht) hkey) ?_
      cases shape with
      | none =>
        cases shape' with
        | none => exact .none
        | some es' => simp [sameShape] at hshape
      | some es =>
        cases shape' with
        | none => simp [sameShape] at hshape
        | some es' =>
          simp only [sameShape, Bool.and_eq_true, beq_iff_eq] at hshape
          exact .some (paired_of_sameEntries (hdistinct es rfl) hshape.1 hshape.2
            fun e he t => ihentries es rfl e he)
    | _ => simp [Ty.same, Kind.same] at h
  | @object properties origin slot hdistinct _ ih =>
    obtain ⟨k, slot'⟩ := b
    cases k with
    | object properties' origin' =>
      simp only [Ty.same, Kind.same, Bool.and_eq_true, beq_iff_eq] at h
      obtain ⟨⟨⟨hlength, hentries⟩, rfl⟩, rfl⟩ := h
      exact object origin slot (paired_of_sameEntries hdistinct hlength hentries fun e he t =>
        ih e he)
    | _ => simp [Ty.same, Kind.same] at h
  | @union ms slot _ ih =>
    obtain ⟨k, slot'⟩ := b
    cases k with
    | union ms' =>
      obtain ⟨hms, rfl⟩ : sameList ms ms' = true ∧ slot = slot' := by
        simpa [Ty.same, Kind.same] using h
      exact union slot (forall₂_of_sameList (fun t ht u => ih t ht) hms)
    | _ => simp [Ty.same, Kind.same] at h

/-- A map proper equals another from the other side. -/
theorem sameEntries_of_paired {es es' : Entries Ty}
    (h : Entries.Paired (fun t t' => t'.same t = true) es es') : sameEntries es' es = true := by
  rw [sameEntries_iff]
  intro e he
  exact h.exists_left (h.distinct_right.get?_eq_some he)

/-- Equality passes from one map proper to another through a third. -/
theorem sameEntries_trans {es es' es'' : Entries Ty}
    (h : Entries.Paired (fun t t' => ∀ u, t'.same u = true → t.same u = true) es es')
    (h' : sameEntries es' es'' = true) : sameEntries es es'' = true := by
  rw [sameEntries_iff] at h' ⊢
  intro e he
  obtain ⟨t', ht', htrans⟩ := h.exists_right (h.distinct.get?_eq_some he)
  obtain ⟨u, hu, hsame⟩ := h' _ (Entries.mem_of_get?_eq_some ht')
  exact ⟨u, hu, htrans u hsame⟩

theorem sameOption_trans {o o' o'' : Option Ty}
    (h : o.Rel (fun t t' => ∀ u, t'.same u = true → t.same u = true) o')
    (h' : sameOption o' o'' = true) : sameOption o o'' = true := by
  cases h with
  | none => exact h'
  | some htrans =>
    cases o'' with
    | none => simp [sameOption] at h'
    | some u =>
      rw [sameOption] at h' ⊢
      exact htrans u h'

theorem sameList_trans {ts ts' ts'' : List Ty}
    (h : List.Forall₂ (fun t t' => ∀ u, t'.same u = true → t.same u = true) ts ts')
    (h' : sameList ts' ts'' = true) : sameList ts ts'' = true := by
  induction h generalizing ts'' with
  | nil => exact h'
  | cons hhead _ ih =>
    cases ts'' with
    | nil => simp [sameList] at h'
    | cons u rest =>
      rw [sameList, Bool.and_eq_true] at h' ⊢
      exact ⟨hhead u h'.1, ih h'.2⟩

namespace WellNamed

theorem same_symm {a b : Ty} (ha : a.WellNamed) (h : a.same b = true) : b.same a = true := by
  refine same_rec (motive := fun a b => b.same a = true) ?_ ?_ ?_ ?_ ?_ ha h
  · intro slot
    exact composed_steady.unknown slot
  · intro s s' slot hs
    simpa [Ty.same, Kind.same] using Scalar.same_symm hs
  · intro item item' key key' shape shape' origin slot hitem hkey hshape
    have hoption {o o' : Option Ty} (ho : o.Rel (fun t t' => t'.same t = true) o') :
        sameOption o' o = true := by
      cases ho with
      | none => rw [sameOption]
      | some hsame => rwa [sameOption]
    have hshape' : sameShape shape' shape = true := by
      cases hshape with
      | none => rw [sameShape]
      | some hpaired => simp [sameShape, hpaired.length_eq, sameEntries_of_paired hpaired]
    simp [Ty.same, Kind.same, hoption hitem, hoption hkey, hshape']
  · intro properties properties' origin slot hpaired
    simp [Ty.same, Kind.same, hpaired.length_eq, sameEntries_of_paired hpaired]
  · intro ms ms' slot hms
    have hlist : sameList ms' ms = true := by
      induction hms with
      | nil => rw [sameList]
      | cons hhead _ ih => rw [sameList, hhead, ih, Bool.true_and]
    simp [Ty.same, Kind.same, hlist]

theorem same_trans {a b c : Ty} (ha : a.WellNamed) (h : a.same b = true) (h' : b.same c = true) :
    a.same c = true := by
  -- `c` is quantified in the motive, for the parts of `b` are compared with parts of `c`
  suffices key : ∀ c, b.same c = true → a.same c = true from key c h'
  refine same_rec (motive := fun a b => ∀ c, b.same c = true → a.same c = true) ?_ ?_ ?_ ?_ ?_ ha h
  · intro slot c h'
    exact h'
  · rintro s s' slot hs ⟨k, slot'⟩ h'
    cases k with
    | scalar s'' =>
      rw [Ty.same, Kind.same, Bool.and_eq_true] at h' ⊢
      exact ⟨Scalar.same_trans hs h'.1, h'.2⟩
    | _ => simp [Ty.same, Kind.same] at h'
  · rintro item item' key key' shape shape' origin slot hitem hkey hshape ⟨k, slot'⟩ h'
    cases k with
    | array item'' key'' shape'' origin' =>
      simp only [Ty.same, Kind.same, Bool.and_eq_true] at h' ⊢
      refine ⟨⟨⟨⟨sameOption_trans hitem h'.1.1.1.1, sameOption_trans hkey h'.1.1.1.2⟩, ?_⟩, h'.1.2⟩,
        h'.2⟩
      have hshape' := h'.1.1.2
      cases hshape with
      | none => exact hshape'
      | some hpaired =>
        cases shape'' with
        | none => simp [sameShape] at hshape'
        | some es'' =>
          rw [sameShape, Bool.and_eq_true] at hshape' ⊢
          rw [hpaired.length_eq]
          exact ⟨hshape'.1, sameEntries_trans hpaired hshape'.2⟩
    | _ => simp [Ty.same, Kind.same] at h'
  · rintro properties properties' origin slot hpaired ⟨k, slot'⟩ h'
    cases k with
    | object properties'' origin' =>
      simp only [Ty.same, Kind.same, Bool.and_eq_true] at h' ⊢
      rw [hpaired.length_eq]
      exact ⟨⟨⟨h'.1.1.1, sameEntries_trans hpaired h'.1.1.2⟩, h'.1.2⟩, h'.2⟩
    | _ => simp [Ty.same, Kind.same] at h'
  · rintro ms ms' slot hms ⟨k, slot'⟩ h'
    cases k with
    | union ms'' =>
      rw [Ty.same, Kind.same, Bool.and_eq_true] at h' ⊢
      exact ⟨sameList_trans hms h'.1, h'.2⟩
    | _ => simp [Ty.same, Kind.same] at h'

end WellNamed

end Ty

end QueryTypes
