import Mathlib.Data.List.Forall2
import Mathlib.Data.List.Perm.Basic
import QueryTypes.Proofs.Equality
import QueryTypes.Proofs.Merging
import QueryTypes.Proofs.WellFormed.Types

/-!
# Merging in either order

`Ty.Akin` relates types that are equal up to the order of names, the order of the members of unions,
and what the descriptions and examples are, at every depth. Equal types are akin
(`Ty.akin_of_same`), and so are the merges of two types in either order, to any depth
(`Ty.akin_merge`).

The order matters in three places. A merged shape starts with the names of the first type, but has
the same types under them. Of literals and bounds that are equal, the first may be kept. A union
lists the members of the first type first and drops from the second what equals one of them: here
the two merges have as many members, for each member of the one equals exactly one of the other
(`Ty.exists_perm_of_unequal`).
-/

set_option autoImplicit false

namespace QueryTypes

/-! ## Akin types -/

/-- Places that are filled alike: both must be or need not be, both have a description or none, and
both have examples or none. -/
structure Slot.Alike (s s' : Slot) : Prop where
  required : s.required = s'.required
  description : s.description.isSome = s'.description.isSome
  examples : s.examples.isEmpty = s'.examples.isEmpty

theorem Slot.alike_refl (s : Slot) : s.Alike s := ⟨rfl, rfl, rfl⟩

/-- Types that are equal up to the order of names and of union members, and up to what descriptions
and examples are. -/
inductive Ty.Akin : Ty → Ty → Prop
  | unknown {slot slot' : Slot} (slots : slot.Alike slot') : Akin (.mk .unknown slot)
      (.mk .unknown slot')
  | scalar {s s' : Scalar} {slot slot' : Slot} (slots : slot.Alike slot')
      (same : s.same s' = true) :
      Akin (.mk (.scalar s) slot) (.mk (.scalar s') slot')
  | array {item item' key key' : Option Ty} (origin : Option String) {slot slot' : Slot}
      (slots : slot.Alike slot') (items : item.Rel Akin item') (keys : key.Rel Akin key') :
      Akin (.mk (.array item key none origin) slot) (.mk (.array item' key' none origin) slot')
  | shape {item item' key key' : Option Ty} {es es' : Entries Ty} (origin : Option String)
      {slot slot' : Slot} (slots : slot.Alike slot') (items : item.Rel Akin item')
      (keys : key.Rel Akin key')
      (names : es.keys.Perm es'.keys)
      (entries : ∀ name t t', es.get? name = some t → es'.get? name = some t' → Akin t t') :
      Akin (.mk (.array item key (some es) origin) slot)
        (.mk (.array item' key' (some es') origin) slot')
  | object {properties properties' : Entries Ty} (origin : Option String) {slot slot' : Slot}
      (slots : slot.Alike slot') (names : properties.keys.Perm properties'.keys)
      (entries : ∀ name t t', properties.get? name = some t → properties'.get? name = some t' →
        Akin t t') :
      Akin (.mk (.object properties origin) slot) (.mk (.object properties' origin) slot')
  | union {ms ms' ms'' : List Ty} {slot slot' : Slot} (slots : slot.Alike slot')
      (order : ms.Perm ms'') (members : List.Forall₂ Akin ms'' ms') : Akin (.mk (.union ms) slot)
      (.mk (.union ms') slot')

namespace Ty

/-- Equal types are akin. -/
theorem akin_of_same {a b : Ty} (ha : a.WellNamed) (h : a.same b = true) : a.Akin b := by
  refine WellNamed.same_rec ?_ ?_ ?_ ?_ ?_ ha h
  · intro slot
    exact .unknown slot.alike_refl
  · intro s s' slot hs
    exact .scalar slot.alike_refl hs
  · intro item item' key key' shape shape' origin slot hitem hkey hshape
    cases hshape with
    | none => exact .array origin slot.alike_refl hitem hkey
    | some hpaired => exact .shape origin slot.alike_refl hitem hkey hpaired.keys hpaired.values
  · intro properties properties' origin slot hpaired
    exact .object origin slot.alike_refl hpaired.keys hpaired.values
  · intro ms ms' slot hms
    exact .union slot.alike_refl (List.Perm.refl ms) hms

theorem akin_refl {t : Ty} (h : t.WellNamed) : t.Akin t := akin_of_same h h.steady

namespace Akin

variable {a b : Ty}

theorem slots (h : a.Akin b) : a.slot.Alike b.slot := by
  cases h with
  | unknown hslots | scalar hslots | array _ hslots | shape _ hslots | object _ hslots
  | union hslots =>
    exact hslots

/-- The same change of both places. -/
theorem withRequired (h : a.Akin b) (required : Bool) :
    (a.withRequired required).Akin (b.withRequired required) := by
  have hslots : Slot.Alike { a.slot with required } { b.slot with required } :=
    ⟨rfl, h.slots.description, h.slots.examples⟩
  cases h with
  | unknown => exact .unknown hslots
  | scalar _ hs => exact .scalar hslots hs
  | array origin _ hitem hkey => exact .array origin hslots hitem hkey
  | shape origin _ hitem hkey hnames hentries =>
    exact .shape origin hslots hitem hkey hnames hentries
  | object origin _ hnames hentries => exact .object origin hslots hnames hentries
  | union _ horder hmembers => exact .union hslots horder hmembers

end Akin

/-! ## Required entries -/

/-- The named entries of a type: of a shape, or of an object. -/
def entries (t : Ty) : Entries Ty :=
  match t.kind with
  | .array _ _ (some es) _ => es
  | .object properties _ => properties
  | _ => []

/-- What stands under a path of names. -/
def entryAt? : List String → Ty → Option Ty
  | [], t => some t
  | name :: rest, t => (t.entries.get? name).bind (entryAt? rest)

/-- Maps of the same names with akin types under them. -/
theorem rel_get? {es es' : Entries Ty} (hnames : es.keys.Perm es'.keys)
    (h : ∀ name t t', es.get? name = some t → es'.get? name = some t' → t.Akin t') (name : String) :
    (es.get? name).Rel Akin (es'.get? name) := by
  have hsome : (es.get? name).isSome = (es'.get? name).isSome := by
    rw [Bool.eq_iff_iff, Entries.isSome_get?_iff, Entries.isSome_get?_iff, hnames.mem_iff]
  cases ht : es.get? name with
  | none =>
    rw [ht] at hsome
    rw [Option.isSome_eq_false_iff.1 hsome.symm |> Option.isNone_iff_eq_none.1]
    exact .none
  | some t =>
    rw [ht] at hsome
    obtain ⟨t', ht'⟩ := Option.isSome_iff_exists.1 hsome.symm
    rw [ht']
    exact .some (h name t t' ht ht')

theorem Akin.rel_entries {a b : Ty} (h : a.Akin b) (name : String) :
    (a.entries.get? name).Rel Akin (b.entries.get? name) := by
  cases h with
  | shape _ _ _ _ hnames hentries => exact rel_get? hnames hentries name
  | object _ _ hnames hentries => exact rel_get? hnames hentries name
  | unknown | scalar | array | union => exact .none

/-- Akin types require the same under every path of names. -/
theorem Akin.required_entryAt? {a b : Ty} (h : a.Akin b) (path : List String) :
    (a.entryAt? path).map required = (b.entryAt? path).map required := by
  induction path generalizing a b with
  | nil => exact congrArg some h.slots.required
  | cons name rest ih =>
    have hrel := h.rel_entries name
    rw [entryAt?, entryAt?]
    generalize a.entries.get? name = x at hrel ⊢
    generalize b.entries.get? name = y at hrel ⊢
    cases hrel with
    | none => rfl
    | some hakin => exact ih hakin

end Ty

/-! ## Joined scalars -/

namespace SortedSet

variable {α : Type} {cmp : α → α → Ordering} [Std.TransCmp cmp]

/-- Increasing lists that hold equal elements are equal place by place. -/
theorem forall₂_of_increasing {xs ys : List α} (hxs : xs.Pairwise fun a b => cmp a b = .lt)
    (hys : ys.Pairwise fun a b => cmp a b = .lt) (h : ∀ x ∈ xs, ∃ y ∈ ys, cmp x y = .eq)
    (h' : ∀ y ∈ ys, ∃ x ∈ xs, cmp x y = .eq) : List.Forall₂ (fun a b => cmp a b = .eq) xs ys := by
  -- a smaller element does not equal a greater one
  have hne {a b : α} (hlt : cmp a b = .lt) : cmp a b ≠ .eq := by
    rw [hlt]
    exact nofun
  induction xs generalizing ys with
  | nil =>
    cases ys with
    | nil => exact .nil
    | cons y ys =>
      obtain ⟨x, hx, -⟩ := h' y List.mem_cons_self
      exact absurd hx List.not_mem_nil
  | cons x xs ih =>
    cases ys with
    | nil =>
      obtain ⟨y, hy, -⟩ := h x List.mem_cons_self
      exact absurd hy List.not_mem_nil
    | cons y ys =>
      obtain ⟨hx, hxs⟩ := List.pairwise_cons.1 hxs
      obtain ⟨hy, hys⟩ := List.pairwise_cons.1 hys
      have hhead : cmp x y = .eq := by
        obtain ⟨y', hy', hxy'⟩ := h x List.mem_cons_self
        obtain ⟨x', hx', hx'y⟩ := h' y List.mem_cons_self
        rcases List.mem_cons.1 hy' with rfl | hy'
        · exact hxy'
        · rcases List.mem_cons.1 hx' with rfl | hx'
          · exact hx'y
          · -- then each head is below the other
            have hlt : cmp x y' = .lt :=
              Std.TransCmp.lt_trans (Std.TransCmp.lt_of_lt_of_eq (hx x' hx') hx'y) (hy y' hy')
            exact absurd hxy' (hne hlt)
      refine .cons hhead (ih hxs hys ?_ ?_)
      · intro x' hx'
        obtain ⟨y', hy', heq⟩ := h x' (List.mem_cons_of_mem _ hx')
        rcases List.mem_cons.1 hy' with rfl | hy'
        · exact absurd (Std.TransCmp.eq_trans hhead (Std.OrientedCmp.eq_symm heq)) (hne (hx x' hx'))
        · exact ⟨y', hy', heq⟩
      · intro y' hy'
        obtain ⟨x', hx', heq⟩ := h' y' (List.mem_cons_of_mem _ hy')
        rcases List.mem_cons.1 hx' with rfl | hx'
        · exact absurd (Std.TransCmp.eq_trans (Std.OrientedCmp.eq_symm hhead) heq) (hne (hy y' hy'))
        · exact ⟨x', hx', heq⟩

theorem mem_union {s t : SortedSet α cmp} {a : α} (h : a ∈ (s.union t).toList) :
    a ∈ s.toList ∨ a ∈ t.toList := by
  suffices key : ∀ xs : List α, ∀ s : SortedSet α cmp, a ∈ (xs.foldl insert s).toList →
      a ∈ s.toList ∨ a ∈ xs from key t.toList s h
  intro xs
  induction xs with
  | nil => exact fun s h => .inl h
  | cons x rest ih =>
    intro s h
    rcases ih _ h with h | h
    · rcases mem_insertList h with rfl | h
      · exact .inr List.mem_cons_self
      · exact .inl h
    · exact .inr (List.mem_cons_of_mem _ h)

/-- An element of a union has an equal one in the union the other way round. -/
theorem exists_mem_union {s t : SortedSet α cmp} {a : α} (h : a ∈ (s.union t).toList) :
    ∃ b ∈ (t.union s).toList, cmp a b = .eq := by
  have hself {u : SortedSet α cmp} (hu : a ∈ u.toList) : u.contains a = true :=
    List.any_eq_true.2 ⟨a, hu, beq_iff_eq.2 Std.ReflCmp.compare_self⟩
  have hcontains : (t.union s).contains a = true := by
    rcases mem_union h with h | h
    · exact contains_union (.inr (hself h))
    · exact contains_union (.inl (hself h))
  obtain ⟨b, hb, heq⟩ := List.any_eq_true.1 hcontains
  exact ⟨b, hb, beq_iff_eq.1 heq⟩

/-- Unions either way hold equal elements. -/
theorem forall₂_union (s t : SortedSet α cmp) :
    List.Forall₂ (fun a b => cmp a b = .eq) (s.union t).toList (t.union s).toList := by
  refine forall₂_of_increasing (s.union t).sorted (t.union s).sorted (fun _ => exists_mem_union) ?_
  intro b hb
  obtain ⟨a, ha, heq⟩ := exists_mem_union hb
  exact ⟨a, ha, Std.OrientedCmp.eq_symm heq⟩

end SortedSet

/-- What two sides share does not depend on their order. -/
theorem shared_comm (x y : Option String) :
    (if x = y then x else none) = if y = x then y else none := by
  by_cases hxy : x = y
  · rw [hxy]
  · rw [if_neg hxy, if_neg (Ne.symm hxy)]

namespace Scalar

theorem rank_joinBound_comm {pick : Double → Double → Double}
    (hpick : ∀ x y, (pick x y).rank = (pick y x).rank) (x y : Option Double) :
    (joinBound pick x y).map Double.rank = (joinBound pick y x).map Double.rank := by
  cases x <;> cases y <;> simp [joinBound, hpick]

/-- Joins either way are equal. -/
theorem same_join_comm {s t : Scalar} (hkind : s.kind = t.kind) :
    (s.join t).same (t.join s) = true := by
  refine same_iff.2 ⟨hkind, ?_, shared_comm _ _, rank_joinBound_comm ?_ _ _,
    rank_joinBound_comm ?_ _ _, shared_comm _ _⟩
  · show List.Forall₂ _
      (if s.literals.isEmpty || t.literals.isEmpty then SortedSet.empty
        else s.literals.union t.literals).toList
      (if t.literals.isEmpty || s.literals.isEmpty then SortedSet.empty
        else t.literals.union s.literals).toList
    rw [Bool.or_comm t.literals.isEmpty]
    split
    · exact .nil
    · exact SortedSet.forall₂_union _ _
  · intro x y
    rw [Double.rank_min, Double.rank_min, Int.min_comm]
  · intro x y
    rw [Double.rank_max, Double.rank_max, Int.max_comm]

end Scalar

namespace Ty

/-! ## Unions -/

/-- Each type has an equal one among those that are left without repetitions. -/
theorem exists_same_distinct {ts : List Ty} (hts : ∀ t ∈ ts, t.Steady) {t : Ty} (ht : t ∈ ts) :
    ∃ u ∈ distinct ts, u.same t = true := by
  obtain ⟨u, hu, rfl | hsame⟩ := exists_mem_distinct ht
  · exact ⟨u, hu, hts u ht⟩
  · exact ⟨u, hu, hsame⟩

/-- Two lists without repetitions, in which each type has an equal one in the other list, are equal
place by place after one of them has been put in order. -/
theorem exists_perm_of_unequal {ts us : List Ty} (hts : ∀ t ∈ ts, t.WellNamed)
    (hus : ∀ u ∈ us, u.WellNamed) (hunequal : ts.Pairwise fun a b => a.same b = false)
    (hunequal' : us.Pairwise fun a b => a.same b = false) (h : ∀ t ∈ ts, ∃ u ∈ us, t.same u = true)
    (h' : ∀ u ∈ us, ∃ t ∈ ts, t.same u = true) :
    ∃ ts', ts.Perm ts' ∧ List.Forall₂ (fun t u => t.same u = true) ts' us := by
  induction us generalizing ts with
  | nil =>
    cases ts with
    | nil => exact ⟨[], List.Perm.refl _, .nil⟩
    | cons t rest =>
      obtain ⟨u, hu, -⟩ := h t List.mem_cons_self
      exact absurd hu List.not_mem_nil
  | cons u us ih =>
    obtain ⟨hu, hus⟩ := List.forall_mem_cons.1 hus
    obtain ⟨hfirst, hunequal'⟩ := List.pairwise_cons.1 hunequal'
    -- the partner of the first type is taken out, wherever it stands
    obtain ⟨t, ht, hsame⟩ := h' u List.mem_cons_self
    have htnamed := hts t ht
    obtain ⟨front, back, rfl⟩ := List.append_of_mem ht
    have hsublist : (front ++ back).Sublist (front ++ t :: back) :=
      (List.sublist_cons_self t back).append_left front
    -- no other type equals the first one, for it would equal the partner
    have hothers : ∀ x ∈ front ++ back, x.same u = false := by
      intro x hx
      refine Bool.eq_false_iff.2 fun hxu => ?_
      have hxnamed := hts x (hsublist.subset hx)
      have hxt : x.same t = true := hxnamed.same_trans hxu (htnamed.same_symm hsame)
      obtain ⟨-, hback, hbetween⟩ := List.pairwise_append.1 hunequal
      rcases List.mem_append.1 hx with hx | hx
      · exact Bool.false_ne_true ((hbetween x hx t List.mem_cons_self).symm.trans hxt)
      · exact Bool.false_ne_true
          (((List.pairwise_cons.1 hback).1 x hx).symm.trans (hxnamed.same_symm hxt))
    have hpartner : ∀ v ∈ us, t.same v = false := by
      intro v hv
      refine Bool.eq_false_iff.2 fun htv => ?_
      exact Bool.false_ne_true
        ((hfirst v hv).symm.trans (hu.same_trans (htnamed.same_symm hsame) htv))
    have hleft : ∀ x ∈ front ++ back, ∃ v ∈ us, x.same v = true := by
      intro x hx
      obtain ⟨v, hv, hxv⟩ := h x (hsublist.subset hx)
      rcases List.mem_cons.1 hv with rfl | hv
      · exact absurd ((hothers x hx).symm.trans hxv) Bool.false_ne_true
      · exact ⟨v, hv, hxv⟩
    have hright : ∀ v ∈ us, ∃ x ∈ front ++ back, x.same v = true := by
      intro v hv
      obtain ⟨x, hx, hxv⟩ := h' v (List.mem_cons_of_mem _ hv)
      rcases List.mem_append.1 hx with hx | hx
      · exact ⟨x, List.mem_append_left _ hx, hxv⟩
      · rcases List.mem_cons.1 hx with rfl | hx
        · exact absurd ((hpartner v hv).symm.trans hxv) Bool.false_ne_true
        · exact ⟨x, List.mem_append_right _ hx, hxv⟩
    obtain ⟨ts', hperm, hforall⟩ := ih (fun x hx => hts x (hsublist.subset hx)) hus
      (hunequal.sublist hsublist) hunequal' hleft hright
    exact ⟨t :: ts', List.perm_middle.trans (hperm.cons t), .cons hsame hforall⟩

/-- Which types are left without repetitions depends on the types alone, up to their order. -/
theorem exists_perm_distinct {ts us : List Ty} (hts : ∀ t ∈ ts, t.WellNamed)
    (h : ∀ t, t ∈ ts ↔ t ∈ us) :
    ∃ ms, (distinct ts).Perm ms ∧ List.Forall₂ (fun m u => m.same u = true) ms (distinct us) := by
  have hus : ∀ u ∈ us, u.WellNamed := fun u hu => hts u ((h u).2 hu)
  have hleft : ∀ t ∈ distinct ts, t.WellNamed := fun t ht => hts t (mem_of_mem_distinct ht)
  have hright : ∀ u ∈ distinct us, u.WellNamed := fun u hu => hus u (mem_of_mem_distinct hu)
  refine exists_perm_of_unequal hleft hright (pairwise_distinct ts) (pairwise_distinct us) ?_ ?_
  · intro t ht
    obtain ⟨u, hu, hsame⟩ :=
      exists_same_distinct (fun u hu => (hus u hu).steady) ((h t).1 (mem_of_mem_distinct ht))
    exact ⟨u, hu, (hright u hu).same_symm hsame⟩
  · intro u hu
    exact exists_same_distinct (fun t ht => (hts t ht).steady) ((h u).2 (mem_of_mem_distinct hu))

theorem akin_ofMembers {ms ms' ms'' : List Ty} (horder : ms.Perm ms'')
    (h : List.Forall₂ Akin ms'' ms') :
    (ofMembers ms).Akin (ofMembers ms') := by
  cases h with
  | nil =>
    rw [horder.eq_nil]
    exact .unknown (Slot.alike_refl _)
  | cons hfirst hrest =>
    cases hrest with
    | nil =>
      rw [List.perm_singleton.1 horder]
      exact hfirst
    | cons hsecond hrest =>
      rcases ms with _ | ⟨m, _ | ⟨n, rest⟩⟩
      · cases horder.length_eq
      · cases horder.length_eq
      · exact .union (Slot.alike_refl _) horder (.cons hfirst (.cons hsecond hrest))

section Merging

variable {a b : Ty}

/-- The union of two types in either order. -/
theorem akin_union (ha : a.WellNamed) (hb : b.WellNamed) : (union [a, b]).Akin (union [b, a]) := by
  have hnamed : ∀ m ∈ [a, b].flatMap members, m.WellNamed := by
    intro m hm
    obtain ⟨t, ht, hmt⟩ := List.mem_flatMap.1 hm
    rcases List.mem_cons.1 ht with rfl | ht
    · exact ha.members m hmt
    · rw [List.mem_singleton.1 ht] at hmt
      exact hb.members m hmt
  have hswap (m : Ty) : m ∈ [a, b].flatMap members ↔ m ∈ [b, a].flatMap members := by simp [or_comm]
  obtain ⟨ms, horder, hsame⟩ := exists_perm_distinct hnamed hswap
  refine akin_ofMembers horder ?_
  have hmembers : ∀ m ∈ ms, m.WellNamed :=
    fun m hm => hnamed m (mem_of_mem_distinct (horder.mem_iff.2 hm))
  have hboth := (List.forall₂_and_left _ _).2 ⟨hmembers, hsame⟩
  exact hboth.imp fun m m' h => akin_of_same h.1 h.2

/-! ## Merged shapes -/

/-- A merged place takes the first description and the first examples that there are. -/
theorem alike_mergeSlots (s t : Slot) : (mergeSlots s t).Alike (mergeSlots t s) where
  required := Bool.and_comm _ _
  description := by
    cases hs : s.description <;> cases ht : t.description <;> simp [mergeSlots, hs, ht]
  examples := by cases hs : s.examples <;> cases ht : t.examples <;> simp [mergeSlots, hs, ht]

theorem keys_mergeShapes_perm {join : Ty → Ty → Ty} {as bs : Entries Ty} (has : as.Distinct)
    (hbs : bs.Distinct) : (mergeShapes join as bs).keys.Perm (mergeShapes join bs as).keys := by
  refine (List.perm_ext_iff_of_nodup (distinct_mergeShapes has hbs)
    (distinct_mergeShapes hbs has)).2 ?_
  intro name
  rw [← Entries.isSome_get?_iff, ← Entries.isSome_get?_iff, get?_mergeShapes, get?_mergeShapes]
  cases as.get? name <;> cases bs.get? name <;> simp [mergeSides]

/-- The two sides under one name, joined in either order. -/
theorem akin_of_mergeSides {join : Ty → Ty → Ty}
    (hjoin : ∀ x y : Ty, x.WellNamed → y.WellNamed → (join x y).Akin (join y x)) {x y : Option Ty}
    (hx : ∀ t, x = some t → t.WellNamed) (hy : ∀ t, y = some t → t.WellNamed) {t t' : Ty}
    (ht : mergeSides join x y = some t) (ht' : mergeSides join y x = some t') : t.Akin t' := by
  cases x with
  | none =>
    cases y with
    | none => cases ht
    | some v =>
      cases ht
      cases ht'
      exact akin_refl ((hy v rfl).withRequired false)
  | some u =>
    cases y with
    | none =>
      cases ht
      cases ht'
      exact akin_refl ((hx u rfl).withRequired false)
    | some v =>
      cases ht
      cases ht'
      exact hjoin u v (hx u rfl) (hy v rfl)

/-- One level of a merge in either order, if the join of entries may be made in either order. -/
theorem akin_mergeStep {join : Ty → Ty → Ty}
    (hjoin : ∀ x y : Ty, x.WellNamed → y.WellNamed → (join x y).Akin (join y x)) (ha : a.WellNamed)
    (hb : b.WellNamed) : (mergeStep join a b).Akin (mergeStep join b a) := by
  have hslots := alike_mergeSlots a.slot b.slot
  rw [mergeStep, mergeStep]
  by_cases hsame : a.same b = true
  · rw [if_pos hsame, if_pos (ha.same_symm hsame)]
    exact akin_of_same ha hsame
  · have hseparate : ((union [a, b]).withRequired (a.required && b.required)).Akin
        ((union [b, a]).withRequired (b.required && a.required)) := by
      rw [Bool.and_comm b.required]
      exact (akin_union ha hb).withRequired _
    rw [if_neg hsame, if_neg fun h => hsame (hb.same_symm h)]
    dsimp only
    split
    · next item key as oa item' key' bs ob hakind hbkind =>
      obtain ⟨hdistinct, hentries⟩ := ha.entries hakind
      obtain ⟨hdistinct', hentries'⟩ := hb.entries hbkind
      rw [hbkind, hakind]
      dsimp only
      rw [shared_comm ob oa]
      -- the names come in another order, but under each of them stand the same two types
      refine .shape _ hslots .none .none (keys_mergeShapes_perm hdistinct hdistinct') ?_
      intro name t t' ht ht'
      rw [get?_mergeShapes] at ht ht'
      exact akin_of_mergeSides hjoin (fun u hu => hentries _ (Entries.mem_of_get?_eq_some hu))
        (fun u hu => hentries' _ (Entries.mem_of_get?_eq_some hu)) ht ht'
    · next s t hakind hbkind =>
      rw [hbkind, hakind]
      dsimp only
      split
      · next hkind =>
        rw [if_pos hkind.symm]
        exact .scalar hslots (Scalar.same_join_comm hkind)
      · next hkind =>
        rw [if_neg (Ne.symm hkind)]
        exact hseparate
    · -- the other order is neither a pair of shapes nor one of scalars either
      next hshapes hscalars =>
      split
      · next hbkind hakind => exact (hshapes _ _ _ _ _ _ _ _ hakind hbkind).elim
      · next hbkind hakind => exact (hscalars _ _ hakind hbkind).elim
      · exact hseparate

/-- Merges in either order are akin. -/
theorem akin_merge (ha : a.WellNamed) (hb : b.WellNamed) (depth : Nat) :
    (merge depth a b).Akin (merge depth b a) := by
  induction depth generalizing a b with
  | zero => exact .unknown (Slot.alike_refl _)
  | succ depth ih => exact akin_mergeStep (fun x y hx hy => ih hx hy) ha hb

end Merging

/-- Merges of two types in either order, to any depth, are equal up to the order of names and of
union members and up to what descriptions and examples are. In particular they require the same
under every path of names. -/
theorem merge_either_order (a b : Ty) (ha : a.WellNamed) (hb : b.WellNamed) (depth : Nat) :
    (merge depth a b).Akin (merge depth b a) ∧
      ∀ path, ((merge depth a b).entryAt? path).map required =
        ((merge depth b a).entryAt? path).map required := by
  have hakin := akin_merge ha hb depth
  exact ⟨hakin, hakin.required_entryAt?⟩

/-- An order with an integer for a key, a list of lines and a note. -/
def draftOrder : Ty :=
  .mk (.array none none (some [("id", integer.withRequired true), ("lines", .shape [("0", string)]),
    ("note", string)]) none) { description := some "draft" }

/-- An order with a text for a key and other lines. -/
def placedOrder : Ty :=
  .mk (.array none none (some [("lines", .shape [("1", integer)]),
    ("id", string.withRequired true)]) none) { description := some "placed" }

theorem merge_either_order_orders :
    (merge 2 draftOrder placedOrder).Akin (merge 2 placedOrder draftOrder) ∧
      (merge 2 draftOrder placedOrder).entries.keys = ["id", "lines", "note"] ∧
      (merge 2 placedOrder draftOrder).entries.keys = ["lines", "id", "note"] ∧
      ((merge 2 placedOrder draftOrder).entryAt? ["id"]).map required = some true := by
  have hshape {es : Entries Ty} (hes : es.keys.Nodup) (h : ∀ e ∈ es, e.2.WellNamed) (slot : Slot) :
      WellNamed (.mk (.array none none (some es) none) slot) := by
    refine .array none slot nofun nofun ?_ ?_
    · rintro es' ⟨⟩
      exact hes
    · rintro es' ⟨⟩
      exact h
  have hdraft : draftOrder.WellNamed := by
    refine hshape (by decide) ?_ _
    simp only [List.forall_mem_cons, List.not_mem_nil, false_implies, implies_true, and_true]
    exact ⟨.scalar _ _, hshape (by decide) (List.forall_mem_singleton.2 (.scalar _ _)) _,
      .scalar _ _⟩
  have hplaced : placedOrder.WellNamed := by
    refine hshape (by decide) ?_ _
    simp only [List.forall_mem_cons, List.not_mem_nil, false_implies, implies_true, and_true]
    exact ⟨hshape (by decide) (List.forall_mem_singleton.2 (.scalar _ _)) _, .scalar _ _⟩
  obtain ⟨hakin, hrequired⟩ := merge_either_order draftOrder placedOrder hdraft hplaced 2
  exact ⟨hakin, by decide +kernel, by decide +kernel,
    (hrequired ["id"]).symm.trans (by decide +kernel)⟩

end Ty

end QueryTypes
