import QueryTypes.Collection
import QueryTypes.Proofs.Merging
import QueryTypes.Proofs.Reading

/-!
# The elements of collections

A collection method looks at its receiver as a map with one type of items and one type of keys. A
record that the receiver accepts is accepted by that map as well (`Ty.accepts_unwrap`): the items of
a shape are merged, which loses nothing, and the type of its keys is guessed from their texts, each
of which it accepts (`Ty.acceptsKey_keyTypeOf`). So the view of the receiver describes the entries
of the record (`Collection.View.Describes`), and what the methods make of the view describes what
they take from the record (`resolveCollectionMethod_sound`).

An array without a key type has integers as its keys (`Facets.integerKeyed`). Integers have 64 bits,
so a shape whose names are its positions is one of at most `2 ^ 63` entries (`Ty.Counted`), and so
is a list (`Numeral.positionBound`).
-/

set_option autoImplicit false

namespace QueryTypes

/-! ## Integer keys -/

/-- A reading in which the keys of an array without a key type are integers. -/
def Facets.integerKeyed (format pattern : String → Value → Prop) : Facets where
  format := format
  pattern := pattern
  unkeyed key := ∃ n, Numeral.readInt64? key = some n

namespace Numeral

theorem exists_readInt64?_of_digits {s : String} {digits : List Char} {n : Nat}
    (hsign : takeSign s.toList = (false, digits)) (hdigits : allDigits? digits = some n)
    (hlt : n < positionBound) : ∃ m, readInt64? s = some m :=
  ⟨_, readInt64?_of_digits hsign hdigits (fitsInt64_of_lt hlt)⟩

/-- A small natural numeral is an integer numeral. -/
theorem exists_readInt64?_of_readNat64? {s : String} {n : Nat} (h : readNat64? s = some n)
    (hlt : n < positionBound) : ∃ m, readInt64? s = some m := by
  rw [readNat64?] at h
  obtain ⟨m, hdigits, h⟩ := Option.bind_eq_some_iff.1 h
  obtain ⟨-, hm⟩ := Option.ite_none_right_eq_some.1 h
  obtain rfl : m = n := Option.some.inj hm
  split at hdigits
  · next rest hlist => exact exists_readInt64?_of_digits (by rw [hlist]; rfl) hdigits hlt
  · next hplus =>
    refine exists_readInt64?_of_digits ?_ hdigits hlt
    rw [takeSign.eq_def]
    split
    · next rest hlist => exact absurd hlist (hplus rest)
    · -- a minus is no digit
      next rest hlist =>
      rw [hlist] at hdigits
      simp [allDigits?] at hdigits
    · rfl

theorem exists_readInt64?_toString {i : Nat} (hlt : i < positionBound) :
    ∃ n, readInt64? (toString i) = some n := by
  have hlist : (toString i).toList = Nat.toDigits 10 i := Nat.toList_repr
  refine exists_readInt64?_of_digits ?_ (allDigits?_toDigits i) hlt
  rw [hlist]
  exact takeSign_toDigits i

end Numeral

namespace Ty

variable {format pattern : String → Value → Prop}

/-- A list of accepted values is accepted. -/
theorem accepts_keyed_list {item : Ty} {vs : List Value}
    (h : ∀ v ∈ vs, item.Accepts (.integerKeyed format pattern) v)
    (hlength : vs.length ≤ Numeral.positionBound) :
    (Ty.keyed none item).Accepts (.integerKeyed format pattern) (.list vs) := by
  refine accepts_array_iff.2 ⟨_, rfl, ?_⟩
  -- the rest of a list starts at a later position, so the bound is on the last one
  suffices key : ∀ start, start + vs.length ≤ Numeral.positionBound →
      ∀ e ∈ Value.positions start vs,
      AcceptsItem (.integerKeyed format pattern) (some item) e.2 ∧
        AcceptsKey (.integerKeyed format pattern) none e.1 from key 0 (by omega)
  clear hlength
  induction vs with
  | nil => exact fun _ _ e he => absurd he List.not_mem_nil
  | cons v rest ih =>
    intro start hbound
    rw [List.length_cons] at hbound
    rw [Value.positions, List.forall_mem_cons]
    refine ⟨⟨h v List.mem_cons_self, ?_⟩, ?_⟩
    · exact Numeral.exists_readInt64?_toString (by omega)
    · exact ih (fun w hw => h w (List.mem_cons_of_mem _ hw)) (start + 1) (by omega)

/-! ## Shapes as maps -/

theorem exists_position_of_mem {start : Nat} {names : List String}
    (h : arePositions start names = true) {name : String} (hname : name ∈ names) :
    ∃ i, i < start + names.length ∧ Numeral.readNat64? name = some i := by
  induction names generalizing start with
  | nil => exact absurd hname List.not_mem_nil
  | cons first rest ih =>
    rw [arePositions, Bool.and_eq_true, beq_iff_eq] at h
    rw [List.length_cons]
    rcases List.mem_cons.1 hname with rfl | hname
    · exact ⟨start, by omega, h.1⟩
    · obtain ⟨i, hi, hread⟩ := ih h.2 hname
      exact ⟨i, by omega, hread⟩

/-- The key type of a shape accepts each of its names. -/
theorem acceptsKey_keyTypeOf {names : List String} (hlength : names.length ≤ Numeral.positionBound)
    {name : String} (hname : name ∈ names) :
    AcceptsKey (.integerKeyed format pattern) (keyTypeOf names) name := by
  rw [keyTypeOf]
  split
  · next hpositions =>
    obtain ⟨i, hi, hread⟩ := exists_position_of_mem hpositions hname
    exact Numeral.exists_readInt64?_of_readNat64? hread (by omega)
  · split
    · next hintegers =>
      obtain ⟨n, hn⟩ := Option.isSome_iff_exists.1 (List.all_eq_true.1 hintegers name hname)
      exact .inr ⟨n, hn, accepts_scalar_of_fits rfl⟩
    · exact .inl (accepts_scalar_of_fits rfl)

theorem accepts_mergeAll? {F : Facets} {v : Value} {depth : Nat} {ts : List Ty}
    (hts : ∀ t ∈ ts, t.WellKeyed) {t : Ty} (ht : t ∈ ts) (h : t.Accepts F v) :
    ((mergeAll? depth ts).getD unknown).Accepts F v := by
  cases ts with
  | nil => exact absurd ht List.not_mem_nil
  | cons first rest =>
    rw [mergeAll?_cons, Option.getD_some]
    refine accepts_foldl_merge (hts first List.mem_cons_self)
      (fun u hu => hts u (List.mem_cons_of_mem _ hu)) ?_
    rcases List.mem_cons.1 ht with rfl | ht
    · exact .inl h
    · exact .inr ⟨t, ht, h⟩

theorem wellKeyed_mergeAll? {depth : Nat} {ts : List Ty} (hts : ∀ t ∈ ts, t.WellKeyed) :
    ((mergeAll? depth ts).getD unknown).WellKeyed := by
  cases ts with
  | nil => exact wellKeyed_unknown
  | cons first rest =>
    rw [mergeAll?_cons, Option.getD_some]
    exact List.foldlRecOn rest (merge depth) (hts first List.mem_cons_self)
      fun a ha b hb => ha.merge (hts b (List.mem_cons_of_mem _ hb)) depth

/-- The shapes that a type is, or that a member of it is, have entries that 63 bits can count. -/
inductive Counted : Ty → Prop
  | union {members : List Ty} (slot : Slot) : (∀ m ∈ members, Counted m) →
      Counted (.mk (.union members) slot)
  | single {t : Ty} : t.members = [t] →
      (∀ es, t.shape? = some es → es.length ≤ Numeral.positionBound) → Counted t

theorem Counted.of_mem {members : List Ty} {slot : Slot}
    (h : (Ty.mk (.union members) slot).Counted) : ∀ m ∈ members, m.Counted := by
  cases h with
  | union _ hmembers => exact hmembers
  | single hself hshape =>
    intro m hm
    have hself : members = [Ty.mk (.union members) slot] := hself
    rw [hself] at hm
    rw [List.mem_singleton.1 hm]
    exact .single hself hshape

theorem Counted.length_le {item key : Option Ty} {es : Entries Ty} {origin : Option String}
    {slot : Slot} (h : (Ty.mk (.array item key (some es) origin) slot).Counted) :
    es.length ≤ Numeral.positionBound := by
  cases h with
  | single _ hshape => exact hshape es rfl

section Unwrap

/-- The entries of a shape, none of which need be there. -/
theorem WellKeyed.optional {es : Entries Ty} (h : ∀ e ∈ es, e.2.WellKeyed) :
    ∀ t ∈ (Entries.values es).map (·.withRequired false), t.WellKeyed := by
  intro t ht
  obtain ⟨u, hu, rfl⟩ := List.mem_map.1 ht
  obtain ⟨e, he, rfl⟩ := List.mem_map.1 hu
  exact (h e he).withRequired false

theorem wellKeyed_keyTypeOf (names : List String) :
    ∀ t, keyTypeOf names = some t → t.WellKeyed := by
  intro t ht
  rw [keyTypeOf] at ht
  split at ht
  · cases ht
  · split at ht
    · cases ht
      exact .scalar _ _
    · cases ht
      exact .scalar _ _

theorem WellKeyed.unwrap {t : Ty} (h : t.WellKeyed) (depth : Nat) : (unwrap depth t).WellKeyed := by
  induction depth generalizing t with
  | zero => exact wellKeyed_unknown
  | succ depth ih =>
    rw [Ty.unwrap]
    split
    · next es origin hkind =>
      refine .array _ _ ?_ (wellKeyed_keyTypeOf _) nofun nofun
      rintro item ⟨⟩
      exact wellKeyed_mergeAll? (WellKeyed.optional (h.entries hkind).2)
    · next members hkind =>
      refine (wellKeyed_union ?_).withRequired _
      intro u hu
      obtain ⟨m, hm, rfl⟩ := List.mem_map.1 hu
      refine ih (h.members m ?_)
      rw [Ty.members, hkind]
      exact hm
    · exact h

/-- A shape read as a map accepts what the shape does, and so does a union of them. -/
theorem accepts_unwrap {t : Ty} (ht : t.WellKeyed) (hcounted : t.Counted) (depth : Nat) {v : Value}
    (h : t.Accepts (.integerKeyed format pattern) v) :
    (unwrap depth t).Accepts (.integerKeyed format pattern) v := by
  induction depth generalizing t with
  | zero => exact accepts_unknown v
  | succ depth ih =>
    rw [Ty.unwrap]
    obtain ⟨k, slot⟩ := t
    -- only shapes and unions of types are changed
    split
    · next item key es origin hkind =>
      cases hkind
      have hkeyed := WellKeyed.optional (ht.entries rfl).2
      obtain ⟨entries, rfl, haccepts, -⟩ := accepts_shape_iff.1 h
      refine accepts_array_iff.2 ⟨entries, rfl, fun e he => ?_⟩
      obtain ⟨u, hu, hv⟩ := haccepts e he
      constructor
      · -- the type of the entry is one of those that are merged
        have hmem : u.withRequired false ∈ (Entries.values es).map (·.withRequired false) :=
          List.mem_map_of_mem (List.mem_map_of_mem (f := Prod.snd) (Entries.mem_of_get?_eq_some hu))
        exact accepts_mergeAll? hkeyed hmem ((accepts_withRequired u false).2 hv)
      · refine acceptsKey_keyTypeOf ?_ (Entries.mem_keys_of_get?_eq_some hu)
        rw [Entries.keys, List.length_map]
        exact hcounted.length_le
    · next members hkind =>
      cases hkind
      obtain ⟨m, hm, h⟩ := accepts_union_iff.1 h
      rw [accepts_withRequired]
      refine accepts_union_of_mem ?_ (List.mem_map_of_mem hm)
        (ih (ht.members m hm) (hcounted.of_mem m hm) h)
      intro u hu
      obtain ⟨m', hm', rfl⟩ := List.mem_map.1 hu
      exact (ht.members m' hm').unwrap depth
    · exact h

/-! ## No shape is left -/

/-- No member of the type is a union or has a shape. -/
def Flat (t : Ty) : Prop := ∀ m ∈ t.members, m.members = [m] ∧ m.shape? = none

theorem flat_single {t : Ty} (hmembers : t.members = [t]) (hshape : t.shape? = none) : t.Flat := by
  intro m hm
  rw [hmembers, List.mem_singleton] at hm
  rw [hm]
  exact ⟨hmembers, hshape⟩

theorem Flat.withRequired {t : Ty} (h : t.Flat) (required : Bool) :
    (t.withRequired required).Flat := by
  obtain ⟨k, slot⟩ := t
  cases k with
  | union members => exact h
  | unknown | scalar | object => exact flat_single rfl rfl
  | array item key shape origin =>
    exact flat_single rfl (h _ List.mem_cons_self).2

/-- A union of flat types is flat. -/
theorem flat_union {ts : List Ty} (h : ∀ t ∈ ts, t.Flat) : (union ts).Flat := by
  have hmembers : ∀ m ∈ distinct (ts.flatMap members), m.members = [m] ∧ m.shape? = none := by
    intro m hm
    obtain ⟨t, ht, hm⟩ := List.mem_flatMap.1 (mem_of_mem_distinct hm)
    exact h t ht m hm
  rw [union]
  generalize distinct (ts.flatMap members) = ms at hmembers
  rcases ms with _ | ⟨m, _ | ⟨m', rest⟩⟩
  · exact flat_single rfl rfl
  · obtain ⟨hself, hshape⟩ := hmembers m List.mem_cons_self
    exact flat_single hself hshape
  · exact hmembers

theorem flat_unwrap (depth : Nat) (t : Ty) : (unwrap depth t).Flat := by
  induction depth generalizing t with
  | zero => exact flat_single rfl rfl
  | succ depth ih =>
    rw [Ty.unwrap]
    obtain ⟨k, slot⟩ := t
    split
    · exact flat_single rfl rfl
    · refine (flat_union ?_).withRequired _
      intro u hu
      obtain ⟨m, -, rfl⟩ := List.mem_map.1 hu
      exact ih m
    · next hnoshape hnounion =>
      cases k with
      | union members => exact absurd rfl (hnounion members)
      | array item key shape origin =>
        cases shape with
        | none => exact flat_single rfl rfl
        | some es => exact absurd rfl (hnoshape item key es origin)
      | unknown | scalar | object => exact flat_single rfl rfl

end Unwrap

end Ty

/-! ## Values by a path -/

/-- The value in nested records under a path of names, if it is there. -/
def Value.atPath? : Value → List String → Option Value
  | v, [] => some v
  | .record es, name :: rest => (Entries.get? es name).bind fun v => v.atPath? rest
  | _, _ :: _ => none

namespace Ty

variable {F : Facets}

theorem WellKeyed.fieldAt {t : Ty} (h : t.WellKeyed) (path : String) :
    (Collection.fieldAt t path).WellKeyed := by
  rw [Collection.fieldAt]
  exact List.foldlRecOn _ _ h fun u hu name _ => hu.field name

theorem accepts_foldl_field {names : List String} {t : Ty} (ht : t.WellKeyed) {v w : Value}
    (h : t.Accepts F v) (hw : v.atPath? names = some w) :
    (names.foldl (fun t name => t.field name) t).Accepts F w := by
  induction names generalizing t v with
  | nil =>
    cases hw
    exact h
  | cons name rest ih =>
    cases v with
    | null | literal => cases hw
    | record es =>
      obtain ⟨u, hu, hw⟩ := Option.bind_eq_some_iff.1 hw
      exact ih (ht.field name) (accepts_field ht h (Entries.mem_of_get?_eq_some hu)) hw

/-- The type by a path accepts what an accepted value has under the path. -/
theorem accepts_fieldAt {t : Ty} (ht : t.WellKeyed) {v w : Value} (h : t.Accepts F v)
    {path : String} (hw : v.atPath? (Text.splitOn '.' path) = some w) :
    (Collection.fieldAt t path).Accepts F w :=
  accepts_foldl_field ht h hw

end Ty

/-! ## Methods -/

namespace Collection

variable {format pattern : String → Value → Prop}

/-- A collection describes the entries of a record: their values and, as they are handed to a
callback, their keys. -/
def View.Describes (F : Facets) (w : View) (es : List (String × Value)) : Prop :=
  ∀ e ∈ es, w.item.Accepts F e.2 ∧ Ty.AcceptsKey F (some w.position) e.1

theorem wellKeyed_view? {depth : Nat} {t : Ty} (ht : t.WellKeyed) {w : View}
    (h : view? depth t = some w) : w.item.WellKeyed := by
  have hunwrap := ht.unwrap depth
  rw [view?] at h
  generalize Ty.unwrap depth t = u at h hunwrap
  cases hunwrap with
  | @array item key shape origin slot hitem =>
    cases h
    refine Ty.WellKeyed.withRequired ?_ false
    cases item with
    | none => exact Ty.wellKeyed_unknown
    | some item => exact hitem item rfl
  | unknown | scalar | object | union => cases h

/-- The view of a receiver describes the records that the receiver accepts. -/
theorem describes_view? {depth : Nat} {t : Ty} (ht : t.WellKeyed) (hcounted : t.Counted) {w : View}
    (hview : view? depth t = some w) {es : List (String × Value)}
    (h : t.Accepts (.integerKeyed format pattern) (.record es)) :
    w.Describes (.integerKeyed format pattern) es := by
  have haccepts := Ty.accepts_unwrap ht hcounted depth h
  have hflat := Ty.flat_unwrap depth t
  rw [view?] at hview
  generalize Ty.unwrap depth t = u at hview haccepts hflat
  obtain ⟨k, slot⟩ := u
  cases k with
  | unknown | scalar | object | union => cases hview
  | array item key shape origin =>
    cases hview
    -- an array with a shape accepts by the shape, which the view does not see
    obtain rfl : shape = none := (hflat _ List.mem_cons_self).2
    obtain ⟨es', hes, hentries⟩ := Ty.accepts_array_iff.1 haccepts
    cases hes
    intro e he
    obtain ⟨hitem, hkey⟩ := hentries e he
    constructor
    · rw [Ty.accepts_withRequired]
      cases item with
      | none => exact Ty.accepts_unknown _
      | some item => exact hitem
    · cases key with
      | some key => exact hkey
      | none =>
        -- without a key type the keys are integers
        obtain ⟨n, hn⟩ := hkey
        exact .inr ⟨n, hn, Ty.accepts_scalar_of_fits rfl⟩

/-- A method that has a result has it by the view of its receiver. -/
theorem exists_view_of_result {depth : Nat} {method : String} {t r : Ty} {args : List Argument}
    {p : Progress} (h : ((resolveCollectionMethod depth method t args).run p).1 = some r) :
    ∃ w m, view? depth t = some w ∧ Method.ofName? method = some m ∧
      ((resultOf depth t w args m).run p).1 = some r := by
  rw [resolveCollectionMethod] at h
  split at h
  · next w m hview hname => exact ⟨w, m, hview, hname, h⟩
  · cases h

/-- One item or nothing. -/
theorem accepts_item {F : Facets} {w : View} (hw : w.item.WellKeyed) {es : List (String × Value)}
    (h : w.Describes F es) : (Ty.union [w.item, .null]).Accepts F .null ∧
      ∀ e ∈ es, (Ty.union [w.item, .null]).Accepts F e.2 := by
  have hmembers : ∀ t ∈ [w.item, .null], t.WellKeyed :=
    List.forall_mem_cons.2 ⟨hw, List.forall_mem_singleton.2 Ty.wellKeyed_null⟩
  constructor
  · exact Ty.accepts_union_of_mem hmembers (List.mem_cons_of_mem _ List.mem_cons_self)
      (Ty.accepts_scalar_of_fits rfl)
  · intro e he
    exact Ty.accepts_union_of_mem hmembers List.mem_cons_self (h e he).1

/-- The fields that an argument names accept what the values have under one of the names. -/
theorem accepts_pluckFrom? {F : Facets} {item arg r : Ty} (hitem : item.WellKeyed)
    (h : pluckFrom? item arg = some r) {path : String} (hpath : path ∈ arg.alternatives.flatten)
    {v w : Value} (hv : item.Accepts F v) (hw : v.atPath? (Text.splitOn '.' path) = some w) :
    r.Accepts F w := by
  rw [pluckFrom?] at h
  split at h
  · cases h
  · cases h
    refine Ty.accepts_union_of_mem ?_ (List.mem_map_of_mem hpath) ?_
    · intro t ht
      obtain ⟨path', -, rfl⟩ := List.mem_map.1 ht
      exact (hitem.fieldAt path').withRequired false
    · exact (Ty.accepts_withRequired _ false).2 (Ty.accepts_fieldAt hitem hv hw)

end Collection

open Collection

/-- Of a record that the receiver accepts, the result of a method accepts what the method takes from
it: any one entry or null, the list of the values, each of the keys, and the list of what the values
have under a path. -/
theorem resolveCollectionMethod_sound (format pattern : String → Value → Prop) (depth : Nat)
    (method : String) (t : Ty) (ht : t.WellKeyed) (hcounted : t.Counted) (args : List Argument)
    (p : Progress) (r : Ty) (h : ((resolveCollectionMethod depth method t args).run p).1 = some r)
    (es : List (String × Value)) (hlength : es.length ≤ Numeral.positionBound)
    (hes : t.Accepts (.integerKeyed format pattern) (.record es)) :
    (method ∈ ["first", "last", "get"] → args[1]? = none →
        r.Accepts (.integerKeyed format pattern) .null ∧
          ∀ e ∈ es, r.Accepts (.integerKeyed format pattern) e.2) ∧
      (method = "values" → r.Accepts (.integerKeyed format pattern) (.list (Entries.values es))) ∧
      (method = "keys" → ∃ item key shape origin, r.kind = .array (some item) key shape origin ∧
        ∀ e ∈ es, Ty.AcceptsKey (.integerKeyed format pattern) (some item) e.1) ∧
      (method = "pluck" → ∀ column, args = [column] → ∀ path ∈ column.ty.alternatives.flatten,
        r.Accepts (.integerKeyed format pattern)
          (.list ((Entries.values es).filterMap (·.atPath? (Text.splitOn '.' path))))) := by
  obtain ⟨w, m, hview, hname, hr⟩ := exists_view_of_result h
  have hitem := wellKeyed_view? ht hview
  have hdescribes := describes_view? ht hcounted hview hes
  have hvalues : ∀ v ∈ Entries.values es, w.item.Accepts (.integerKeyed format pattern) v := by
    intro v hv
    obtain ⟨e, he, rfl⟩ := List.mem_map.1 hv
    exact (hdescribes e he).1
  have hcount : (Entries.values es).length ≤ Numeral.positionBound := by
    rw [Entries.values, List.length_map]
    exact hlength
  refine ⟨?_, ?_, ?_, ?_⟩
  · intro hmethod hsecond
    have hm : m = .item := by
      simp only [List.mem_cons, List.not_mem_nil, or_false] at hmethod
      rcases hmethod with rfl | rfl | rfl <;> exact (Option.some.inj hname).symm
    subst hm
    rw [resultOf, hsecond] at hr
    cases hr
    exact accepts_item hitem hdescribes
  · rintro rfl
    cases hname
    cases hr
    exact Ty.accepts_keyed_list hvalues hcount
  · rintro rfl
    cases hname
    cases hr
    exact ⟨w.position, none, none, w.origin, rfl, fun e he => (hdescribes e he).2⟩
  · rintro rfl column rfl path hpath
    cases hname
    obtain ⟨fields, hfields, rfl⟩ := Option.map_eq_some_iff.1 hr
    refine Ty.accepts_keyed_list ?_ (Nat.le_trans (List.length_filterMap_le _ _) hcount)
    intro u hu
    obtain ⟨v, hv, hu⟩ := List.mem_filterMap.1 hu
    exact accepts_pluckFrom? hitem hfields hpath (hvalues v hv) hu

/-- A map under two integers, of whose values one has what the path names. -/
theorem resolveCollectionMethod_sound_sparse :
    let F : Facets := .integerKeyed (fun _ _ => True) (fun _ _ => True)
    let people : Json :=
      .obj [("7", .obj [("name", .str "Ada"), ("born", .obj [("year", .int 1815)])]),
      ("9", .obj [("name", .str "Alan")])]
    let t := Ty.ofJson people
    let column : Argument := ⟨.ofLiteral (.str "born.year"), none⟩
    t.WellKeyed ∧ t.Counted ∧ t.Accepts F (.ofJson people) ∧
      ∃ years, ((resolveCollectionMethod 4 "pluck" t [column]).run {}).1 = some years ∧
        years.Accepts F (.list [.int 1815]) := by
  intro F people t column
  have hada : (Json.obj [("name", .str "Ada"), ("born", .obj [("year", .int 1815)])]).IsValue := by
    refine .obj (by simp [Entries.Distinct, Entries.keys]) ?_
    refine List.forall_mem_cons.2 ⟨.str "Ada", List.forall_mem_singleton.2 ?_⟩
    exact .obj (List.nodup_singleton _) (List.forall_mem_singleton.2 (.int 1815 (by decide)))
  have hpeople : people.IsValue := by
    refine .obj (by simp [Entries.Distinct, Entries.keys]) ?_
    refine List.forall_mem_cons.2 ⟨hada, List.forall_mem_singleton.2 ?_⟩
    exact .obj (List.nodup_singleton _) (List.forall_mem_singleton.2 (.str "Alan"))
  have hcounted : t.Counted := by
    refine .single rfl fun es hes => ?_
    cases hes
    decide
  have hsome : ((resolveCollectionMethod 4 "pluck" t [column]).run {}).1.isSome = true := by
    decide +kernel
  obtain ⟨years, hyears⟩ := Option.isSome_iff_exists.1 hsome
  refine ⟨hpeople.wellKeyed_ofJson, hcounted, hpeople.accepts_ofJson, years, hyears, ?_⟩
  obtain ⟨-, -, -, hpluck⟩ :=
    resolveCollectionMethod_sound (fun _ _ => True) (fun _ _ => True) 4 "pluck" t
    hpeople.wellKeyed_ofJson hcounted [column] {} years hyears _ (by decide) hpeople.accepts_ofJson
  exact hpluck rfl column rfl "born.year" (by decide +kernel)

end QueryTypes
