import QueryTypes.Proofs.Conduct.Engine
import QueryTypes.Proofs.WellFormed.Types

/-!
# Collections of well-formed types

What a collection method makes of a well-formed receiver, and of a well-formed answer of its
arguments, is well-formed (`Collection.optionalType_completed`), and so are the types of array
literals and of their entries.
-/

set_option autoImplicit false

namespace QueryTypes

/-- The item and the key type of a well-formed array are well-formed. -/
theorem Ty.WellFormed.item_key {t : Ty} (h : t.WellFormed) {item key : Option Ty}
    {shape : Option (Entries Ty)} {origin : Option String}
    (hkind : t.kind = .array item key shape origin) : OptionalType item ∧ OptionalType key := by
  cases h with
  | array _ _ _ hitem hkey _ =>
    cases hkind
    exact ⟨hitem, hkey⟩
  | _ => cases hkind

namespace Collection

/-- The view of a well-formed array. -/
structure View.WellFormed (v : View) : Prop where
  item : v.item.WellFormed
  key : OptionalType v.key

theorem View.WellFormed.position {v : View} (h : v.WellFormed) : v.position.WellFormed :=
  Ty.wellFormed_getD h.key (Ty.wellFormed_scalar .integer)

theorem wellFormed_view? {depth : Nat} {t : Ty} (ht : t.WellFormed) {v : View}
    (h : view? depth t = some v) : v.WellFormed := by
  unfold view? at h
  split at h
  · next item key shape origin hkind =>
    cases h
    obtain ⟨hitem, hkey⟩ := (ht.unwrap depth).item_key hkind
    exact ⟨(Ty.wellFormed_getD hitem Ty.wellFormed_unknown).withRequired false, hkey⟩
  · cases h

theorem wellFormed_fieldAt {t : Ty} (h : t.WellFormed) (path : String) :
    (fieldAt t path).WellFormed :=
  List.foldlRecOn _ _ h fun _ hu name _ => hu.field name

theorem optionalType_pluckFrom? {item : Ty} (h : item.WellFormed) (arg : Ty) :
    OptionalType (pluckFrom? item arg) := by
  unfold pluckFrom?
  split
  · exact optionalType_none
  · refine optionalType_some (Ty.wellFormed_union fun t ht => ?_)
    obtain ⟨path, -, rfl⟩ := List.mem_map.1 ht
    exact (wellFormed_fieldAt h path).withRequired false

theorem optionalType_pluck? {v : View} (hv : v.WellFormed) (args : List Argument) :
    OptionalType (pluck? v args) := by
  match args with
  | [] => exact optionalType_none
  | [value] =>
    refine optionalType_map (optionalType_pluckFrom? hv.item value.ty) fun t ht => ?_
    exact (Ty.wellFormed_list ht).withOrigin _
  | value :: key :: _ =>
    intro t ht
    obtain ⟨value', hvalue, ht⟩ := Option.bind_eq_some_iff.1 ht
    obtain ⟨key', hkey, ht⟩ := Option.bind_eq_some_iff.1 ht
    cases ht
    refine Ty.WellFormed.withOrigin (Ty.wellFormed_keyed ?_ ?_) _
    · exact optionalType_some (optionalType_pluckFrom? hv.item key.ty key' hkey)
    · exact optionalType_pluckFrom? hv.item value.ty value' hvalue

theorem wellFormed_keyLiteral (key : String) : (keyLiteral key).WellFormed := by
  unfold keyLiteral
  split
  · exact .scalar _ _
  · exact .scalar _ _

theorem optionalType_entryMap? (depth : Nat) {t : Ty} (h : t.WellFormed) :
    OptionalType (entryMap? depth t) := by
  unfold entryMap?
  split
  · next key value origin hkind =>
    have hvalue : value.WellFormed := h.entries hkind (key, value) List.mem_cons_self
    refine optionalType_some (Ty.wellFormed_keyed ?_ (hvalue.withRequired false))
    exact optionalType_some (wellFormed_keyLiteral key)
  · split
    · next item key shape origin hkind =>
      obtain ⟨hitem, hkey⟩ := (h.unwrap depth).item_key hkind
      refine optionalType_some (Ty.wellFormed_keyed ?_ ?_)
      · exact optionalType_some (Ty.wellFormed_getD hkey (Ty.wellFormed_scalar .integer))
      · exact Ty.wellFormed_getD hitem Ty.wellFormed_unknown
    · exact nofun
  · exact nofun

theorem optionalType_gather? (depth : Nat) (v : View) {pairs : Ty} (h : pairs.WellFormed) :
    OptionalType (gather? depth v pairs) := by
  intro t ht
  obtain ⟨maps, hmaps, rfl⟩ := Option.map_eq_some_iff.1 ht
  refine Ty.wellFormed_union fun m hm => ?_
  obtain ⟨pair, hpair, hentry⟩ := exists_of_forall₂ (mapM_eq_some.1 hmaps) hm
  have hmap := optionalType_map (optionalType_entryMap? depth (h.members pair hpair).1)
    fun t ht => ht.withOrigin v.origin
  exact hmap m hentry

/-- What a method makes of a well-formed collection and of a well-formed answer of its arguments. -/
theorem optionalType_completed {depth : Nat} {receiver : Ty} (hreceiver : receiver.WellFormed)
    {v : View} (hv : v.WellFormed) (args : List Argument) {answer : Option Ty}
    (hanswer : OptionalType answer) (m : Method) :
    OptionalType (completed depth receiver v args answer m) := by
  cases m with
  | toArray => exact optionalType_some (hreceiver.withOrigin none)
  | values => exact optionalType_some ((Ty.wellFormed_list hv.item).withOrigin _)
  | keys => exact optionalType_some ((Ty.wellFormed_list hv.position).withOrigin _)
  | item =>
    exact optionalType_map hanswer fun fallback hfallback =>
      Ty.wellFormed_union_pair hv.item hfallback
  | count => exact optionalType_some (.scalar _ _)
  | test => exact optionalType_some (Ty.wellFormed_scalar _)
  | map =>
    apply optionalType_map hanswer
    intro t ht
    exact (Ty.wellFormed_keyed hv.key (ht.withRequired false)).withOrigin _
  | mapWithKeys =>
    cases answer with
    | none => exact nofun
    | some pairs => exact optionalType_gather? depth v (hanswer pairs rfl)
  | pluck => exact optionalType_pluck? hv args
  | rearrange => exact optionalType_some hreceiver

end Collection

/-! ## Array literals -/

namespace Reading

/-- A literal array is a shape or a map, never both. -/
theorem wellFormed_type {st : ArrayState} (h : st.Holds Ty.WellFormed) : st.type.WellFormed := by
  rw [ArrayState.type]
  split
  · exact Ty.wellFormed_shape h.shape
  · refine Ty.wellFormed_keyed (optionalType_some ?_) (Ty.wellFormed_union h.values)
    apply Ty.wellFormed_union
    rw [List.forall_mem_append, List.forall_mem_map]
    refine ⟨h.openKeys, fun name _ => ?_⟩
    rw [ArrayState.keyType]
    split
    · exact Ty.wellFormed_scalar .integer
    · exact Ty.wellFormed_scalar .string

theorem wellFormed_entry {target : Ty} (h : target.WellFormed) (key : Ty) :
    (entry target key).WellFormed := by
  rw [entry]
  split
  · next name _ => exact h.field name
  · split
    · next item _ _ hkind =>
      exact Ty.wellFormed_getD (h.item_key hkind).1 Ty.wellFormed_unknown
    · exact Ty.wellFormed_unknown

end Reading

end QueryTypes
