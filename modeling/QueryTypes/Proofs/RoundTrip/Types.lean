import QueryTypes.Document.Ty
import QueryTypes.Proofs.Numeral
import QueryTypes.Proofs.RoundTrip.Fields

/-!
# Types read back

The document of a type has the members of the kind and those of the place side by side. No name
belongs to both (`Kind.valuesOf_slotName`, `Kind.shownIn_beside`), so each of the two is read from
the one object as if the other were not there, and a type is read back from its document
(`Ty.decode_toJson`).

Two things are asked of a type (`Ty.Writable`): its doubles are finite, as others have no written
form, and its shapes and objects give no name twice.
-/

set_option autoImplicit false

namespace QueryTypes

/-! ## Scalars -/

/-- The literal is no infinite double and no double that is not a number. -/
def Literal.Finite : Literal → Prop
  | .float x => x.isFinite = true
  | .bool _ | .int _ | .str _ => True

theorem Json.ofDouble_of_isFinite {x : Double} (h : x.isFinite = true) :
    Json.ofDouble x = .float x :=
  if_pos h

theorem Literal.decode_toJson {l : Literal} (h : l.Finite) : Literal.decode l.toJson = .ok l := by
  cases l with
  | bool | str => rfl
  | int n =>
    show Except.ok (Literal.ofInt n.toInt) = _
    rw [Literal.ofInt, if_pos (Numeral.fitsInt64_toInt n), Int64.ofInt_toInt]
  | float x =>
    rw [Literal.toJson, Json.ofDouble_of_isFinite h]
    rfl

theorem ScalarKind.decode_name (k : ScalarKind) (inside : Bool) :
    ScalarKind.decode inside (.str k.name) = .ok k := by
  cases k <;> rfl

/-- The literals and bounds of a scalar type are finite. -/
structure Scalar.Finite (s : Scalar) : Prop where
  literals : ∀ l ∈ s.literals.toList, l.Finite
  minimum : ∀ x, s.minimum = some x → x.isFinite = true
  maximum : ∀ x, s.maximum = some x → x.isFinite = true

theorem Decode.double_ofDouble {x : Double} (h : x.isFinite = true) :
    Json.ofDouble x ≠ .null ∧ Decode.double (.ofDouble x) = .ok x := by
  rw [Json.ofDouble_of_isFinite h]
  exact ⟨nofun, rfl⟩

theorem Decode.string_str (s : String) : Json.str s ≠ .null ∧ Decode.string (.str s) = .ok s :=
  ⟨nofun, rfl⟩

/-- The literals of a scalar type, left out where there are none. -/
theorem Scalar.gives_literals {ms : List (String × Json)} {s : LiteralSet}
    (hvalues : Json.valuesOf "literals" ms =
      if s.toList.isEmpty then [] else [.arr (s.toList.map Literal.toJson)])
    (h : ∀ l ∈ s.toList, l.Finite) :
    (Record.optional 1 "literals" SortedSet.empty
      fun j => (Decode.list Literal.decode j).map SortedSet.ofList).Gives ms s := by
  have hlist : Decode.list Literal.decode (.arr (s.toList.map Literal.toJson)) = .ok s.toList :=
    Decode.list_map fun l hl => Literal.decode_toJson (h l hl)
  cases hempty : s.toList with
  | nil =>
    have hs : s = SortedSet.empty := by
      rw [← SortedSet.ofList_toList s, hempty]
      rfl
    rw [hempty] at hvalues
    rw [hs]
    exact .missing hvalues
  | cons l rest =>
    rw [hempty, List.isEmpty_cons, ← hempty] at hvalues
    refine .field hvalues ?_
    rw [hlist]
    exact congrArg Except.ok (SortedSet.ofList_toList s)

/-- A scalar type is read from its members, whatever stands beside them under other names. -/
theorem Scalar.gives_record {s : Scalar} (h : s.Finite) {ms : List (String × Json)}
    (hms : ∀ name ∈ ["scalar", "literals", "format", "minimum", "maximum", "pattern"],
      Json.valuesOf name ms = Json.valuesOf name s.toMembers) : Scalar.record.Gives ms s := by
  simp only [List.forall_mem_cons, Scalar.toMembers, Json.valuesOf_cons, Json.valuesOf_append,
    Json.valuesOf_memberOption, Json.valuesOf_memberList] at hms
  obtain ⟨hkind, hliterals, hformat, hminimum, hmaximum, hpattern, -⟩ := hms
  have hstring (o : Option String) (name : String) (number : Nat)
      (hvalues : Json.valuesOf name ms = (o.map Json.str).toList) :
      (Record.optional number name none (Decode.nullable Decode.string)).Gives ms o :=
    .nullable hvalues fun s _ => Decode.string_str s
  have hdouble (o : Option Double) (hfinite : ∀ x, o = some x → x.isFinite = true) (name : String)
      (number : Nat) (hvalues : Json.valuesOf name ms = (o.map Json.ofDouble).toList) :
      (Record.optional number name none (Decode.nullable Decode.double)).Gives ms o :=
    .nullable hvalues fun x hx => Decode.double_ofDouble (hfinite x hx)
  have hscalar : (Record.required 0 "scalar" (ScalarKind.decode true)).Gives ms s.kind :=
    .field (by simpa using hkind) (s.kind.decode_name true)
  have hset := gives_literals (by simpa using hliterals) h.literals
  have hformat := hstring s.format "format" 2 (by simpa using hformat)
  have hminimum := hdouble s.minimum h.minimum "minimum" 3 (by simpa using hminimum)
  have hmaximum := hdouble s.maximum h.maximum "maximum" 4 (by simpa using hmaximum)
  have hpattern := hstring s.pattern "pattern" 5 (by simpa using hpattern)
  exact (((((hscalar.map Scalar.mk).seq hset).seq hformat).seq hminimum).seq hmaximum).seq hpattern

/-! ## Kinds and places -/

/-- The names of the members of a place. -/
def Slot.names : List String := ["required", "description", "examples"]

/-- A place has no members under other names. -/
theorem Slot.valuesOf_toMembers {name : String} (h : name ∉ Slot.names) (s : Slot) :
    Json.valuesOf name s.toMembers = [] := by
  simp only [Slot.names, List.mem_cons, List.not_mem_nil, or_false, not_or] at h
  obtain ⟨hrequired, hdescription, hexamples⟩ := h
  cases hr : s.required <;>
    simp [Slot.toMembers, hr, Ne.symm hrequired, Ne.symm hdescription, Ne.symm hexamples]

theorem Ty.memberOf_eq (name : String) (o : Option Ty) :
    Ty.memberOf name o = Json.memberOption name Ty.toJson o := by
  cases o with
  | none => simp [Ty.memberOf, Json.memberOption]
  | some t => simp [Ty.memberOf, Json.memberOption]

theorem Ty.toJsonEntries_eq_map (es : List (String × Ty)) :
    Ty.toJsonEntries es = es.map fun e => (e.1, e.2.toJson) := by
  induction es with
  | nil => simp [Ty.toJsonEntries]
  | cons e rest ih => simp [Ty.toJsonEntries, ih]

theorem Ty.toJsonList_eq_map (ts : List Ty) : Ty.toJsonList ts = ts.map Ty.toJson := by
  induction ts with
  | nil => simp [Ty.toJsonList]
  | cons t rest ih => simp [Ty.toJsonList, ih]

/-- The members of an array type. -/
theorem Kind.toMembers_array (item key : Option Ty) (shape : Option (List (String × Ty)))
    (origin : Option String) :
    (Kind.array item key shape origin).toMembers =
      ("kind", .str "array") :: Json.memberOption "item" Ty.toJson item ++
        Json.memberOption "key" Ty.toJson key ++
        Json.memberOption "shape" (fun es => .obj (es.map fun e => (e.1, e.2.toJson))) shape ++
        Json.memberOption "origin" .str origin := by
  cases shape with
  | none => simp [Kind.toMembers, Ty.memberOf_eq, Json.memberOption]
  | some es => simp [Kind.toMembers, Ty.memberOf_eq, Ty.toJsonEntries_eq_map, Json.memberOption]

/-- A kind has no members under the names of a place. -/
theorem Kind.valuesOf_slotName {name : String} (h : name ∈ Slot.names) (k : Kind) :
    Json.valuesOf name k.toMembers = [] := by
  simp only [Slot.names, List.mem_cons, List.not_mem_nil, or_false] at h
  cases k with
  | unknown => rcases h with rfl | rfl | rfl <;> simp [Kind.toMembers]
  | scalar s => rcases h with rfl | rfl | rfl <;> simp [Kind.toMembers, Scalar.toMembers]
  | array item key shape origin => rcases h with rfl | rfl | rfl <;> simp [Kind.toMembers_array]
  | object properties origin => rcases h with rfl | rfl | rfl <;> simp [Kind.toMembers]
  | union members => rcases h with rfl | rfl | rfl <;> simp [Kind.toMembers]

/-- A place is read from its members, beside those of a kind. -/
theorem Ty.gives_slotRecord (k : Kind) (s : Slot) :
    Ty.slotRecord.Gives (k.toMembers ++ s.toMembers) s := by
  -- no kind has a member with the name of one of these
  have hvalues {name : String} (h : name ∈ Slot.names) :
      Json.valuesOf name (k.toMembers ++ s.toMembers) = Json.valuesOf name s.toMembers := by
    rw [Json.valuesOf_append, k.valuesOf_slotName h, List.nil_append]
  have hrequired : (Record.optional 0 "required" false Decode.bool).Gives
      (k.toMembers ++ s.toMembers) s.required := by
    cases hr : s.required with
    | false => exact .missing ((hvalues (by decide)).trans (by simp [Slot.toMembers, hr]))
    | true =>
      exact .field (j := .bool true)
        ((hvalues (by decide)).trans (by simp [Slot.toMembers, hr])) rfl
  have hdescription : (Record.optional 1 "description" none (Decode.nullable Decode.string)).Gives
      (k.toMembers ++ s.toMembers) s.description := by
    refine .nullable ((hvalues (by decide)).trans ?_) fun d _ => Decode.string_str d
    cases hr : s.required <;> simp [Slot.toMembers, hr]
  have hexamples : (Record.optional 2 "examples" [] (Decode.list Decode.string)).Gives
      (k.toMembers ++ s.toMembers) s.examples := by
    refine .list ((hvalues (by decide)).trans ?_) fun x _ => (Decode.string_str x).2
    cases hr : s.required <;> simp [Slot.toMembers, hr]
  exact ((hrequired.map Slot.mk).seq hdescription).seq hexamples

/-! ## Types -/

/-- The doubles inside a type are finite, and no shape or object gives a name twice. -/
inductive Ty.Writable : Ty → Prop
  | unknown (slot : Slot) : Writable (.mk .unknown slot)
  | scalar {s : Scalar} (slot : Slot) (finite : s.Finite) : Writable (.mk (.scalar s) slot)
  | array {item key : Option Ty} {shape : Option (List (String × Ty))} (origin : Option String)
      (slot : Slot) (item_writable : ∀ t, item = some t → Writable t)
      (key_writable : ∀ t, key = some t → Writable t)
      (distinct : ∀ es, shape = some es → Entries.Distinct es)
      (entries_writable : ∀ es, shape = some es → ∀ e ∈ es, Writable e.2) :
      Writable (.mk (.array item key shape origin) slot)
  | object {properties : List (String × Ty)} (origin : Option String) (slot : Slot)
      (distinct : Entries.Distinct properties)
      (properties_writable : ∀ e ∈ properties, Writable e.2) :
      Writable (.mk (.object properties origin) slot)
  | union {members : List Ty} (slot : Slot) (members_writable : ∀ t ∈ members, Writable t) :
      Writable (.mk (.union members) slot)

theorem Ty.toJson_ne_null (t : Ty) : t.toJson ≠ .null := by
  obtain ⟨k, slot⟩ := t
  rw [Ty.toJson]
  exact nofun

/-- An object shows the members of a kind: under every name that is not one of a place. -/
def Kind.ShownIn (k : Kind) (ms : List (String × Json)) : Prop :=
  ∀ name, name ∉ Slot.names → Json.valuesOf name ms = Json.valuesOf name k.toMembers

theorem Kind.shownIn_beside (k : Kind) (slot : Slot) :
    k.ShownIn (k.toMembers ++ slot.toMembers) := by
  intro name hname
  rw [Json.valuesOf_append, slot.valuesOf_toMembers hname, List.append_nil]

section Kinds

variable {ty : Json → Decode Ty} {ms : List (String × Json)}

theorem Kind.decodeWith_unknown (hms : Kind.unknown.ShownIn ms) :
    Kind.decodeWith ty (.members ms) = .ok .unknown := by
  have htag : Json.valuesOf "kind" ms = [.str "unknown"] :=
    (hms "kind" (by decide)).trans (by simp [Kind.toMembers])
  rw [Kind.decodeWith, Tag.split_members true htag (by decide)]
  rfl

theorem Kind.decodeWith_scalar {s : Scalar} (h : s.Finite) (hms : (Kind.scalar s).ShownIn ms) :
    Kind.decodeWith ty (.members ms) = .ok (.scalar s) := by
  have htag : Json.valuesOf "kind" ms = [.str "scalar"] :=
    (hms "kind" (by decide)).trans (by simp [Kind.toMembers, Scalar.toMembers])
  have hrecord : Scalar.record.Gives ms s := by
    apply Scalar.gives_record h
    intro name hname
    have hother : name ∉ Slot.names ∧ "kind" ≠ name := by
      simp only [List.mem_cons, List.not_mem_nil, or_false] at hname
      rcases hname with rfl | rfl | rfl | rfl | rfl | rfl <;> decide
    rw [hms name hother.1, Kind.toMembers, Json.valuesOf_cons, if_neg hother.2]
  rw [Kind.decodeWith, Tag.split_members true htag (by decide)]
  exact (hrecord.map Kind.scalar).readFrom 6

theorem Kind.decodeWith_array {item key : Option Ty} {shape : Option (List (String × Ty))}
    {origin : Option String} (hms : (Kind.array item key shape origin).ShownIn ms)
    (hitem : ∀ t, item = some t → ty t.toJson = .ok t)
    (hkey : ∀ t, key = some t → ty t.toJson = .ok t)
    (hdistinct : ∀ es, shape = some es → Entries.Distinct es)
    (hentries : ∀ es, shape = some es → ∀ e ∈ es, ty e.2.toJson = .ok e.2) :
    Kind.decodeWith ty (.members ms) = .ok (.array item key shape origin) := by
  have htag : Json.valuesOf "kind" ms = [.str "array"] :=
    (hms "kind" (by decide)).trans (by simp [Kind.toMembers_array])
  have hitem : (Record.optional 0 "item" none (Decode.nullable ty)).Gives ms item :=
    .nullable ((hms "item" (by decide)).trans (by simp [Kind.toMembers_array]))
      fun t ht => ⟨t.toJson_ne_null, hitem t ht⟩
  have hkey : (Record.optional 1 "key" none (Decode.nullable ty)).Gives ms key :=
    .nullable ((hms "key" (by decide)).trans (by simp [Kind.toMembers_array]))
      fun t ht => ⟨t.toJson_ne_null, hkey t ht⟩
  have hvalues : Json.valuesOf "shape" ms =
      (shape.map fun es => Json.obj (es.map fun e => (e.1, e.2.toJson))).toList :=
    (hms "shape" (by decide)).trans (by simp [Kind.toMembers_array])
  have hshape :
      (Record.optional 2 "shape" none (Decode.nullable (Decode.entries ty))).Gives ms shape :=
    .nullable hvalues fun es hes => ⟨nofun, Decode.entries_map (hdistinct es hes) (hentries es hes)⟩
  have horigin :
      (Record.optional 3 "origin" none (Decode.nullable Decode.string)).Gives ms origin :=
    .nullable ((hms "origin" (by decide)).trans (by simp [Kind.toMembers_array]))
      fun o _ => Decode.string_str o
  rw [Kind.decodeWith, Tag.split_members true htag (by decide)]
  exact ((((hitem.map Kind.array).seq hkey).seq hshape).seq horigin).readFrom 4

theorem Kind.decodeWith_object {properties : List (String × Ty)} {origin : Option String}
    (hms : (Kind.object properties origin).ShownIn ms) (hdistinct : Entries.Distinct properties)
    (hproperties : ∀ e ∈ properties, ty e.2.toJson = .ok e.2) :
    Kind.decodeWith ty (.members ms) = .ok (.object properties origin) := by
  have htag : Json.valuesOf "kind" ms = [.str "object"] :=
    (hms "kind" (by decide)).trans (by simp [Kind.toMembers])
  have hproperties : (Record.optional 0 "properties" [] (Decode.entries ty)).Gives ms properties :=
    .field
      ((hms "properties" (by decide)).trans (by simp [Kind.toMembers, Ty.toJsonEntries_eq_map]))
      (Decode.entries_map hdistinct hproperties)
  have horigin :
      (Record.optional 1 "origin" none (Decode.nullable Decode.string)).Gives ms origin :=
    .nullable ((hms "origin" (by decide)).trans (by simp [Kind.toMembers]))
      fun o _ => Decode.string_str o
  rw [Kind.decodeWith, Tag.split_members true htag (by decide)]
  exact ((hproperties.map Kind.object).seq horigin).readFrom 2

theorem Kind.decodeWith_union {members : List Ty} (hms : (Kind.union members).ShownIn ms)
    (hmembers : ∀ t ∈ members, ty t.toJson = .ok t) :
    Kind.decodeWith ty (.members ms) = .ok (.union members) := by
  have htag : Json.valuesOf "kind" ms = [.str "union"] :=
    (hms "kind" (by decide)).trans (by simp [Kind.toMembers])
  have hmembers : (Record.required 0 "members" (Decode.list ty)).Gives ms members :=
    .field ((hms "members" (by decide)).trans (by simp [Kind.toMembers, Ty.toJsonList_eq_map]))
      (Decode.list_map hmembers)
  rw [Kind.decodeWith, Tag.split_members true htag (by decide)]
  exact (hmembers.map Kind.union).readFrom 1

end Kinds

/-- A type is read back if its kind is. -/
theorem Ty.decodeWith_toJson {ty : Json → Decode Ty} {k : Kind} (slot : Slot)
    (h : ∀ ms, k.ShownIn ms → Kind.decodeWith ty (.members ms) = .ok k) :
    Ty.decodeWith ty (Ty.mk k slot).toJson = .ok (.mk k slot) := by
  have hkind : (Record.atEnd (Kind.decodeWith ty)).Gives (k.toMembers ++ slot.toMembers) k :=
    .atEnd (h _ (k.shownIn_beside slot))
  rw [Ty.toJson]
  exact ((hkind.map Ty.mk).seq (Ty.gives_slotRecord k slot)).readObject

/-! ## Depth -/

/-- What a kind holds fits in one level less than the type. -/
theorem Ty.depth_member_le {k : Kind} {slot : Slot} {depth : Nat}
    (h : (Ty.mk k slot).toJson.depth ≤ depth + 1) (m : String × Json) (hm : m ∈ k.toMembers) :
    m.2.depth ≤ depth := by
  rw [Ty.toJson] at h
  have hlt := Json.depth_lt_of_mem_obj (List.mem_append_left slot.toMembers hm)
  omega

theorem Ty.depth_entry_le {es : List (String × Ty)} {e : String × Ty} (he : e ∈ es) {depth : Nat}
    (h : (Json.obj (es.map fun e => (e.1, e.2.toJson))).depth ≤ depth) :
    e.2.toJson.depth ≤ depth := by
  have hmem : (e.1, e.2.toJson) ∈ es.map fun e => (e.1, e.2.toJson) := List.mem_map.2 ⟨e, he, rfl⟩
  exact Nat.le_trans (Nat.le_of_lt (Json.depth_lt_of_mem_obj hmem)) h

/-- A type is read back to any depth that its document fits in. -/
theorem Ty.decodeTo_toJson {t : Ty} (ht : t.Writable) {depth : Nat}
    (hdepth : t.toJson.depth ≤ depth) : Ty.decodeTo depth t.toJson = .ok t := by
  -- one level is read here, and the types inside fit in the depth that is left
  induction depth generalizing t with
  | zero => exact absurd hdepth (Nat.not_le.2 t.toJson.depth_pos)
  | succ depth ih =>
    cases ht with
    | unknown slot => exact Ty.decodeWith_toJson slot fun ms hms => Kind.decodeWith_unknown hms
    | scalar slot hfinite =>
      exact Ty.decodeWith_toJson slot fun ms hms => Kind.decodeWith_scalar hfinite hms
    | @array item key shape origin slot hitem hkey hdistinct hentries =>
      have hfits := Ty.depth_member_le hdepth
      apply Ty.decodeWith_toJson
      intro ms hms
      refine Kind.decodeWith_array hms ?_ ?_ hdistinct ?_
      · rintro t rfl
        refine ih (hitem t rfl) (hfits ("item", t.toJson) ?_)
        simp [Kind.toMembers_array, Json.memberOption]
      · rintro t rfl
        refine ih (hkey t rfl) (hfits ("key", t.toJson) ?_)
        simp [Kind.toMembers_array, Json.memberOption]
      · rintro es rfl e he
        refine ih (hentries es rfl e he) (Ty.depth_entry_le he (hfits ("shape", _) ?_))
        simp [Kind.toMembers_array, Json.memberOption]
    | @object properties origin slot hdistinct hproperties =>
      have hfits := Ty.depth_member_le hdepth
      apply Ty.decodeWith_toJson
      intro ms hms
      refine Kind.decodeWith_object hms hdistinct ?_
      intro e he
      refine ih (hproperties e he) (Ty.depth_entry_le he (hfits ("properties", _) ?_))
      simp [Kind.toMembers, Ty.toJsonEntries_eq_map]
    | @union members slot hmembers =>
      have hlist : (Json.arr (members.map Ty.toJson)).depth ≤ depth := by
        apply Ty.depth_member_le hdepth ("members", _)
        simp [Kind.toMembers, Ty.toJsonList_eq_map]
      apply Ty.decodeWith_toJson
      intro ms hms
      refine Kind.decodeWith_union hms ?_
      intro t ht
      have hlt := Json.depth_lt_of_mem_arr (List.mem_map_of_mem (f := Ty.toJson) ht)
      exact ih (hmembers t ht) (Nat.le_trans (Nat.le_of_lt hlt) hlist)

/-- A type is read back from its document. -/
theorem Ty.decode_toJson {t : Ty} (h : t.Writable) : Ty.decode t.toJson = .ok t :=
  Ty.decodeTo_toJson h (Nat.le_refl _)

end QueryTypes
