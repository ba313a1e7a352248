import QueryTypes.Document.Catalog
import QueryTypes.Proofs.Lists
import QueryTypes.Proofs.Reading

/-!
# Types and catalogs that are read

The members of an object in a document become a map proper, the last of equal names winning. So a
type that is read has every property that a type has by its parts, as long as their maps are maps
proper (`Ty.Composed`, `Ty.decode_of_composed`). In particular no shape inside it gives a name
twice, and every catalog that is read is well keyed (`Catalog.wellKeyed_decode`).
-/

set_option autoImplicit false

namespace QueryTypes

variable {α β : Type}

/-! ## Readers -/

/-- Whatever is read has the property. -/
def Decode.Reads (d : Json → Decode α) (P : α → Prop) : Prop := ∀ j a, d j = .ok a → P a

/-- Whatever is read from a record has the property. -/
def Record.Reads (r : Record α) (P : α → Prop) : Prop := ∀ s a, r s = .ok a → P a

/-- A map proper whose values have a property. -/
structure Entries.MapOf (P : α → Prop) (es : Entries α) : Prop where
  distinct : es.Distinct
  values : ∀ e ∈ es, P e.2

theorem Entries.mapOf_nil {P : α → Prop} : Entries.MapOf P [] :=
  ⟨List.nodup_nil, fun _ he => absurd he List.not_mem_nil⟩

namespace Decode.Reads

variable {d : Json → Decode α} {P : α → Prop}

theorem elements (hd : Reads d P) {elems : List Json} {i : Nat} {as : List α}
    (h : elementsFrom d i elems = .ok as) : ∀ a ∈ as, P a := by
  induction elems generalizing i as with
  | nil =>
    cases h
    exact fun a ha => absurd ha List.not_mem_nil
  | cons j rest ih =>
    obtain ⟨first, hfirst, h⟩ := exists_of_bind_eq_ok h
    obtain ⟨others, hothers, h⟩ := exists_of_bind_eq_ok h
    cases h
    exact List.forall_mem_cons.2 ⟨hd j first (eq_ok_of_mapError hfirst), ih hothers⟩

theorem list (hd : Reads d P) : Reads (Decode.list d) fun as => ∀ a ∈ as, P a := by
  intro j as h
  cases j with
  | arr elems => exact hd.elements h
  | _ => cases h

theorem nullable (hd : Reads d P) : Reads (Decode.nullable d) fun o => ∀ a, o = some a → P a := by
  intro j o h a ha
  rw [Decode.nullable.eq_def] at h
  split at h
  · cases h
    cases ha
  · obtain ⟨b, hb, hsome⟩ := exists_of_map_eq_ok h
    rw [← hsome, Option.some.injEq] at ha
    exact hd j a (ha ▸ hb)

theorem members (hd : Reads d P) {ms : List (String × Json)} {es : List (String × α)}
    (h : Decode.members d ms = .ok es) : ∀ e ∈ es, P e.2 := by
  induction ms generalizing es with
  | nil =>
    cases h
    exact fun e he => absurd he List.not_mem_nil
  | cons m rest ih =>
    obtain ⟨name, j⟩ := m
    obtain ⟨first, hfirst, h⟩ := exists_of_bind_eq_ok h
    obtain ⟨others, hothers, h⟩ := exists_of_bind_eq_ok h
    cases h
    exact List.forall_mem_cons.2 ⟨hd j first (eq_ok_of_mapError hfirst), ih hothers⟩

/-- An object is read into a map proper. -/
theorem entries (hd : Reads d P) :
    Reads (Decode.entries d) (Entries.MapOf P) := by
  intro j es h
  cases j with
  | obj ms =>
    obtain ⟨pairs, hpairs, rfl⟩ := exists_of_map_eq_ok h
    have hmembers := hd.members hpairs
    refine ⟨Entries.distinct_ofList pairs, ?_⟩
    -- an entry of the map was put there for one of the members
    apply List.foldlRecOn (motive := fun es : Entries α => ∀ e ∈ es, P e.2) pairs
    · exact fun e he => absurd he List.not_mem_nil
    · intro es hes pair hpair
      exact Entries.forall_mem_put hes pair.1 (hmembers pair hpair)
  | _ => cases h

end Decode.Reads

/-! ## Records -/

namespace Record.Reads

variable {P : α → Prop} {Q : β → Prop}

theorem seq {f : Record (α → β)} {x : Record α} (hf : f.Reads fun g => ∀ a, P a → Q (g a))
    (hx : x.Reads P) : Record.Reads (f <*> x) Q := by
  intro s b h
  change Record.seq f x s = .ok b at h
  unfold Record.seq at h
  split at h
  · next g a hg ha =>
    cases h
    exact hf s g hg a (hx s a ha)
  · cases h
  · cases h
  · cases h

theorem map {f : α → β} {x : Record α} (hx : x.Reads P) (hf : ∀ a, P a → Q (f a)) :
    Record.Reads (f <$> x) Q := by
  have hpure : Record.Reads (fun _ => .ok f) fun g => ∀ a, P a → Q (g a) := by
    intro s g hg
    cases hg
    exact hf
  exact hpure.seq hx

theorem field {missing : Option α} (hmissing : ∀ a, missing = some a → P a) (number : Nat)
    (name : String) {d : Json → Decode α} (hd : Decode.Reads d P) :
    (Record.field missing number name d).Reads P := by
  intro s a h
  unfold Record.field at h
  split at h
  · -- the field is not given
    cases missing with
    | none => cases h
    | some b =>
      cases h
      exact hmissing a rfl
  · split at h
    · cases h
    · next b hb =>
      split at h
      · cases h
        exact hd _ a hb
      · cases h

theorem required (number : Nat) (name : String) {d : Json → Decode α} (hd : Decode.Reads d P) :
    (Record.required number name d).Reads P :=
  field nofun number name hd

theorem optional (number : Nat) (name : String) {otherwise : α} (hotherwise : P otherwise)
    {d : Json → Decode α} (hd : Decode.Reads d P) :
    (Record.optional number name otherwise d).Reads P :=
  field (fun _ h => Option.some.inj h ▸ hotherwise) number name hd

/-- Of a part that does not matter nothing is said. -/
theorem trivial (r : Record α) : r.Reads fun _ => True := fun _ _ _ => True.intro

theorem atEnd {d : Source → Decode α} (hd : ∀ s a, d s = .ok a → P a) : (Record.atEnd d).Reads P :=
  fun s a h => hd s a (eq_ok_of_mapError h)

theorem readFrom {r : Record α} (hr : r.Reads P) {fields : Nat} {s : Source} {a : α}
    (h : r.readFrom fields s = .ok a) : P a := by
  unfold Record.readFrom at h
  split at h
  · cases h
  · next b hb =>
    cases h
    exact hr _ a hb
  · next b hb =>
    split at h
    · cases h
      exact hr _ a hb
    · cases h

theorem read {r : Record α} (hr : r.Reads P) (fields : Nat) : Decode.Reads (r.read fields) P := by
  intro j a h
  cases j with
  | obj ms => exact hr.readFrom h
  | arr es => exact hr.readFrom h
  | _ => cases h

theorem readObject {r : Record α} (hr : r.Reads P) : Decode.Reads r.readObject P := by
  intro j a h
  cases j with
  | obj ms => exact hr.readFrom h
  | _ => cases h

end Record.Reads

/-! ## Types -/

/-- A property that a type has if its parts have it, and if its maps are maps proper. -/
structure Ty.Composed (P : Ty → Prop) : Prop where
  unknown : ∀ slot, P (.mk .unknown slot)
  scalar : ∀ s slot, P (.mk (.scalar s) slot)
  array : ∀ {item key shape} origin slot, (∀ t, item = some t → P t) → (∀ t, key = some t → P t) →
    (∀ es, shape = some es → Entries.MapOf P es) → P (.mk (.array item key shape origin) slot)
  object : ∀ {properties} origin slot, Entries.MapOf P properties →
    P (.mk (.object properties origin) slot)
  union : ∀ {members} slot, (∀ t ∈ members, P t) → P (.mk (.union members) slot)

theorem Ty.composed_wellKeyed : Ty.Composed Ty.WellKeyed where
  unknown slot := .unknown slot
  scalar s slot := .scalar s slot
  array origin slot hitem hkey hshape :=
    .array origin slot hitem hkey (fun es h => (hshape es h).distinct) fun es h =>
      (hshape es h).values
  object origin slot hproperties := .object origin slot hproperties.values
  union slot hmembers := .union slot hmembers

section Types

variable {P : Ty → Prop} (hP : Ty.Composed P)
include hP

section Parts

variable {ty : Json → Decode Ty} (hty : Decode.Reads ty P)
include hty

theorem Kind.reads_array (slot : Slot) :
    Record.Reads (Kind.array <$> .optional 0 "item" none (Decode.nullable ty) <*>
        .optional 1 "key" none (Decode.nullable ty) <*>
        .optional 2 "shape" none (Decode.nullable (Decode.entries ty)) <*>
        .optional 3 "origin" none (Decode.nullable Decode.string))
      fun k => P (Ty.mk k slot) := by
  have htype (number : Nat) (name : String) :=
    Record.Reads.optional number name (fun t (h : none = some t) => nomatch h) hty.nullable
  have hshape := Record.Reads.optional 2 "shape" (fun es (h : none = some es) => nomatch h)
    hty.entries.nullable
  refine Record.Reads.seq ?_ (Record.Reads.trivial _)
  refine Record.Reads.seq ?_ hshape
  refine Record.Reads.seq ?_ (htype 1 "key")
  refine (htype 0 "item").map ?_
  intro item hitem key hkey shape hshape origin _
  exact hP.array origin slot hitem hkey hshape

theorem Kind.reads_object (slot : Slot) :
    Record.Reads (Kind.object <$> .optional 0 "properties" [] (Decode.entries ty) <*>
        .optional 1 "origin" none (Decode.nullable Decode.string))
      fun k => P (Ty.mk k slot) := by
  have hproperties := Record.Reads.optional 0 "properties" Entries.mapOf_nil hty.entries
  refine Record.Reads.seq ?_ (Record.Reads.trivial _)
  refine hproperties.map ?_
  intro properties hproperties origin _
  exact hP.object origin slot hproperties

theorem Kind.composed_decodeWith {s : Source} {k : Kind} (h : Kind.decodeWith ty s = .ok k)
    (slot : Slot) : P (Ty.mk k slot) := by
  obtain ⟨⟨tag, rest⟩, -, h⟩ := exists_of_bind_eq_ok h
  dsimp only at h
  split at h
  · have hscalar : Record.Reads (Kind.scalar <$> Scalar.record) fun k => P (Ty.mk k slot) :=
      (Record.Reads.trivial _).map fun s _ => hP.scalar s slot
    exact hscalar.readFrom h
  · exact (Kind.reads_array hP hty slot).readFrom h
  · exact (Kind.reads_object hP hty slot).readFrom h
  · have hunion : Record.Reads (Kind.union <$> .required 0 "members" (Decode.list ty))
        fun k => P (Ty.mk k slot) :=
      (Record.Reads.required 0 "members" hty.list).map fun members hmembers =>
        hP.union slot hmembers
    exact hunion.readFrom h
  · cases h
    exact hP.unknown slot

theorem Ty.reads_decodeWith : Decode.Reads (Ty.decodeWith ty) P := by
  apply Record.Reads.readObject
  refine Record.Reads.seq ?_ (Record.Reads.trivial _)
  refine (Record.Reads.atEnd fun s k h => Kind.composed_decodeWith hP hty h).map ?_
  -- the place is read after the kind, and the property does not depend on it
  intro k hk slot _
  exact hk slot

end Parts

theorem Ty.reads_decodeTo (depth : Nat) : Decode.Reads (Ty.decodeTo depth) P := by
  induction depth with
  | zero =>
    intro j t h
    cases h
  | succ depth ih => exact Ty.reads_decodeWith hP ih

/-- A type that is read is made of parts that are read. -/
theorem Ty.decode_of_composed {j : Json} {t : Ty} (h : Ty.decode j = .ok t) : P t :=
  Ty.reads_decodeTo hP j.depth j t h

/-! ## Catalogs -/

theorem ColumnType.reads_decode :
    Decode.Reads ColumnType.decode fun t => ∀ ty, t = .resolved ty → P ty := by
  intro j t h ty hty
  rw [ColumnType.decode.eq_def] at h
  split at h
  · cases h
    cases hty
  · obtain ⟨u, hu, hresolved⟩ := exists_of_map_eq_ok h
    rw [← hresolved, ColumnType.resolved.injEq] at hty
    exact hty ▸ Ty.decode_of_composed hP (eq_ok_of_mapError hu)

theorem ColumnDecl.reads_decode :
    Decode.Reads ColumnDecl.decode fun d => ∀ ty, d.type = .resolved ty → P ty := by
  apply Record.Reads.read
  refine Record.Reads.seq ?_ (Record.Reads.trivial _)
  refine Record.Reads.seq ?_ (Record.Reads.required 1 "type" (ColumnType.reads_decode hP))
  refine (Record.Reads.trivial _).map ?_
  intro name _ type htype nullable _
  exact htype

theorem Entity.reads_decode :
    Decode.Reads Entity.decode fun e => ∀ d ∈ e.columns, ∀ ty, d.type = .resolved ty → P ty := by
  have hcolumns := Record.Reads.optional 1 "columns" (fun d hd => absurd hd List.not_mem_nil)
    (ColumnDecl.reads_decode hP).list
  apply Record.Reads.read
  refine Record.Reads.seq ?_ (Record.Reads.trivial _)
  refine Record.Reads.seq ?_ (Record.Reads.trivial _)
  refine Record.Reads.seq ?_ (Record.Reads.trivial _)
  refine Record.Reads.seq ?_ hcolumns
  refine (Record.Reads.trivial _).map ?_
  intro table _ columns hcolumns hidden _ visible _ relations _
  exact hcolumns

/-- In a catalog that is read, so are the types of the columns. -/
theorem Catalog.decode_of_composed {j : Json} {catalog : Catalog}
    (h : Catalog.decode j = .ok catalog) :
    ∀ e ∈ catalog.entities, ∀ d ∈ e.2.columns, ∀ ty, d.type = .resolved ty → P ty := by
  have hentities := Record.Reads.optional 0 "entities" Entries.mapOf_nil
    (Entity.reads_decode hP).entries
  have hcatalog : Decode.Reads Catalog.decode fun catalog => ∀ e ∈ catalog.entities,
      ∀ d ∈ e.2.columns, ∀ ty, d.type = .resolved ty → P ty := by
    apply Record.Reads.read
    refine Record.Reads.seq ?_ (Record.Reads.trivial _)
    refine hentities.map ?_
    intro entities hentities enums _
    exact hentities.values
  exact hcatalog j catalog h

end Types

/-- No shape in a type that a column is declared with gives a name twice. -/
def Catalog.WellKeyed (catalog : Catalog) : Prop :=
  ∀ e ∈ catalog.entities, ∀ d ∈ e.2.columns, ∀ ty, d.type = .resolved ty → ty.WellKeyed

/-- Every catalog that is read is well keyed. -/
theorem Catalog.wellKeyed_decode {j : Json} {catalog : Catalog}
    (h : Catalog.decode j = .ok catalog) :
    catalog.WellKeyed := Catalog.decode_of_composed Ty.composed_wellKeyed h

end QueryTypes
