import Mathlib.Data.List.Forall2
import Mathlib.Data.List.Nodup
import QueryTypes.Inference.Reading
import QueryTypes.Proofs.Evaluation

/-!
# What is read off types is sound

The type of a literal value accepts it (`Json.IsValue.accepts_ofJson`). A key type that stands for
one literal leaves no other key (`eq_literal_of_singleLiteral?`), so an entry read by it is the one
that is meant (`Reading.accepts_entry`). And what has been read of an array literal describes the
record that its entries have been put into so far, entry after entry
(`Reading.ArrayState.Describes`).
-/

set_option autoImplicit false

namespace QueryTypes

variable {F : Facets}

/-! ## Shapes beside records -/

namespace Entries

variable {α : Type}

theorem mem_put {es : Entries α} {name : String} {a : α} {e : String × α}
    (h : e ∈ es.put name a) : e ∈ es ∨ e = (name, a) := by
  induction es with
  | nil => exact .inr (List.mem_singleton.1 h)
  | cons b rest ih =>
    obtain ⟨k, c⟩ := b
    rw [put] at h
    by_cases hk : k = name
    · rw [if_pos hk, List.mem_cons] at h
      rcases h with h | h
      · exact .inr (hk ▸ h)
      · exact .inl (List.mem_cons_of_mem _ h)
    · rw [if_neg hk, List.mem_cons] at h
      rcases h with rfl | h
      · exact .inl List.mem_cons_self
      · rcases ih h with h | h
        · exact .inl (List.mem_cons_of_mem _ h)
        · exact .inr h

/-- What holds of all values, and of the one that is put, holds of all values after it. -/
theorem forall_mem_put {P : α → Prop} {es : Entries α} (h : ∀ e ∈ es, P e.2) (name : String) {a : α}
    (ha : P a) : ∀ e ∈ es.put name a, P e.2 := by
  intro e he
  rcases mem_put he with he | rfl
  · exact h e he
  · exact ha

theorem mem_keys_put {es : Entries α} {name : String} {a : α} {k : String} :
    k ∈ (es.put name a).keys ↔ k ∈ es.keys ∨ k = name := by
  rw [keys_put]
  split
  · next hname =>
    refine ⟨.inl, ?_⟩
    rintro (h | rfl)
    · exact h
    · exact hname
  · rw [List.mem_append, List.mem_singleton]

theorem put_of_not_mem {es : Entries α} {name : String} (a : α) (h : name ∉ es.keys) :
    es.put name a = es ++ [(name, a)] := by
  induction es with
  | nil => rfl
  | cons b rest ih =>
    obtain ⟨k, c⟩ := b
    have hk : k ≠ name := fun hk => h (hk ▸ List.mem_cons_self)
    rw [put, if_neg hk, ih fun hmem => h (List.mem_cons_of_mem _ hmem), List.cons_append]

/-- Pairs with distinct names are the map they describe. -/
theorem ofList_of_distinct {es : Entries α} (h : es.Distinct) : ofList es = es := by
  suffices key : ∀ front : Entries α, Distinct (front ++ es) →
      es.foldl (fun es e => Entries.put es e.1 e.2) front = front ++ es from key [] h
  clear h
  induction es with
  | nil => exact fun front _ => (List.append_nil front).symm
  | cons e rest ih =>
    obtain ⟨k, v⟩ := e
    intro front h
    have hsplit : front ++ (k, v) :: rest = (front ++ [(k, v)]) ++ rest := by simp
    -- `front` holds what was put so far, in order; the next name is not in it
    have hfresh : k ∉ front.keys := by
      intro hmem
      rw [Distinct, keys, List.map_append] at h
      exact (List.nodup_append.1 h).2.2 k hmem k List.mem_cons_self rfl
    rw [hsplit] at h ⊢
    have hput : front.put k v = front ++ [(k, v)] := put_of_not_mem v hfresh
    rw [← hput] at h ⊢
    exact ih _ h

end Entries

/-- A shape and a record with the same names in the same order, each entry accepted. -/
def Ty.Parallel (F : Facets) (shape : List (String × Ty)) (es : List (String × Value)) : Prop :=
  List.Forall₂ (fun p e => p.1 = e.1 ∧ p.2.Accepts F e.2) shape es

namespace Ty.Parallel

variable {shape : List (String × Ty)} {es : List (String × Value)}

theorem keys_eq (h : Parallel F shape es) : Entries.keys shape = Entries.keys es := by
  induction h with
  | nil => rfl
  | cons hpe _ ih =>
    rw [Entries.keys, List.map_cons, hpe.1]
    exact congrArg (List.cons _) ih

theorem exists_of_mem (h : Parallel F shape es) {e : String × Value} (he : e ∈ es) :
    ∃ t, (e.1, t) ∈ shape ∧ t.Accepts F e.2 := by
  induction h with
  | nil => exact absurd he List.not_mem_nil
  | @cons p e' _ _ hpe _ ih =>
    rcases List.mem_cons.1 he with rfl | he
    · refine ⟨p.2, ?_, hpe.2⟩
      rw [← hpe.1]
      exact List.mem_cons_self
    · obtain ⟨t, ht, hv⟩ := ih he
      exact ⟨t, List.mem_cons_of_mem _ ht, hv⟩

theorem put (h : Parallel F shape es) {t : Ty} {v : Value} (hv : t.Accepts F v) (name : String) :
    Parallel F (Entries.put shape name t) (Entries.put es name v) := by
  induction h with
  | nil => exact .cons ⟨rfl, hv⟩ .nil
  | @cons p e _ _ hpe hrest ih =>
    obtain ⟨k, u⟩ := p
    obtain ⟨k', w⟩ := e
    obtain ⟨rfl, hw⟩ := hpe
    rw [Entries.put, Entries.put]
    by_cases hk : k = name
    · rw [if_pos hk, if_pos hk]
      exact .cons ⟨rfl, hv⟩ hrest
    · rw [if_neg hk, if_neg hk]
      exact .cons ⟨rfl, hw⟩ ih

theorem accepts_shape (h : Parallel F shape es) (hshape : Entries.Distinct shape) :
    (Ty.shape shape).Accepts F (.record es) := by
  refine Ty.accepts_shape_iff.2 ⟨es, rfl, ?_, ?_⟩
  · intro e he
    obtain ⟨t, ht, hv⟩ := h.exists_of_mem he
    exact ⟨t, hshape.get?_eq_some ht, hv⟩
  · intro p hp _
    rw [← h.keys_eq]
    exact List.mem_map_of_mem hp

end Ty.Parallel

/-! ## Literal values -/

theorem Ty.accepts_scalar_of_fits {kind : ScalarKind} {v : Value} (h : kind.fits v = true) :
    (Ty.scalar kind).Accepts F v := by
  refine Ty.accepts_scalar_iff.2 ⟨h, ?_, ?_, ?_, ?_, ?_⟩
  · exact fun hne => absurd hne (by simp [Scalar.ofKind, SortedSet.isEmpty, SortedSet.empty])
  all_goals exact fun _ hsome => absurd hsome (by simp [Scalar.ofKind])

theorem Ty.accepts_ofLiteral (l : Literal) : (Ty.ofLiteral l).Accepts F (.literal l) := by
  have hkind : l.kind.fits (.literal l) = true := by cases l <;> rfl
  have hcontains : (SortedSet.ofListLast [l] : LiteralSet).contains l = true := by
    have hself : Literal.cmp l l = .eq := Std.ReflCmp.compare_self
    show ([l].any fun b => Literal.cmp l b == .eq) = true
    rw [List.any_cons, hself]
    rfl
  refine Ty.accepts_scalar_iff.2 ⟨hkind, fun _ => ⟨l, rfl, hcontains⟩, ?_, ?_, ?_, ?_⟩
  all_goals exact fun _ hsome => absurd hsome (by simp)

theorem Ty.keys_ofJsonList (i : Nat) (xs : List Json) :
    Entries.keys (Ty.ofJsonList i xs) = (List.range' i xs.length).map toString := by
  induction xs generalizing i with
  | nil => simp [Ty.ofJsonList, Entries.keys]
  | cons x rest ih =>
    have hrest := ih (i + 1)
    unfold Entries.keys at hrest ⊢
    rw [Ty.ofJsonList, List.map_cons, hrest, List.length_cons, List.range'_succ, List.map_cons]

theorem nodup_positions (i n : Nat) : ((List.range' i n).map (toString : Nat → String)).Nodup :=
  List.Nodup.map (fun _ _ h => Numeral.eq_of_toString_eq h) List.nodup_range'

theorem Value.keys_positions (i : Nat) (vs : List Value) :
    Entries.keys (Value.positions i vs) = (List.range' i vs.length).map toString := by
  induction vs generalizing i with
  | nil => rfl
  | cons v rest ih =>
    have hrest := ih (i + 1)
    unfold Entries.keys at hrest ⊢
    rw [Value.positions, List.map_cons, hrest, List.length_cons, List.range'_succ, List.map_cons]

theorem Value.ofList_positions (vs : List Value) :
    Entries.ofList (Value.positions 0 vs) = Value.positions 0 vs := by
  refine Entries.ofList_of_distinct ?_
  rw [Entries.Distinct, Value.keys_positions]
  exact nodup_positions 0 vs.length

theorem Ty.parallel_ofJsonList (i : Nat) {xs : List Json}
    (h : ∀ x ∈ xs, (Ty.ofJson x).Accepts F (Value.ofJson x)) :
    Ty.Parallel F (Ty.ofJsonList i xs) (Value.positions i (Value.ofJsonList xs)) := by
  induction xs generalizing i with
  | nil =>
    rw [Ty.ofJsonList, Value.ofJsonList]
    exact .nil
  | cons x rest ih =>
    rw [Ty.ofJsonList, Value.ofJsonList]
    refine .cons ⟨rfl, (Ty.accepts_withRequired _ true).2 (h x List.mem_cons_self)⟩ ?_
    exact ih (i + 1) fun y hy => h y (List.mem_cons_of_mem _ hy)

theorem Ty.parallel_ofJsonMembers {ms : List (String × Json)}
    (h : ∀ m ∈ ms, (Ty.ofJson m.2).Accepts F (Value.ofJson m.2)) :
    Ty.Parallel F (Ty.ofJsonMembers ms) (Value.ofJsonMembers ms) := by
  induction ms with
  | nil =>
    rw [Ty.ofJsonMembers, Value.ofJsonMembers]
    exact .nil
  | cons m rest ih =>
    obtain ⟨name, x⟩ := m
    rw [Ty.ofJsonMembers, Value.ofJsonMembers]
    refine .cons ⟨rfl, (Ty.accepts_withRequired _ true).2 (h _ List.mem_cons_self)⟩ ?_
    exact ih fun y hy => h y (List.mem_cons_of_mem _ hy)

theorem Ty.distinct_ofJsonList (i : Nat) (xs : List Json) :
    Entries.Distinct (Ty.ofJsonList i xs) := by
  rw [Entries.Distinct, Ty.keys_ofJsonList]
  exact nodup_positions i xs.length

theorem Ty.distinct_ofJsonMembers {ms : List (String × Json)} (h : Entries.Distinct ms) :
    Entries.Distinct (Ty.ofJsonMembers ms) := by
  rw [Ty.ofJsonMembers_eq_map, Entries.Distinct, Entries.keys, List.map_map]
  exact h

/-- The type of a literal value accepts the value. -/
theorem Json.IsValue.accepts_ofJson {j : Json} (h : j.IsValue) :
    (Ty.ofJson j).Accepts F (Value.ofJson j) := by
  induction h with
  | null => exact Ty.accepts_scalar_of_fits rfl
  | bool b => exact Ty.accepts_ofLiteral (.bool b)
  | int n hfits =>
    have hliteral : Literal.ofInt n = .int (Int64.ofInt n) := if_pos hfits
    rw [Ty.ofJson, Value.ofJson, hliteral]
    exact Ty.accepts_ofLiteral (.int (Int64.ofInt n))
  | float x => exact Ty.accepts_ofLiteral (.float x)
  | str s => exact Ty.accepts_ofLiteral (.str s)
  | arr _ ih =>
    rw [Ty.ofJson, Value.ofJson]
    exact (Ty.parallel_ofJsonList 0 ih).accepts_shape (Ty.distinct_ofJsonList 0 _)
  | obj hdistinct _ ih =>
    rw [Ty.ofJson, Value.ofJson]
    exact (Ty.parallel_ofJsonMembers ih).accepts_shape (Ty.distinct_ofJsonMembers hdistinct)

theorem Ty.wellKeyed_shape {shape : List (String × Ty)} (hdistinct : Entries.Distinct shape)
    (h : ∀ e ∈ shape, e.2.WellKeyed) : (Ty.shape shape).WellKeyed := by
  refine .array none {} (fun _ h => nomatch h) (fun _ h => nomatch h) ?_ ?_
  · rintro es ⟨⟩
    exact hdistinct
  · rintro es ⟨⟩
    exact h

theorem Ty.forall_ofJsonList {p : Ty → Prop} (i : Nat) {xs : List Json}
    (h : ∀ x ∈ xs, p ((Ty.ofJson x).withRequired true)) : ∀ e ∈ Ty.ofJsonList i xs, p e.2 := by
  induction xs generalizing i with
  | nil =>
    rw [Ty.ofJsonList]
    exact fun e he => absurd he List.not_mem_nil
  | cons x rest ih =>
    rw [Ty.ofJsonList, List.forall_mem_cons]
    exact ⟨h x List.mem_cons_self, ih (i + 1) fun y hy => h y (List.mem_cons_of_mem _ hy)⟩

theorem Json.IsValue.wellKeyed_ofJson {j : Json} (h : j.IsValue) : (Ty.ofJson j).WellKeyed := by
  induction h with
  | null | bool b | int n hfits | float x | str s => exact .scalar _ _
  | arr _ ih =>
    rw [Ty.ofJson]
    exact Ty.wellKeyed_shape (Ty.distinct_ofJsonList 0 _)
      (Ty.forall_ofJsonList 0 fun x hx => (ih x hx).withRequired true)
  | obj hdistinct _ ih =>
    rw [Ty.ofJson]
    refine Ty.wellKeyed_shape (Ty.distinct_ofJsonMembers hdistinct) ?_
    rw [Ty.ofJsonMembers_eq_map, List.forall_mem_map]
    exact fun m hm => (ih m hm).withRequired true

/-! ## Keys -/

theorem Ty.exists_literals?_of_mem {ts : List Ty} {ls : List Literal}
    (h : Ty.literalsList? ts = some ls) {t : Ty} (ht : t ∈ ts) :
    ∃ own, t.literals? = some own ∧ own ⊆ ls := by
  induction ts generalizing ls with
  | nil => exact absurd ht List.not_mem_nil
  | cons u rest ih =>
    rw [Ty.literalsList?, Option.bind_eq_bind, Option.bind_eq_some_iff] at h
    obtain ⟨first, hfirst, h⟩ := h
    rw [Option.bind_eq_some_iff] at h
    obtain ⟨others, hothers, h⟩ := h
    cases h
    rcases List.mem_cons.1 ht with rfl | ht
    · exact ⟨first, hfirst, List.subset_append_left _ _⟩
    · obtain ⟨own, hown, hsubset⟩ := ih hothers ht
      exact ⟨own, hown, List.subset_append_of_subset_right _ hsubset⟩

/-- A literal that a type accepts is one of the literals that the type is narrowed to. -/
theorem Ty.any_literals?_of_accepts {t : Ty} {ls : List Literal} (h : t.literals? = some ls)
    {l : Literal} (hl : t.Accepts F (.literal l)) :
    ls.any (fun b => Literal.cmp l b == .eq) = true := by
  induction t using Ty.rec' generalizing ls with
  | unknown slot => exact absurd h (by simp [Ty.literals?])
  | scalar s slot =>
    have hs := Ty.accepts_scalar_iff.1 hl
    rw [Ty.literals?] at h
    cases hempty : s.literals.isEmpty with
    | false =>
      obtain ⟨l', heq, hcontains⟩ := hs.literals hempty
      cases heq
      rw [hempty] at h
      cases h
      exact hcontains
    | true =>
      -- a type without literals is narrowed only if it is null, which accepts no literal
      rw [hempty] at h
      have hkind : s.kind = .null := by
        by_contra hne
        simp [hne] at h
      have hfits := hs.kind
      rw [hkind] at hfits
      exact absurd hfits (by simp [ScalarKind.fits])
  | array item key shape origin slot _ _ _ =>
    cases shape with
    | none => exact absurd h (by simp [Ty.literals?])
    | some es =>
      obtain ⟨es, heq, -⟩ := Ty.accepts_shape_iff.1 hl
      exact absurd heq (by simp)
  | object properties origin slot _ => exact absurd h (by simp [Ty.literals?])
  | union members slot ih =>
    rw [Ty.literals?] at h
    obtain ⟨t, ht, hl⟩ := Ty.accepts_union_iff.1 hl
    obtain ⟨own, hown, hsubset⟩ := Ty.exists_literals?_of_mem h ht
    obtain ⟨b, hb, hcmp⟩ := List.any_eq_true.1 (ih t ht hown hl)
    exact List.any_eq_true.2 ⟨b, hsubset hb, hcmp⟩

/-- Keys that compare as equal are equal. -/
theorem Literal.eq_of_cmp_eq {l l' : Literal} (h : Literal.cmp l l' = .eq) {name : String}
    (hkey : (Value.literal l).key? = some name) : l = l' := by
  cases l with
  | int n =>
    cases l' with
    | int n' =>
      have hcompare : compare n.toInt n'.toInt = .eq := h
      rw [Int64.toInt_inj.1 (Std.LawfulEqCmp.eq_of_compare hcompare)]
    | bool | float | str => exact absurd h (by simp [Literal.cmp, Literal.kindRank])
  | str s =>
    cases l' with
    | str s' =>
      have hcompare : compare s s' = .eq := h
      rw [Std.LawfulEqCmp.eq_of_compare hcompare]
    | bool | float | int => exact absurd h (by simp [Literal.cmp, Literal.kindRank])
  | bool | float => exact absurd hkey (by simp [Value.key?])

namespace Reading

theorem literals?_of_singleLiteral? {t : Ty} {l : Literal} (h : singleLiteral? t = some l) :
    t.literals? = some [l] := by
  unfold singleLiteral? at h
  split at h
  · next hlit => rw [hlit, Option.some.inj h]
  · next hlit => rw [hlit, Option.some.inj h]
  · exact absurd h (by simp)

/-- A key type that stands for one literal accepts no other key. -/
theorem eq_literal_of_singleLiteral? {t : Ty} {l : Literal} (h : singleLiteral? t = some l)
    {k : Value} (hk : t.Accepts F k) {name : String} (hname : k.key? = some name) :
    k = .literal l := by
  cases k with
  | null => exact absurd hname (by simp [Value.key?])
  | record es => exact absurd hname (by simp [Value.key?])
  | literal l' =>
    have hany := Ty.any_literals?_of_accepts (literals?_of_singleLiteral? h) hk
    rw [List.any_cons, List.any_nil, Bool.or_false, beq_iff_eq] at hany
    rw [Literal.eq_of_cmp_eq hany hname]

theorem eq_of_fieldName? {t : Ty} {name name' : String} (h : fieldName? t = some name) {k : Value}
    (hk : t.Accepts F k) (hname : k.key? = some name') : name = name' := by
  unfold fieldName? at h
  split at h
  · next n hsingle =>
    rw [eq_literal_of_singleLiteral? hsingle hk hname] at hname
    exact (Option.some.inj h).symm.trans (Option.some.inj hname)
  · next s hsingle =>
    rw [eq_literal_of_singleLiteral? hsingle hk hname] at hname
    exact (Option.some.inj h).symm.trans (Option.some.inj hname)
  · exact absurd h (by simp)

/-- An entry of a record under a key is accepted by the entry of its type under the type of the
key. -/
theorem accepts_entry {target key : Ty} (htarget : target.WellKeyed) {es : List (String × Value)}
    (hes : target.Accepts F (.record es)) {k : Value} (hk : key.Accepts F k) {name : String}
    (hname : k.key? = some name) {v : Value} (hv : (name, v) ∈ es) :
    (entry target key).Accepts F v := by
  unfold entry
  split
  · next name' hfield =>
    rw [eq_of_fieldName? hfield hk hname]
    exact Ty.accepts_field htarget hes hv
  · -- the key is open: items are known of an array without a shape only
    split
    · next item key' origin hkind =>
      obtain ⟨kind, slot⟩ := target
      rw [Ty.kind_mk] at hkind
      subst hkind
      obtain ⟨es', heq, haccepts⟩ := Ty.accepts_array_iff.1 hes
      cases heq
      have hitem := (haccepts _ hv).1
      cases item with
      | none => exact Ty.accepts_unknown v
      | some t => exact hitem
    · exact Ty.accepts_unknown v

theorem wellKeyed_entry {target : Ty} (h : target.WellKeyed) (key : Ty) :
    (entry target key).WellKeyed := by
  unfold entry
  split
  · exact h.field _
  · split
    · next item key' origin hkind =>
      obtain ⟨kind, slot⟩ := target
      rw [Ty.kind_mk] at hkind
      subst hkind
      cases h with
      | array _ _ hitem _ _ _ =>
        cases item with
        | none => exact Ty.wellKeyed_unknown
        | some t => exact hitem t rfl
    · exact Ty.wellKeyed_unknown

theorem acceptsKey_of_accepts {t : Ty} {k : Value} (hk : t.Accepts F k) {name : String}
    (hname : k.key? = some name) : Ty.AcceptsKey F (some t) name := by
  cases k with
  | null => exact absurd hname (by simp [Value.key?])
  | record es => exact absurd hname (by simp [Value.key?])
  | literal l =>
    cases l with
    | int n =>
      rw [← Option.some.inj hname]
      exact .inr ⟨n, Numeral.readInt64?_toString n, hk⟩
    | str s =>
      rw [← Option.some.inj hname]
      exact .inl hk
    | bool | float => exact absurd hname (by simp [Value.key?])

namespace ArrayState

theorem acceptsKey_keyType (name : String) : Ty.AcceptsKey F (some (keyType name)) name := by
  unfold keyType
  split
  · next h =>
    obtain ⟨n, hn⟩ := Option.isSome_iff_exists.1 h
    exact .inr ⟨n, hn, Ty.accepts_scalar_of_fits rfl⟩
  · exact .inl (Ty.accepts_scalar_of_fits rfl)

theorem wellKeyed_keyType (name : String) : (keyType name).WellKeyed := by
  unfold keyType
  split
  · exact .scalar _ _
  · exact .scalar _ _

/-! ## Array literals -/

/-- All types read so far are well keyed, and so is the shape they make. -/
structure WellKeyed (st : ArrayState) : Prop where
  distinct : Entries.Distinct st.shape
  shape : ∀ e ∈ st.shape, e.2.WellKeyed
  openKeys : ∀ t ∈ st.openKeys, t.WellKeyed
  values : ∀ t ∈ st.values, t.WellKeyed

/-- What has been read describes a record: the shape does as long as every key was literal, and in
any case one of the value types accepts each entry, and a key type or a name of the shape its
key. -/
structure Describes (F : Facets) (st : ArrayState) (es : List (String × Value)) : Prop where
  parallel : st.openKeys = [] → Ty.Parallel F st.shape es
  values : ∀ e ∈ es, ∃ t ∈ st.values, t.Accepts F e.2
  keys : ∀ e ∈ es, (∃ t ∈ st.openKeys, Ty.AcceptsKey F (some t) e.1) ∨ e.1 ∈ Entries.keys st.shape

variable {st st' : ArrayState} {es : List (String × Value)}

theorem wellKeyed_empty : WellKeyed {} where
  distinct := List.nodup_nil
  shape _ h := absurd h List.not_mem_nil
  openKeys _ h := absurd h List.not_mem_nil
  values _ h := absurd h List.not_mem_nil

theorem describes_empty : Describes F {} [] where
  parallel _ := .nil
  values _ h := absurd h List.not_mem_nil
  keys _ h := absurd h List.not_mem_nil

theorem wellKeyed_keyTypes (h : st.WellKeyed) :
    ∀ t ∈ st.openKeys ++ (Entries.keys st.shape).map keyType, t.WellKeyed := by
  intro t ht
  rcases List.mem_append.1 ht with ht | ht
  · exact h.openKeys t ht
  · obtain ⟨name, -, rfl⟩ := List.mem_map.1 ht
    exact wellKeyed_keyType name

theorem WellKeyed.type (h : st.WellKeyed) : st.type.WellKeyed := by
  unfold ArrayState.type
  split
  · exact Ty.wellKeyed_shape h.distinct h.shape
  · refine .array none {} ?_ ?_ (fun _ h => nomatch h) (fun _ h => nomatch h)
    · rintro t ⟨⟩
      exact Ty.wellKeyed_union h.values
    · rintro t ⟨⟩
      exact Ty.wellKeyed_union (wellKeyed_keyTypes h)

/-- The type of an array literal accepts the record that is described. -/
theorem Describes.accepts_type (h : st.Describes F es) (hst : st.WellKeyed) :
    st.type.Accepts F (.record es) := by
  have hkeys := wellKeyed_keyTypes hst
  unfold ArrayState.type
  cases hopen : st.openKeys with
  | nil => exact (h.parallel hopen).accepts_shape hst.distinct
  | cons k ks =>
    rw [← hopen]
    rw [if_neg (by rw [hopen]; simp)]
    refine Ty.accepts_array_iff.2 ⟨es, rfl, fun e he => ⟨?_, ?_⟩⟩
    · obtain ⟨t, ht, hv⟩ := h.values e he
      exact Ty.accepts_union_of_mem hst.values ht hv
    · -- the type that accepts the key is a member of the union, in either reading of the key
      have hmem : ∃ t ∈ st.openKeys ++ (Entries.keys st.shape).map keyType,
          Ty.AcceptsKey F (some t) e.1 := by
        rcases h.keys e he with ⟨t, ht, hkey⟩ | hname
        · exact ⟨t, List.mem_append_left _ ht, hkey⟩
        · exact ⟨keyType e.1, List.mem_append_right _ (List.mem_map_of_mem hname),
            acceptsKey_keyType e.1⟩
      obtain ⟨t, ht, hstr | ⟨n, hn, hint⟩⟩ := hmem
      · exact .inl (Ty.accepts_union_of_mem hkeys ht hstr)
      · exact .inr ⟨n, hn, Ty.accepts_union_of_mem hkeys ht hint⟩

section Steps

variable {t : Ty} {v : Value} {name : String}

/-- A value under a literal key. -/
theorem WellKeyed.putShape (h : st.WellKeyed) (ht : t.WellKeyed)
    (hshape : st'.shape = st.shape.put name (t.withRequired true))
    (hopen : st'.openKeys = st.openKeys)
    (hvalues : st'.values = st.values ++ [t.withRequired false]) :
    st'.WellKeyed where
  distinct := by
    rw [hshape]
    exact h.distinct.put name _
  shape := by
    rw [hshape]
    exact Entries.forall_mem_put h.shape name (ht.withRequired true)
  openKeys := hopen ▸ h.openKeys
  values := by
    rw [hvalues, List.forall_mem_append]
    exact ⟨h.values, List.forall_mem_singleton.2 (ht.withRequired false)⟩

theorem exists_value (h : st.Describes F es) (hv : t.Accepts F v)
    (hvalues : st'.values = st.values ++ [t.withRequired false]) :
    ∀ e ∈ Entries.put es name v, ∃ t ∈ st'.values, t.Accepts F e.2 := by
  intro e he
  rw [hvalues]
  rcases Entries.mem_put he with he | rfl
  · obtain ⟨u, hu, hv⟩ := h.values e he
    exact ⟨u, List.mem_append_left _ hu, hv⟩
  · exact ⟨_, List.mem_append_right _ List.mem_cons_self, (Ty.accepts_withRequired t false).2 hv⟩

theorem Describes.putShape (h : st.Describes F es) (hv : t.Accepts F v)
    (hshape : st'.shape = st.shape.put name (t.withRequired true))
    (hopen : st'.openKeys = st.openKeys)
    (hvalues : st'.values = st.values ++ [t.withRequired false]) :
    st'.Describes F (Entries.put es name v) where
  parallel hnil := by
    rw [hshape]
    exact (h.parallel (hopen ▸ hnil)).put ((Ty.accepts_withRequired t true).2 hv) name
  values := exists_value h hv hvalues
  keys := by
    intro e he
    rw [hopen, hshape, Entries.mem_keys_put]
    rcases Entries.mem_put he with he | rfl
    · rcases h.keys e he with hkey | hname
      · exact .inl hkey
      · exact .inr (.inl hname)
    · exact .inr (.inr rfl)

theorem Describes.putOpen {key : Ty} (h : st.Describes F es) (hv : t.Accepts F v)
    (hkey : Ty.AcceptsKey F (some (key.withRequired false)) name) :
    ((st.addValue t).putOpen key).Describes F (Entries.put es name v) where
  parallel hnil := absurd hnil (List.append_ne_nil_of_right_ne_nil _ (List.cons_ne_nil _ _))
  values := exists_value h hv rfl
  keys := by
    intro e he
    rcases Entries.mem_put he with he | rfl
    · rcases h.keys e he with ⟨u, hu, hkey⟩ | hname
      · exact .inl ⟨u, List.mem_append_left _ hu, hkey⟩
      · exact .inr hname
    · exact .inl ⟨_, List.mem_append_right _ List.mem_cons_self, hkey⟩

theorem keyed_id (st : ArrayState) (key t : Ty) :
    Reading.keyed (m := Id) st key t = match singleLiteral? key with
      | some (.int n) => (st.addValue t).putAt n t
      | some (.str s) => (st.addValue t).putNamed s t
      | _ => (st.addValue t).putOpen key := rfl

/-- Reading an entry whose parts have known types. -/
theorem keyed_pure {m : Type → Type} [Monad m] [LawfulMonad m] (st : ArrayState) (key t : Ty) :
    Reading.keyed st (pure key : m Ty) (pure t) = pure (Reading.keyed (m := Id) st key t) := by
  rw [keyed_id, Reading.keyed, pure_bind, pure_bind]
  cases singleLiteral? key with
  | none => exact pure_bind _ _
  | some l =>
    cases l with
    | int n => rfl
    | str s => rfl
    | bool | float => exact pure_bind _ _

theorem WellKeyed.positional (h : st.WellKeyed) (ht : t.WellKeyed) :
    (Reading.positional (m := Id) st t).WellKeyed :=
  h.putShape ht rfl rfl rfl

theorem WellKeyed.keyed {key : Ty} (h : st.WellKeyed) (hkey : key.WellKeyed) (ht : t.WellKeyed) :
    (Reading.keyed (m := Id) st key t).WellKeyed := by
  rw [keyed_id]
  split
  · exact h.putShape ht rfl rfl rfl
  · exact h.putShape ht rfl rfl rfl
  · refine ⟨h.distinct, h.shape, ?_, ?_⟩
    · exact List.forall_mem_append.2
        ⟨h.openKeys, List.forall_mem_singleton.2 (hkey.withRequired false)⟩
    · exact List.forall_mem_append.2
        ⟨h.values, List.forall_mem_singleton.2 (ht.withRequired false)⟩

/-- An entry without a key goes under the next position. -/
theorem Describes.positional (h : st.Describes F es) (hv : t.Accepts F v) :
    (Reading.positional (m := Id) st t).Describes F
      (Entries.put es (toString st.next.toInt) v) :=
  h.putShape hv rfl rfl rfl

/-- An entry with a key goes under the name that the key is. -/
theorem Describes.keyed {key : Ty} {k : Value} (h : st.Describes F es) (hk : key.Accepts F k)
    (hname : k.key? = some name) (hv : t.Accepts F v) :
    (Reading.keyed (m := Id) st key t).Describes F (Entries.put es name v) := by
  rw [keyed_id]
  -- a key type that stands for one literal can only have been that key
  split
  · next n hsingle =>
    rw [eq_literal_of_singleLiteral? hsingle hk hname] at hname
    rw [← Option.some.inj hname]
    exact h.putShape hv rfl rfl rfl
  · next s hsingle =>
    rw [eq_literal_of_singleLiteral? hsingle hk hname] at hname
    rw [← Option.some.inj hname]
    exact h.putShape hv rfl rfl rfl
  · exact h.putOpen hv (acceptsKey_of_accepts ((Ty.accepts_withRequired key false).2 hk) hname)

end Steps

section Runs

variable {α : Type} (items : List α)

/-- Entries without keys, one after the other, make the list of their values. -/
theorem Describes.foldl_positional (ty : α → Ty) (val : α → Value)
    (hval : ∀ i ∈ items, (ty i).Accepts F (val i)) {start : Nat} (h : st.Describes F es)
    (hnext : st.next = Int64.ofNat start) (hlength : start + items.length ≤ Numeral.positionBound) :
    (items.foldl (fun st i => Reading.positional (m := Id) st (ty i)) st).Describes F
      ((Value.positions start (items.map val)).foldl (fun es e => Entries.put es e.1 e.2) es) := by
  induction items generalizing st es start with
  | nil => exact h
  | cons i rest ih =>
    rw [List.length_cons] at hlength
    -- the counter has not passed the largest integer, so it shows the position
    have hposition : toString st.next.toInt = toString start := by
      rw [hnext, Numeral.toString_toInt_ofNat (by omega)]
    have hstep := h.positional (hval i List.mem_cons_self)
    rw [hposition] at hstep
    refine ih (fun j hj => hval j (List.mem_cons_of_mem _ hj)) hstep ?_ (by omega)
    show st.next + 1 = Int64.ofNat (start + 1)
    rw [hnext, Int64.ofNat_add]
    rfl

/-- Entries with keys, one after the other, make the map of their values. -/
theorem Describes.foldl_keyed (keyTy ty : α → Ty) (key val : α → Value) (name : α → String)
    (hkey : ∀ i ∈ items, (keyTy i).Accepts F (key i))
    (hname : ∀ i ∈ items, (key i).key? = some (name i))
    (hval : ∀ i ∈ items, (ty i).Accepts F (val i)) (h : st.Describes F es) :
    (items.foldl (fun st i => Reading.keyed (m := Id) st (keyTy i) (ty i)) st).Describes F
      (items.foldl (fun es i => Entries.put es (name i) (val i)) es) := by
  induction items generalizing st es with
  | nil => exact h
  | cons i rest ih =>
    refine ih (fun j hj => hkey j (List.mem_cons_of_mem _ hj))
      (fun j hj => hname j (List.mem_cons_of_mem _ hj))
      (fun j hj => hval j (List.mem_cons_of_mem _ hj)) ?_
    exact h.keyed (hkey i List.mem_cons_self) (hname i List.mem_cons_self)
      (hval i List.mem_cons_self)

end Runs

end ArrayState

end Reading

end QueryTypes
