import QueryTypes.Proofs.Evaluation
import QueryTypes.Proofs.Lists
import QueryTypes.Proofs.Schemas.Validity

/-!
# The schema of a literal value

A literal value is typed as a shape with an entry for everything in it, and its schema asks for
exactly these entries. Whether the shape came from a list or from an object is then told by its
names alone. So the schema validates the value unless somewhere inside the value the names tell the
wrong thing (`Json.Formless`): in a list without elements, and in an object with the names that the
elements of a list would have (`validates_ofJson_iff`).
-/

set_option autoImplicit false

namespace QueryTypes

/-! ## Inside a value -/

namespace Json

/-- The values inside a value, itself included. -/
inductive Contains : Json → Json → Prop
  | self (v : Json) : Contains v v
  | element {xs : List Json} {x w : Json} : x ∈ xs → Contains x w → Contains (.arr xs) w
  | member {ms : List (String × Json)} {m : String × Json} {w : Json} :
      m ∈ ms → Contains m.2 w → Contains (.obj ms) w

/-- Values whose form does not show in the names of their entries: the list without elements, and
objects whose names are numerals of the positions `0, 1, …`. -/
inductive Formless : Json → Prop
  | list : Formless (.arr [])
  | object {ms : List (String × Json)} : ms ≠ [] →
      (∀ i name, (Entries.keys ms)[i]? = some name → Numeral.readNat64? name = some i) →
      Formless (.obj ms)

/-- Values that a document can have: doubles are finite, and the elements of a list are counted in
64 bits. -/
inductive Held : Json → Prop
  | null : Held .null
  | bool (b : Bool) : Held (.bool b)
  | int (n : Int) : Held (.int n)
  | float {x : Double} : x.isFinite = true → Held (.float x)
  | str (s : String) : Held (.str s)
  | arr {xs : List Json} : xs.length ≤ Numeral.natBound → (∀ x ∈ xs, Held x) → Held (.arr xs)
  | obj {ms : List (String × Json)} : (∀ m ∈ ms, Held m.2) → Held (.obj ms)

/-- Every value inside has a form. -/
def Formed (v : Json) : Prop := ∀ w, v.Contains w → ¬ w.Formless

theorem formed_arr_iff {xs : List Json} : (Json.arr xs).Formed ↔ xs ≠ [] ∧ ∀ x ∈ xs, x.Formed := by
  constructor
  · refine fun h => ⟨?_, fun x hx w hw => h w (.element hx hw)⟩
    rintro rfl
    exact h _ (.self _) .list
  · rintro ⟨hne, hxs⟩ w hw
    cases hw with
    | self => exact fun h => by cases h; exact hne rfl
    | element hx hw => exact hxs _ hx w hw

theorem formed_obj_iff {ms : Entries Json} :
    (Json.obj ms).Formed ↔ ¬ (Json.obj ms).Formless ∧ ∀ m ∈ ms, m.2.Formed := by
  constructor
  · exact fun h => ⟨h _ (.self _), fun m hm w hw => h w (.member hm hw)⟩
  · rintro ⟨hself, hms⟩ w hw
    cases hw with
    | self => exact hself
    | member hm hw => exact hms _ hm w hw

/-- Only lists and objects can be without a form. -/
theorem formed_of_genus {v : Json} (h : v.genus ≠ .array ∧ v.genus ≠ .object) : v.Formed := by
  intro w hw hformless
  cases hw with
  | self =>
    cases hformless with
    | list => exact h.1 rfl
    | object => exact h.2 rfl
  | element => exact h.1 rfl
  | member => exact h.2 rfl

end Json

/-! ## Names of shapes -/

theorem Ty.arePositions_iff {start : Nat} {names : List String} :
    arePositions start names = true ↔
      ∀ i name, names[i]? = some name → Numeral.readNat64? name = some (start + i) := by
  induction names generalizing start with
  | nil => simp [arePositions]
  | cons first rest ih =>
    rw [arePositions, Bool.and_eq_true, beq_iff_eq, ih]
    constructor
    · rintro ⟨hfirst, hrest⟩ i name hname
      cases i with
      | zero =>
        rw [List.getElem?_cons_zero, Option.some.injEq] at hname
        rw [← hname, hfirst, Nat.add_zero]
      | succ i =>
        rw [hrest i name (by simpa using hname)]
        congr 1
        omega
    · intro h
      refine ⟨by simpa using h 0 first rfl, fun i name hname => ?_⟩
      rw [h (i + 1) name (by simpa using hname)]
      congr 1
      omega

theorem Json.formless_obj_iff {ms : Entries Json} :
    (Json.obj ms).Formless ↔ ms ≠ [] ∧ Ty.arePositions 0 (Entries.keys ms) = true := by
  rw [Ty.arePositions_iff]
  simp only [Nat.zero_add]
  constructor
  · rintro (_ | ⟨hne, hnames⟩)
    exact ⟨hne, hnames⟩
  · rintro ⟨hne, hnames⟩
    exact .object hne hnames

namespace Ty

/-- The elements of a list stand under their positions. -/
theorem arePositions_ofJsonList (start : Nat) (xs : List Json)
    (h : start + xs.length ≤ Numeral.natBound) :
    arePositions start (Entries.keys (ofJsonList start xs)) = true := by
  induction xs generalizing start with
  | nil => rfl
  | cons x rest ih =>
    rw [List.length_cons] at h
    have hfirst : Numeral.readNat64? (toString start) = some start :=
      Numeral.readNat64?_toString (by omega)
    have hrest : arePositions (start + 1) (Entries.keys (ofJsonList (start + 1) rest)) = true :=
      ih (start + 1) (by omega)
    rw [ofJsonList]
    show (Numeral.readNat64? (toString start) == some start && _) = true
    rw [hfirst, beq_self_eq_true, Bool.true_and]
    exact hrest

/-- Whether a place must be filled is no part of the schema. -/
@[simp] theorem schema_withRequired (t : Ty) (required : Bool) :
    (t.withRequired required).schema = t.schema := by
  cases t
  rfl

theorem map_schema_ofJsonList (start : Nat) (xs : List Json) :
    (ofJsonList start xs).map (fun e => e.2.schema) = xs.map fun x => (ofJson x).schema := by
  induction xs generalizing start with
  | nil => rfl
  | cons x rest ih => simp [ofJsonList, ih]

theorem length_ofJsonList (start : Nat) (xs : List Json) :
    (ofJsonList start xs).length = xs.length := by
  rw [← List.length_map fun e : String × Ty => e.2.schema, map_schema_ofJsonList, List.length_map]

theorem required_of_mem_ofJsonList {start : Nat} {xs : List Json} :
    ∀ e ∈ ofJsonList start xs, e.2.required = true := by
  induction xs generalizing start with
  | nil => simp [ofJsonList]
  | cons x rest ih =>
    rw [ofJsonList, List.forall_mem_cons]
    exact ⟨rfl, ih⟩

theorem requiredNames_of_forall {es : Entries Ty} (h : ∀ e ∈ es, e.2.required = true) :
    Schema.requiredNames es = Entries.keys es := by
  rw [Schema.requiredNames, List.filter_eq_self.2 h, Entries.keys]

end Ty

/-! ## Lists and objects -/

section

variable {V : Vocabulary}

/-- The schema of a list asks for its elements one by one, and is that of an object if there are
none. -/
theorem validates_ofJson_arr_iff {xs : List Json} (hlength : xs.length ≤ Numeral.natBound) :
    (Ty.ofJson (.arr xs)).validates V (.arr xs) = true ↔
      xs ≠ [] ∧ ∀ x ∈ xs, (Ty.ofJson x).validates V x = true := by
  rw [Ty.ofJson]
  cases xs with
  | nil =>
    rw [Ty.ofJsonList, Ty.validates_record_iff (by simp)]
    simp
  | cons x rest =>
    have hlen := Ty.length_ofJsonList 0 (x :: rest)
    have hnames := Ty.arePositions_ofJsonList 0 (x :: rest) (by omega)
    -- all elements are required, so their number is the only length
    have hrequired : (Schema.requiredNames (Ty.ofJsonList 0 (x :: rest))).length =
        (x :: rest).length := by
      rw [Ty.requiredNames_of_forall Ty.required_of_mem_ofJsonList, Entries.keys,
        List.length_map, hlen]
    rw [Ty.validates_tuple_iff (by simp [Ty.ofJsonList]) hnames, hrequired, hlen,
      Ty.map_schema_ofJsonList]
    constructor
    · rintro ⟨_, ⟨⟩, hitems, -⟩
      exact ⟨List.cons_ne_nil _ _, (forall_mem_zip_map_self _ _).1 hitems⟩
    · rintro ⟨-, hitems⟩
      exact ⟨_, rfl, (forall_mem_zip_map_self _ _).2 hitems, Nat.le_refl _, Nat.le_refl _⟩

/-- The schema of an object asks for its members one by one, and is that of a list if the names are
positions. -/
theorem validates_ofJson_obj_iff {ms : Entries Json} (hdistinct : ms.Distinct) :
    (Ty.ofJson (.obj ms)).validates V (.obj ms) = true ↔
      ¬ (Json.obj ms).Formless ∧ ∀ m ∈ ms, (Ty.ofJson m.2).validates V m.2 = true := by
  rw [Ty.ofJson, Ty.ofJsonMembers_eq_map, Json.formless_obj_iff]
  generalize hes : ms.map (fun m => (m.1, (Ty.ofJson m.2).withRequired true)) = es
  have hkeys : Entries.keys es = Entries.keys ms := by simp [← hes, Entries.keys, Function.comp_def]
  have hempty : es ≠ [] ↔ ms ≠ [] := by simp [← hes]
  rw [← hkeys, ← hempty]
  by_cases hnames : es ≠ [] ∧ Ty.arePositions 0 (Entries.keys es) = true
  · rw [Ty.validates_tuple_iff hnames.1 hnames.2]
    simp [hnames]
  · have hrequired : Schema.requiredNames es = Entries.keys ms := by
      rw [Ty.requiredNames_of_forall, hkeys]
      rw [← hes, List.forall_mem_map]
      exact fun m _ => rfl
    rw [Ty.validates_record_iff hnames, hrequired, ← hes]
    simp only [List.forall_mem_map, Ty.validates, Ty.schema_withRequired]
    constructor
    · rintro ⟨_, ⟨⟩, hmembers, -⟩
      exact ⟨hes ▸ hnames, fun m hm => hmembers m hm m.2 (hdistinct.get?_eq_some hm)⟩
    · rintro ⟨-, hmembers⟩
      refine ⟨ms, rfl, fun m hm w hw => ?_, fun name hname => hname⟩
      -- no name is given twice, so what stands under the name is the member itself
      rw [hdistinct.get?_eq_some hm, Option.some.injEq] at hw
      exact hw ▸ hmembers m hm

/-! ## Scalars -/

theorem validates_ofLiteral_iff {l : Literal} {v : Json} :
    (Ty.ofLiteral l).validates V v = true ↔
      v.hasType l.kind.schemaName = true ∧ v.equals l.toJson = true := by
  have hform : (Ty.ofLiteral l).schema = .mk (.scalar l.kind [l] none none none none) none [] := rfl
  rw [Ty.validates, hform, Schema.validates_scalar_iff]
  simp

theorem validates_ofJson_int {n : Int} (h : Numeral.fitsInt64 n = true) :
    (Ty.ofJson (.int n)).validates V (.int n) = true := by
  have hbounds := h
  rw [Numeral.fitsInt64, Bool.and_eq_true, decide_eq_true_eq, decide_eq_true_eq] at hbounds
  have hvalue : (Int64.ofInt n).toInt = n := Int64.toInt_ofInt_of_le (by omega) (by omega)
  rw [Ty.ofJson, Literal.ofInt, if_pos h, validates_ofLiteral_iff]
  simp [Literal.kind, ScalarKind.schemaName, Json.hasType, Json.isWhole, Json.units?,
    Literal.toJson, hvalue, Json.equals, Json.equalNumbers]

theorem validates_ofJson_float {x : Double} (h : x.isFinite = true) :
    (Ty.ofJson (.float x)).validates V (.float x) = true := by
  rw [Ty.ofJson, validates_ofLiteral_iff]
  simp [Literal.kind, ScalarKind.schemaName, Json.hasType, Json.genus, Json.units?, Literal.toJson,
    Json.ofDouble, Json.equals, Json.equalNumbers, h]

/-! ## Literal values -/

/-- The schema of a literal value validates the value exactly if it contains neither a list without
elements nor an object that has names like a list. -/
theorem validates_ofJson_iff (V : Vocabulary) {v : Json} (hvalue : v.IsValue) (hheld : v.Held) :
    (Ty.ofJson v).validates V v = true ↔ ∀ w, v.Contains w → ¬ w.Formless := by
  show _ ↔ v.Formed
  induction hvalue with
  | null => exact iff_of_true rfl (Json.formed_of_genus (by simp [Json.genus]))
  | bool b =>
    refine iff_of_true ?_ (Json.formed_of_genus (by simp [Json.genus]))
    rw [Ty.ofJson, validates_ofLiteral_iff]
    simp [Literal.kind, ScalarKind.schemaName, Json.hasType, Json.genus, Literal.toJson,
      Json.equals]
  | int n hn =>
    exact iff_of_true (validates_ofJson_int hn) (Json.formed_of_genus (by simp [Json.genus]))
  | float x =>
    cases hheld with
    | float hfinite =>
      exact iff_of_true (validates_ofJson_float hfinite)
        (Json.formed_of_genus (by simp [Json.genus]))
  | str s =>
    refine iff_of_true ?_ (Json.formed_of_genus (by simp [Json.genus]))
    rw [Ty.ofJson, validates_ofLiteral_iff]
    simp [Literal.kind, ScalarKind.schemaName, Json.hasType, Json.genus, Literal.toJson,
      Json.equals]
  | arr _ ih =>
    cases hheld with
    | arr hlength hheld =>
      rw [validates_ofJson_arr_iff hlength, Json.formed_arr_iff]
      exact and_congr_right fun _ => forall₂_congr fun x hx => ih x hx (hheld x hx)
  | obj hdistinct _ ih =>
    cases hheld with
    | obj hheld =>
      rw [validates_ofJson_obj_iff hdistinct, Json.formed_obj_iff]
      exact and_congr_right fun _ => forall₂_congr fun m hm => ih m hm (hheld m hm)

/-- A line of an order. One of its names is a position, but not all of them are. -/
def sampleLine : Json :=
  .obj [("0", .str "pen"), ("price", .float (.ofDecimal false 25 (-1)))]

/-- An order with a list of lines and an object without members. -/
def sampleOrder : Json :=
  .obj [("id", .int 7), ("remarks", .obj []), ("lines", .arr [sampleLine, .null, .bool true])]

theorem validates_ofJson_sampleOrder :
    sampleOrder.IsValue ∧ sampleOrder.Held ∧
      (Ty.ofJson sampleOrder).validates ⟨fun _ _ => false, fun _ _ => false⟩ sampleOrder = true ∧
      ∀ w, sampleOrder.Contains w → ¬ w.Formless := by
  have hline : sampleLine.IsValue ∧ sampleLine.Held := by
    refine ⟨.obj (by show List.Nodup _; decide) ?_, .obj ?_⟩
    · rintro m (_ | ⟨_, _ | ⟨_, ⟨⟩⟩⟩)
      · exact .str _
      · exact .float _
    · rintro m (_ | ⟨_, _ | ⟨_, ⟨⟩⟩⟩)
      · exact .str _
      · exact .float (by decide +kernel)
  have hvalue : sampleOrder.IsValue := by
    refine .obj (by show List.Nodup _; decide) ?_
    rintro m (_ | ⟨_, _ | ⟨_, _ | ⟨_, ⟨⟩⟩⟩⟩)
    · exact .int 7 rfl
    · exact .obj .nil (by simp)
    · refine .arr ?_
      rintro x (_ | ⟨_, _ | ⟨_, _ | ⟨_, ⟨⟩⟩⟩⟩)
      · exact hline.1
      · exact .null
      · exact .bool true
  have hheld : sampleOrder.Held := by
    refine .obj ?_
    rintro m (_ | ⟨_, _ | ⟨_, _ | ⟨_, ⟨⟩⟩⟩⟩)
    · exact .int 7
    · exact .obj (by simp)
    · refine .arr (by decide) ?_
      rintro x (_ | ⟨_, _ | ⟨_, _ | ⟨_, ⟨⟩⟩⟩⟩)
      · exact hline.2
      · exact .null
      · exact .bool true
  have hvalid :
      (Ty.ofJson sampleOrder).validates ⟨fun _ _ => false, fun _ _ => false⟩ sampleOrder =
        true := by
    decide +kernel
  exact ⟨hvalue, hheld, hvalid, (validates_ofJson_iff _ hvalue hheld).1 hvalid⟩

end

end QueryTypes
