import QueryTypes.Proofs.Schemas.Validity

/-!
# Lengths of tuples

The schema of a shape with positions for names bounds the length of a list: from below by the number
of entries that are required, from above by the number of all entries. A list that has every
required position is never too short for it. The other way round this is so exactly if the required
positions come first (`tuple_length_bounds`): joining two shapes can relax an early entry and leave
a later one required, and then a list is long enough before it has that one
(`tuple_length_bounds_late`).
-/

set_option autoImplicit false

namespace QueryTypes

namespace Ty

/-! ## Required positions -/

/-- The entry at a position must be there. -/
def RequiredAt (es : Entries Ty) (i : Nat) : Prop := es[i]?.any (fun e => e.2.required) = true

/-- The positions before a required one are required as well. -/
def RequiredFirst (es : Entries Ty) : Prop := ∀ i j, i < j → RequiredAt es j → RequiredAt es i

section

variable {e : String × Ty} {es : Entries Ty} {i n : Nat}

@[simp] theorem not_requiredAt_nil : ¬ RequiredAt [] i := by simp [RequiredAt]

@[simp] theorem requiredAt_cons_zero :
    RequiredAt (e :: es) 0 ↔ e.2.required = true := by simp [RequiredAt]

@[simp] theorem requiredAt_cons_succ : RequiredAt (e :: es) (i + 1) ↔ RequiredAt es i := by
  simp [RequiredAt]

theorem RequiredFirst.tail (h : RequiredFirst (e :: es)) : RequiredFirst es := by
  intro i j hij hj
  simpa using h (i + 1) (j + 1) (by omega) (by simpa using hj)

theorem requiredNames_cons_of_required (h : e.2.required = true) :
    (Schema.requiredNames (e :: es)).length = (Schema.requiredNames es).length + 1 := by
  simp [Schema.requiredNames, h]

theorem requiredNames_cons_of_optional (h : e.2.required = false) :
    (Schema.requiredNames (e :: es)).length = (Schema.requiredNames es).length := by
  simp [Schema.requiredNames, h]

/-- There are no more required positions than there are positions up to the last of them. -/
theorem length_requiredNames_le (h : ∀ i, RequiredAt es i → i < n) :
    (Schema.requiredNames es).length ≤ n := by
  induction es generalizing n with
  | nil => exact Nat.zero_le n
  | cons e rest ih =>
    have hrest : ∀ i, RequiredAt rest i → i < n - 1 := by
      intro i hi
      have := h (i + 1) (by simpa using hi)
      omega
    have hle := ih hrest
    cases he : e.2.required with
    | true =>
      have := h 0 (by simpa using he)
      rw [requiredNames_cons_of_required he]
      omega
    | false =>
      rw [requiredNames_cons_of_optional he]
      omega

/-- Required positions that come first are counted by their number. -/
theorem RequiredFirst.lt_length (h : RequiredFirst es) (hi : RequiredAt es i) :
    i < (Schema.requiredNames es).length := by
  induction es generalizing i with
  | nil => simp at hi
  | cons e rest ih =>
    have he : e.2.required = true := by
      cases i with
      | zero => simpa using hi
      | succ i => simpa using h 0 (i + 1) (by omega) hi
    rw [requiredNames_cons_of_required he]
    cases i with
    | zero => omega
    | succ i =>
      have := ih h.tail (by simpa using hi)
      omega

theorem requiredFirst_of_lt_length
    (h : ∀ i, RequiredAt es i → i < (Schema.requiredNames es).length) : RequiredFirst es := by
  induction es with
  | nil => simp [RequiredFirst]
  | cons e rest ih =>
    cases he : e.2.required with
    | true =>
      rw [requiredNames_cons_of_required he] at h
      have hrest : RequiredFirst rest := by
        apply ih
        intro i hi
        have := h (i + 1) (by simpa using hi)
        omega
      intro i j hij hj
      cases i with
      | zero => simpa using he
      | succ i =>
        obtain ⟨j, rfl⟩ := Nat.exists_eq_succ_of_ne_zero (Nat.ne_zero_of_lt hij)
        simpa using hrest i j (by omega) (by simpa using hj)
    | false =>
      -- the required positions of the rest would all lie below one less than their number
      rw [requiredNames_cons_of_optional he] at h
      have hshort : ∀ i, RequiredAt rest i → i < (Schema.requiredNames rest).length - 1 := by
        intro i hi
        have := h (i + 1) (by simpa using hi)
        omega
      have hle := length_requiredNames_le hshort
      intro i j _ hj
      have := h j hj
      omega

end

end Ty

/-! ## Bounds -/

section

variable (item key : Option Ty) {es : Entries Ty} (origin : Option String) (slot : Slot)

theorem lengths_of_positions (hne : es ≠ []) (hnames : Ty.arePositions 0 (Entries.keys es) = true) :
    (Ty.mk (.array item key (some es) origin) slot).schema.toJson.get? "minItems" =
        some (.nat (Schema.requiredNames es).length) ∧
      (Ty.mk (.array item key (some es) origin) slot).schema.toJson.get? "maxItems" =
        some (.nat es.length) := by
  rw [Ty.schema, Kind.form, Schema.ofShape_of_positions hne hnames]
  exact ⟨rfl, rfl⟩

/-- The bounds that are written for the length of a tuple. They refuse no list that has all required
positions and no others than the tuple, and they refuse every list that is too long. They refuse
every list without a required position as well exactly if the required positions come first. -/
theorem tuple_length_bounds (hne : es ≠ []) (hnames : Ty.arePositions 0 (Entries.keys es) = true) :
    ∃ least greatest : Nat,
      (Ty.mk (.array item key (some es) origin) slot).schema.toJson.get? "minItems" =
        some (.nat least) ∧
      (Ty.mk (.array item key (some es) origin) slot).schema.toJson.get? "maxItems" =
        some (.nat greatest) ∧
      (∀ n, (n ≤ es.length ∧ ∀ i, Ty.RequiredAt es i → i < n) → least ≤ n ∧ n ≤ greatest) ∧
      (∀ n, least ≤ n ∧ n ≤ greatest → n ≤ es.length) ∧
      (Ty.RequiredFirst es ↔
        ∀ n, least ≤ n ∧ n ≤ greatest ↔ n ≤ es.length ∧ ∀ i, Ty.RequiredAt es i → i < n) := by
  obtain ⟨hleast, hgreatest⟩ := lengths_of_positions item key origin slot hne hnames
  have hsound : ∀ n, (n ≤ es.length ∧ ∀ i, Ty.RequiredAt es i → i < n) →
      (Schema.requiredNames es).length ≤ n ∧ n ≤ es.length :=
    fun n h => ⟨Ty.length_requiredNames_le h.2, h.1⟩
  refine ⟨_, _, hleast, hgreatest, hsound, fun n h => h.2, ?_⟩
  constructor
  · intro hfirst n
    exact ⟨fun h => ⟨h.2, fun i hi => Nat.lt_of_lt_of_le (hfirst.lt_length hi) h.1⟩, hsound n⟩
  · intro h
    -- the least length that is written is a length of the tuple, so it lies beyond every required
    -- position
    have hle : (Schema.requiredNames es).length ≤ es.length := by
      rw [Schema.requiredNames, List.length_map]
      exact List.length_filter_le _ _
    exact Ty.requiredFirst_of_lt_length ((h _).1 ⟨Nat.le_refl _, hle⟩).2

end

/-- Two texts, joined with a list of one. -/
def oneOrTwoTexts : Entries Ty :=
  Ty.mergeShapes (Ty.merge 1) (Ty.ofJsonList 0 [.str "a", .str "b"]) (Ty.ofJsonList 0 [.str "c"])

theorem tuple_length_bounds_oneOrTwoTexts :
    oneOrTwoTexts ≠ [] ∧ Ty.arePositions 0 (Entries.keys oneOrTwoTexts) = true ∧
      Ty.RequiredFirst oneOrTwoTexts ∧
      ∃ least greatest : Nat,
        (Ty.shape oneOrTwoTexts).schema.toJson.get? "minItems" = some (.nat least) ∧
        (Ty.shape oneOrTwoTexts).schema.toJson.get? "maxItems" = some (.nat greatest) ∧
        ∀ n, least ≤ n ∧ n ≤ greatest ↔ n ≤ 2 ∧ ∀ i, Ty.RequiredAt oneOrTwoTexts i → i < n := by
  have hne : oneOrTwoTexts ≠ [] := List.cons_ne_nil _ _
  have hnames : Ty.arePositions 0 (Entries.keys oneOrTwoTexts) = true := by decide +kernel
  have hfirst : Ty.RequiredFirst oneOrTwoTexts := by
    intro i j hij hj
    rcases j with _ | _ | j
    · omega
    · have hsecond : oneOrTwoTexts[1]?.any (fun e => e.2.required) = false := by decide +kernel
      exact absurd hj (by rw [Ty.RequiredAt, hsecond]; decide)
    · cases hj
  obtain ⟨least, greatest, hleast, hgreatest, -, -, hexact⟩ :=
    tuple_length_bounds none none none {} hne hnames
  exact ⟨hne, hnames, hfirst, least, greatest, hleast, hgreatest, hexact.1 hfirst⟩

/-- Two texts, joined with a record of the second. -/
def secondOfTwoTexts : Ty :=
  Ty.merge defaultDepth (Ty.ofJson (.arr [.str "a", .str "b"])) (Ty.ofJson (.obj [("1", .str "c")]))

/-- The first text need not be there, but the second must be. Still a list of one text is long
enough. -/
theorem tuple_length_bounds_late :
    ∃ es, secondOfTwoTexts.shape? = some es ∧ es ≠ [] ∧ Ty.arePositions 0 (Entries.keys es) = true ∧
      ∃ least greatest : Nat,
        secondOfTwoTexts.schema.toJson.get? "minItems" = some (.nat least) ∧
        secondOfTwoTexts.schema.toJson.get? "maxItems" = some (.nat greatest) ∧
        ¬ ∀ n, least ≤ n ∧ n ≤ greatest ↔ n ≤ es.length ∧ ∀ i, Ty.RequiredAt es i → i < n := by
  have hsame : (Ty.ofJson (.arr [.str "a", .str "b"])).same (Ty.ofJson (.obj [("1", .str "c")])) =
      false := by
    decide +kernel
  have hmerge : secondOfTwoTexts = .shape (Ty.mergeShapes (Ty.merge 19)
      (Ty.ofJsonList 0 [.str "a", .str "b"]) (Ty.ofJsonMembers [("1", .str "c")])) := by
    rw [secondOfTwoTexts, defaultDepth, Ty.merge, hsame]
    rfl
  rw [hmerge]
  generalize hes : Ty.mergeShapes (Ty.merge 19) (Ty.ofJsonList 0 [.str "a", .str "b"])
    (Ty.ofJsonMembers [("1", .str "c")]) = es
  have hne : es ≠ [] := hes ▸ List.cons_ne_nil _ _
  have hnames : Ty.arePositions 0 (Entries.keys es) = true := by
    rw [← hes]
    decide +kernel
  have hlength : (Schema.requiredNames es).length = 1 ∧ es.length = 2 := by
    rw [← hes]
    decide +kernel
  have hsecond : Ty.RequiredAt es 1 := by
    rw [← hes, Ty.RequiredAt]
    decide +kernel
  obtain ⟨hleast, hgreatest⟩ := lengths_of_positions none none none {} hne hnames
  refine ⟨es, rfl, hne, hnames, _, _, hleast, hgreatest, ?_⟩
  rw [hlength.1, hlength.2]
  intro h
  exact absurd (((h 1).1 ⟨Nat.le_refl 1, by decide⟩).2 1 hsecond) (Nat.lt_irrefl 1)

end QueryTypes
