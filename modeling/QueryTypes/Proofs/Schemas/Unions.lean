import QueryTypes.Proofs.Lists
import QueryTypes.Proofs.Schemas.Validity
import QueryTypes.Proofs.WellFormed.Types

/-!
# Schemas of unions

The schema of a union asks for exactly one of its options. So of the values that a member describes
it refuses those that another member describes too (`union_validates`), as it refuses a whole number
where a sum may be an integer or any number (`union_refuses_shared`).

Nothing is refused where no two members describe one value. This is so if they are of different
kinds, or are restricted to different literals (`Schema.Apart`).
-/

set_option autoImplicit false

namespace QueryTypes

/-! ## Schemas apart -/

/-- The kind of the values of a scalar kind. -/
def ScalarKind.genus : ScalarKind → Json.Genus
  | .string => .string
  | .integer => .number
  | .float => .number
  | .bool => .boolean
  | .null => .null

/-- The kind of all values of a form, where it has one. -/
def Form.genus? : Form → Option Json.Genus
  | .scalar kind _ _ _ _ _ => some kind.genus
  | .tuple .. => some .array
  | .list _ => some .array
  | .map .. => some .object
  | .record .. => some .object
  | .any => none
  | .oneOf _ => none

/-- The literals that a form is restricted to, if there are any. -/
def Form.literals : Form → List Literal
  | .scalar _ enum _ _ _ _ => enum
  | _ => []

/-- Schemas of values of different kinds, or restricted to different literals. -/
inductive Schema.Apart (a b : Schema) : Prop
  | genus {g h : Json.Genus} : a.form.genus? = some g → b.form.genus? = some h → g ≠ h → Apart a b
  | literals : a.form.literals ≠ [] → b.form.literals ≠ [] →
      (∀ l ∈ a.form.literals, ∀ m ∈ b.form.literals, l.toJson.equals m.toJson = false) → Apart a b

section

variable {V : Vocabulary} {v : Json}

theorem Json.genus_of_hasType {kind : ScalarKind} (h : v.hasType kind.schemaName = true) :
    v.genus = kind.genus := by
  cases kind with
  | string | float | bool | null =>
    simp only [ScalarKind.schemaName, Json.hasType, beq_iff_eq] at h
    exact h
  | integer =>
    -- only a number has a value that may be whole
    cases v with
    | int | float => rfl
    | null | bool | str | arr | obj =>
      simp [ScalarKind.schemaName, Json.hasType, Json.isWhole, Json.units?] at h

/-- A schema of one kind of values asks for it. -/
theorem Schema.genus_of_validates {s : Schema} (h : s.toJson.validates V v = true) {g : Json.Genus}
    (hg : s.form.genus? = some g) : v.genus = g := by
  obtain ⟨form, description, examples⟩ := s
  have htype : ∀ type, ("type", Json.str type) ∈ formMembers form → v.hasType type = true := by
    intro type hmem
    simpa using validates_toJson_iff.1 h _ hmem
  cases form with
  | any => cases hg
  | oneOf options => cases hg
  | scalar kind enum format minimum maximum pattern =>
    cases hg
    exact Json.genus_of_hasType (validates_scalar_iff.1 h).1
  | tuple items least greatest =>
    cases hg
    simpa [Json.hasType] using htype "array" List.mem_cons_self
  | list items =>
    cases hg
    simpa [Json.hasType] using htype "array" List.mem_cons_self
  | map values names =>
    cases hg
    cases names <;> simpa [Json.hasType] using htype "object" List.mem_cons_self
  | record properties required title =>
    cases hg
    simpa [Json.hasType] using htype "object" List.mem_cons_self

theorem Schema.exists_literal_of_validates {s : Schema} (h : s.toJson.validates V v = true)
    (hs : s.form.literals ≠ []) : ∃ l ∈ s.form.literals, v.equals l.toJson = true := by
  obtain ⟨form, description, examples⟩ := s
  cases form with
  | scalar kind enum format minimum maximum pattern => exact (validates_scalar_iff.1 h).2.1 hs
  | any | tuple | list | map | record | oneOf => exact absurd rfl hs

theorem Json.equals_of_genus {w : Json} (hv : v.genus = .number) :
    v.equals w = equalNumbers v w := by
  cases v with
  | int | float => cases w <;> rfl
  | null | bool | str | arr | obj => cases hv

theorem Json.equals_iff_of_units? {w : Json} {n : Int} (hv : v.units? = some n) :
    v.equals w = true ↔ w.units? = some n := by
  have hnumber : v.genus = .number := by
    cases v with
    | int | float => rfl
    | null | bool | str | arr | obj => cases hv
  rw [equals_of_genus hnumber, equalNumbers, hv]
  cases w.units? with
  | none => simp
  | some m => simpa using eq_comm

/-- What is not a number equals only itself among the values that hold no others. -/
theorem Json.eq_of_equals {w : Json} (hv : v.units? = none) (harr : w.genus ≠ .array)
    (hobj : w.genus ≠ .object) (h : v.equals w = true) : v = w := by
  cases v with
  | int | float =>
    rw [equals_of_genus rfl, equalNumbers, hv] at h
    cases h
  | null | bool | str | arr | obj => cases w <;> simp_all [equals, genus]

theorem Literal.genus_toJson (l : Literal) :
    l.toJson.genus ≠ .array ∧ l.toJson.genus ≠ .object := by
  cases l with
  | bool | int | str => simp [Literal.toJson, Json.genus]
  | float x =>
    rw [Literal.toJson, Json.ofDouble]
    split <;> simp [Json.genus]

/-- Literals that equal one value equal each other. -/
theorem Literal.equals_of_equals {l m : Literal} (hl : v.equals l.toJson = true)
    (hm : v.equals m.toJson = true) : l.toJson.equals m.toJson = true := by
  cases hv : v.units? with
  | some n =>
    have hln := (Json.equals_iff_of_units? hv).1 hl
    rw [Json.equals_iff_of_units? hln]
    exact (Json.equals_iff_of_units? hv).1 hm
  | none =>
    rw [← Json.eq_of_equals hv l.genus_toJson.1 l.genus_toJson.2 hl]
    exact hm

theorem Schema.Apart.not_both {a b : Schema} (h : a.Apart b) :
    ¬ (a.toJson.validates V v = true ∧ b.toJson.validates V v = true) := by
  rintro ⟨ha, hb⟩
  cases h with
  | genus hg hh hne => exact hne ((genus_of_validates ha hg).symm.trans (genus_of_validates hb hh))
  | literals hla hlb hdiffer =>
    obtain ⟨l, hl, hvl⟩ := exists_literal_of_validates ha hla
    obtain ⟨m, hm, hvm⟩ := exists_literal_of_validates hb hlb
    exact absurd (Literal.equals_of_equals hvl hvm) (by simp [hdiffer l hl m hm])

end

/-! ## Exactly one member -/

/-- What the schema of a union validates: the values that one member's schema validates, as long as
no two do. No value is lost that way if the schemas of the members are apart. -/
theorem union_validates (V : Vocabulary) (members : List Ty) (slot : Slot) (v : Json) :
    ((Ty.mk (.union members) slot).validates V v = true ↔
      (∃ t ∈ members, t.validates V v = true) ∧
        members.Pairwise fun t u => ¬ (t.validates V v = true ∧ u.validates V v = true)) ∧
    (members.Pairwise (fun t u => t.schema.Apart u.schema) →
      (∃ t ∈ members, t.validates V v = true) →
      (Ty.mk (.union members) slot).validates V v = true) := by
  have hcount : (Ty.mk (.union members) slot).validates V v = true ↔
      (members.countP fun t => t.validates V v) = 1 := by
    rw [Ty.validates, Ty.schema, Kind.form, Schema.validates_oneOf_iff, Ty.schemaList_eq_map,
      List.countP_map]
    rfl
  rw [hcount, countP_eq_one_iff]
  exact ⟨Iff.rfl, fun hapart hsome => ⟨hsome, hapart.imp fun h => h.not_both⟩⟩

/-- An optional text: null is described by one member, and is not lost. -/
theorem union_validates_optional_text :
    Ty.union [.string, .null] = .ofKind (.union [.string, .null]) ∧
      ([Ty.string, Ty.null].Pairwise fun t u => t.schema.Apart u.schema) ∧
      Ty.null.validates ⟨fun _ _ => true, fun _ _ => true⟩ .null = true ∧
      (Ty.union [.string, .null]).validates ⟨fun _ _ => true, fun _ _ => true⟩ .null = true := by
  have hunion : Ty.union [.string, .null] = .ofKind (.union [.string, .null]) :=
    (Ty.Alternatives.pair rfl rfl (by decide +kernel)).union_eq
  have hapart : [Ty.string, Ty.null].Pairwise fun t u => t.schema.Apart u.schema :=
    List.pairwise_pair.2 (.genus rfl rfl (by decide))
  have hnull : Ty.null.validates ⟨fun _ _ => true, fun _ _ => true⟩ .null =
      true := by decide +kernel
  refine ⟨hunion, hapart, hnull, ?_⟩
  rw [hunion]
  exact (union_validates _ _ {} _).2 hapart ⟨Ty.null, by simp, hnull⟩

/-- A sum is an integer or a number. A whole number is both, so the union refuses it. -/
theorem union_refuses_shared :
    ∃ members, Contract.declaredReturn? "sum" = some (.ofKind (.union members)) ∧
      (∃ t ∈ members, t.validates ⟨fun _ _ => true, fun _ _ => true⟩ (.int 1) = true) ∧
      (Ty.ofKind (.union members)).validates ⟨fun _ _ => true, fun _ _ => true⟩ (.int 1) =
        false := by
  have hunion : Ty.union [.integer, .float] = .ofKind (.union [.integer, .float]) :=
    (Ty.Alternatives.pair rfl rfl (by decide +kernel)).union_eq
  refine ⟨[.integer, .float], ?_, ⟨.integer, List.mem_cons_self, by decide +kernel⟩,
    by decide +kernel⟩
  rw [← hunion]
  rfl

end QueryTypes
