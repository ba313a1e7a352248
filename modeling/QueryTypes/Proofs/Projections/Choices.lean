import QueryTypes.Proofs.Projections.Agreement
import QueryTypes.Proofs.Structure

/-!
# The lists of strings that a type stands for

A type is closed for strings (`Ty.StringClosed`) when it is built from literal strings, shapes and
unions alone. What it can then be is a choice (`Ty.Choice`): one of its literals, one choice per
entry of a shape put one after the other, or a choice of one member of a union. Both are said here
without a computation, and `alternatives_exact` ties the computed lists to them: none is invented
and none is lost, neither by leaving early nor by dropping neighbours that repeat each other.
-/

set_option autoImplicit false

namespace QueryTypes

namespace Ty

/-- Nothing but literal strings can be found in the type. -/
inductive StringClosed : Ty → Prop where
  | literal {s : Scalar} {slot : Slot} {text : String} (hkind : s.kind = .string)
    (htext : .str text ∈ s.literals.toList) : StringClosed (.mk (.scalar s) slot)
  | shape {item key : Option Ty} {es : Entries Ty} {origin : Option String} {slot : Slot}
    (hentries : ∀ t ∈ es.values, StringClosed t) :
    StringClosed (.mk (.array item key (some es) origin) slot)
  | union {members : List Ty} {slot : Slot} (hne : members ≠ [])
    (hmembers : ∀ t ∈ members, StringClosed t) : StringClosed (.mk (.union members) slot)

/-- A list of strings that the type can stand for. -/
inductive Choice : Ty → List String → Prop where
  | literal {s : Scalar} {slot : Slot} {text : String} (hkind : s.kind = .string)
    (htext : .str text ∈ s.literals.toList) : Choice (.mk (.scalar s) slot) [text]
  | shape {item key : Option Ty} {es : Entries Ty} {origin : Option String} {slot : Slot}
    {parts : List (List String)} (hparts : List.Forall₂ Choice es.values parts) :
    Choice (.mk (.array item key (some es) origin) slot) parts.flatten
  | union {members : List Ty} {slot : Slot} {t : Ty} {names : List String} (hmem : t ∈ members)
    (hchoice : Choice t names) : Choice (.mk (.union members) slot) names

/-- The names are choices of the types, one of each, put one after the other. -/
def ChoiceOfEach (ts : List Ty) (names : List String) : Prop :=
  ∃ parts, List.Forall₂ Choice ts parts ∧ parts.flatten = names

/-- The computed lists are the choices, and there are some just when the type is closed. -/
structure Exact (t : Ty) : Prop where
  ne_nil_iff : t.alternatives ≠ [] ↔ t.StringClosed
  mem_iff : t.StringClosed → ∀ names, names ∈ t.alternatives ↔ t.Choice names

end Ty

/-! ## Computed lists -/

theorem Ty.mem_continueEach {firsts rests : List (List String)} {names : List String} :
    names ∈ continueEach firsts rests ↔
      ∃ first ∈ firsts, ∃ rest ∈ rests, first ++ rest = names := by
  simp only [continueEach, List.mem_flatMap, List.mem_map]

namespace Projection

/-- There is nothing to choose from as soon as an argument stands for nothing. -/
theorem choices?_eq_none_iff {args : List Ty} :
    choices? args = none ↔ ∃ a ∈ args, a.alternatives = [] := by
  induction args with
  | nil => simp [choices?]
  | cons a rest ih =>
    rw [choices?, List.exists_mem_cons_iff, ← ih]
    split
    · next hempty => simp [List.isEmpty_iff.1 hempty]
    · next hempty =>
      rw [List.isEmpty_iff] at hempty
      simp [hempty]

/-- One list of every argument makes a choice, and every choice is made so. -/
theorem mem_choices? {args : List Ty} {lists : List (List String)} (h : choices? args = some lists)
    (names : List String) :
    names ∈ lists ↔ ∃ parts, List.Forall₂ (fun a part => part ∈ a.alternatives) args parts ∧
      parts.flatten = names := by
  induction args generalizing lists names with
  | nil =>
    obtain rfl := Option.some.inj h
    simp [List.forall₂_nil_left_iff, eq_comm]
  | cons a rest ih =>
    rw [choices?] at h
    split at h
    · cases h
    · obtain ⟨others, hothers, rfl⟩ := Option.map_eq_some_iff.1 h
      rw [Ty.mem_continueEach]
      constructor
      · rintro ⟨first, hfirst, names', hnames', rfl⟩
        obtain ⟨parts, hparts, rfl⟩ := (ih hothers names').1 hnames'
        exact ⟨first :: parts, .cons hfirst hparts, List.flatten_cons⟩
      · rintro ⟨parts, hparts, rfl⟩
        obtain ⟨first, parts', hfirst, hparts', rfl⟩ := List.forall₂_cons_left_iff.1 hparts
        exact ⟨first, hfirst, parts'.flatten, (ih hothers _).2 ⟨parts', hparts', rfl⟩,
          List.flatten_cons.symm⟩

section Exact

variable {args : List Ty} (h : ∀ a ∈ args, a.Exact)
include h

theorem choices?_eq_none_iff_of_exact : choices? args = none ↔ ∃ a ∈ args, ¬a.StringClosed := by
  rw [choices?_eq_none_iff]
  refine exists_congr fun a => and_congr_right fun ha => ?_
  rw [← (h a ha).ne_nil_iff, not_not]

theorem stringClosed_of_choices? {lists : List (List String)}
    (hlists : choices? args = some lists) : ∀ a ∈ args, a.StringClosed := by
  intro a ha
  by_contra hopen
  rw [(choices?_eq_none_iff_of_exact h).2 ⟨a, ha, hopen⟩] at hlists
  cases hlists

theorem mem_choices?_of_exact {lists : List (List String)} (hlists : choices? args = some lists)
    (names : List String) : names ∈ lists ↔ Ty.ChoiceOfEach args names := by
  have hclosed := stringClosed_of_choices? h hlists
  rw [mem_choices? hlists]
  refine exists_congr fun parts => and_congr_left fun _ => ?_
  exact forall₂_congr_of_mem (fun a ha part => (h a ha).mem_iff (hclosed a ha) part) parts

end Exact

end Projection

namespace Ty

/-- Members have no lists together as soon as one of them has none. -/
theorem alternativesList?_eq_none_iff {members : List Ty} :
    alternativesList? members = none ↔ ∃ t ∈ members, t.alternatives = [] := by
  induction members with
  | nil => simp [alternativesList?]
  | cons t rest ih =>
    rw [alternativesList?, List.exists_mem_cons_iff, ← ih]
    split
    · next hempty => simp [List.isEmpty_iff.1 hempty]
    · next hempty =>
      rw [List.isEmpty_iff] at hempty
      simp [hempty]

theorem mem_alternativesList? {members : List Ty} {lists : List (List String)}
    (h : alternativesList? members = some lists) (names : List String) :
    names ∈ lists ↔ ∃ t ∈ members, names ∈ t.alternatives := by
  induction members generalizing lists with
  | nil =>
    rw [alternativesList?] at h
    obtain rfl := Option.some.inj h
    simp
  | cons t rest ih =>
    rw [alternativesList?] at h
    split at h
    · cases h
    · obtain ⟨others, hothers, rfl⟩ := Option.map_eq_some_iff.1 h
      rw [List.mem_append, ih hothers, List.exists_mem_cons_iff]

/-! ## One case per kind -/

theorem exact_of_no_alternatives {t : Ty} (h : t.alternatives = []) (hopen : ¬t.StringClosed) :
    t.Exact where
  ne_nil_iff := by simp [h, hopen]
  mem_iff hclosed := absurd hclosed hopen

theorem exact_scalar (s : Scalar) (slot : Slot) : Exact (.mk (.scalar s) slot) := by
  by_cases hkind : s.kind = .string
  · have hmem (names : List String) : names ∈ alternatives (.mk (.scalar s) slot) ↔
        ∃ text, .str text ∈ s.literals.toList ∧ [text] = names := by
      rw [alternatives, if_pos hkind, mem_eraseReps, List.mem_filterMap]
      constructor
      · rintro ⟨l, hl, hnames⟩
        obtain ⟨text, htext, rfl⟩ := Option.map_eq_some_iff.1 hnames
        cases l with
        | str s =>
          obtain rfl := Option.some.inj htext
          exact ⟨s, hl, rfl⟩
        | bool | int | float => cases htext
      · rintro ⟨text, htext, rfl⟩
        exact ⟨.str text, htext, rfl⟩
    constructor
    · constructor
      · intro hne
        obtain ⟨names, hnames⟩ := List.exists_mem_of_ne_nil _ hne
        obtain ⟨text, htext, -⟩ := (hmem names).1 hnames
        exact .literal hkind htext
      · rintro (⟨-, htext⟩ | _ | _)
        exact List.ne_nil_of_mem ((hmem _).2 ⟨_, htext, rfl⟩)
    · intro _ names
      rw [hmem]
      constructor
      · rintro ⟨text, htext, rfl⟩
        exact .literal hkind htext
      · rintro (⟨-, htext⟩ | _ | _)
        exact ⟨_, htext, rfl⟩
  · apply exact_of_no_alternatives
    · rw [alternatives, if_neg hkind]
    · rintro (⟨hstring, -⟩ | _ | _)
      exact hkind hstring

theorem exact_shape (item key : Option Ty) (es : Entries Ty) (origin : Option String) (slot : Slot)
    (h : ∀ t ∈ es.values, t.Exact) : Exact (.mk (.array item key (some es) origin) slot) := by
  -- the entries of a shape are chosen from as the arguments of a call are
  have halternatives : alternatives (.mk (.array item key (some es) origin) slot) =
      ((Projection.choices? es.values).getD []).eraseReps := by
    rw [alternatives, Projection.alternativesEntries_eq]
  cases hchoices : Projection.choices? es.values with
  | none =>
    apply exact_of_no_alternatives
    · rw [halternatives, hchoices]
      rfl
    · rintro (_ | hentries | _)
      obtain ⟨t, ht, hopen⟩ := (Projection.choices?_eq_none_iff_of_exact h).1 hchoices
      exact hopen (hentries t ht)
  | some lists =>
    rw [hchoices, Option.getD_some] at halternatives
    constructor
    · rw [halternatives, eraseReps_ne_nil_iff]
      exact ⟨fun _ => .shape (Projection.stringClosed_of_choices? h hchoices),
        fun _ => Projection.choices?_ne_nil hchoices⟩
    · intro _ names
      rw [halternatives, mem_eraseReps, Projection.mem_choices?_of_exact h hchoices]
      constructor
      · rintro ⟨parts, hparts, rfl⟩
        exact .shape hparts
      · rintro (_ | hparts | _)
        exact ⟨_, hparts, rfl⟩

theorem exact_union (members : List Ty) (slot : Slot) (h : ∀ t ∈ members, t.Exact) :
    Exact (.mk (.union members) slot) := by
  cases hlists : alternativesList? members with
  | none =>
    obtain ⟨t, ht, hnone⟩ := alternativesList?_eq_none_iff.1 hlists
    apply exact_of_no_alternatives
    · rw [alternatives, hlists]
      rfl
    · rintro (_ | _ | ⟨-, hmembers⟩)
      exact (h t ht).ne_nil_iff.2 (hmembers t ht) hnone
  | some lists =>
    have hmem (names : List String) : names ∈ alternatives (.mk (.union members) slot) ↔
        ∃ t ∈ members, names ∈ t.alternatives := by
      rw [alternatives, hlists, Option.getD_some, mem_eraseReps, mem_alternativesList? hlists]
    -- no member is without lists, or there would be none for the union
    have hclosed : ∀ t ∈ members, t.StringClosed := by
      intro t ht
      apply (h t ht).ne_nil_iff.1
      intro hnone
      rw [alternativesList?_eq_none_iff.2 ⟨t, ht, hnone⟩] at hlists
      cases hlists
    constructor
    · constructor
      · intro hne
        obtain ⟨names, hnames⟩ := List.exists_mem_of_ne_nil _ hne
        obtain ⟨t, ht, -⟩ := (hmem names).1 hnames
        exact .union (List.ne_nil_of_mem ht) hclosed
      · rintro (_ | _ | ⟨hne, -⟩)
        obtain ⟨t, ht⟩ := List.exists_mem_of_ne_nil _ hne
        obtain ⟨names, hnames⟩ := List.exists_mem_of_ne_nil _ ((h t ht).ne_nil_iff.2 (hclosed t ht))
        exact List.ne_nil_of_mem ((hmem names).2 ⟨t, ht, hnames⟩)
    · intro _ names
      rw [hmem]
      constructor
      · rintro ⟨t, ht, hnames⟩
        exact .union ht (((h t ht).mem_iff (hclosed t ht) names).1 hnames)
      · rintro (_ | _ | ⟨ht, hchoice⟩)
        exact ⟨_, ht, ((h _ ht).mem_iff (hclosed _ ht) names).2 hchoice⟩

/-- What a type stands for is exact, whatever it is built from. -/
theorem exact_alternatives (t : Ty) : t.Exact := by
  induction t using Ty.rec' with
  | unknown slot => exact exact_of_no_alternatives (by simp [alternatives]) (by rintro ⟨⟩)
  | scalar s slot => exact exact_scalar s slot
  | array item key shape origin slot _ _ ihshape =>
    cases shape with
    | none => exact exact_of_no_alternatives (by simp [alternatives]) (by rintro ⟨⟩)
    | some es =>
      apply exact_shape
      intro t ht
      obtain ⟨e, he, rfl⟩ := List.mem_map.1 ht
      exact ihshape es rfl e he
  | object properties origin slot _ =>
    exact exact_of_no_alternatives (by simp [alternatives]) (by rintro ⟨⟩)
  | union members slot ih => exact exact_union members slot ih

end Ty

/-- A type stands for lists of strings just when it is closed for strings, and then for its choices
and nothing else. A list of arguments stands for lists of strings just when all of them are closed,
and then for one choice of each put one after the other. -/
theorem alternatives_exact :
    (∀ t : Ty, (t.alternatives ≠ [] ↔ t.StringClosed) ∧
      (t.StringClosed → ∀ names, names ∈ t.alternatives ↔ t.Choice names)) ∧
    ∀ args : List Ty, (Projection.alternatives? args = none ↔ ∃ a ∈ args, ¬a.StringClosed) ∧
      ∀ lists, Projection.alternatives? args = some lists →
        ∀ names, names ∈ lists ↔ Ty.ChoiceOfEach args names := by
  refine ⟨fun t => ⟨t.exact_alternatives.ne_nil_iff, t.exact_alternatives.mem_iff⟩,
    fun args => ⟨?_, ?_⟩⟩
  · rw [Projection.alternatives?, Option.map_eq_none_iff]
    exact Projection.choices?_eq_none_iff_of_exact fun a _ => a.exact_alternatives
  · intro lists hlists names
    obtain ⟨choices, hchoices, rfl⟩ := Option.map_eq_some_iff.1 hlists
    rw [mem_eraseReps]
    exact Projection.mem_choices?_of_exact (fun a _ => a.exact_alternatives) hchoices names

/-- One of two names and then a pair, or a pair alone; a further argument is one of two names. -/
theorem alternatives_exact_nested :
    let name (s : String) : Ty := .ofJson (.str s)
    let pair : Ty := .ofJson (.arr [.str "id", .str "email"])
    let t : Ty := .union [.shape [("0", .union [name "a", name "b"]), ("1", pair)], pair]
    let args : List Ty := [t, .union [name "x", name "y"]]
    t.StringClosed ∧ t.Choice ["b", "id", "email"] ∧ ¬t.Choice ["a", "id"] ∧
      (∃ lists, Projection.alternatives? args = some lists) ∧
      Ty.ChoiceOfEach args ["b", "id", "email", "y"] ∧ ¬Ty.ChoiceOfEach args ["id", "email"] := by
  intro name pair t args
  obtain ⟨hne, hmem⟩ := alternatives_exact.1 t
  have hclosed : t.StringClosed := hne.1 (by decide +kernel)
  have hlists : Projection.alternatives? args =
      some [["a", "id", "email", "x"], ["a", "id", "email", "y"], ["b", "id", "email", "x"],
        ["b", "id", "email", "y"], ["id", "email", "x"], ["id", "email", "y"]] := by decide +kernel
  have hargs := (alternatives_exact.2 args).2 _ hlists
  refine ⟨hclosed, ?_, ?_, ⟨_, hlists⟩, ?_, ?_⟩
  · rw [← hmem hclosed]
    decide +kernel
  · rw [← hmem hclosed]
    decide +kernel
  · rw [← hargs]
    decide
  · rw [← hargs]
    decide

end QueryTypes
