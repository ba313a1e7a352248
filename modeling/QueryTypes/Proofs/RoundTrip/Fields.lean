import QueryTypes.Document.Decode
import QueryTypes.Proofs.Reading

/-!
# Reading what was written

A record is read field by field, each by the values that the members of an object have under its
name (`Json.valuesOf`). So to know what is read from an object it is enough to know these values,
whatever stands beside them: `Record.Gives` has one rule for each way in which records are put
together. Lists and maps are read element by element (`Decode.list_map`, `Decode.entries_map`).

A reader that is bounded by a depth needs at most the depth of the document, and every part of a
document has less (`Json.depth_lt_of_mem_arr`, `Json.depth_lt_of_mem_obj`).
-/

set_option autoImplicit false

namespace QueryTypes

variable {α β : Type}

/-! ## Values by name -/

namespace Json

/-- The values of the members with a name, in order. -/
def valuesOf (name : String) : List (String × Json) → List Json
  | [] => []
  | (k, j) :: rest => if k = name then j :: valuesOf name rest else valuesOf name rest

variable {name name' : String}

@[simp] theorem valuesOf_nil : valuesOf name [] = [] := rfl

@[simp] theorem valuesOf_cons (j : Json) (rest : List (String × Json)) :
    valuesOf name ((name', j) :: rest) =
      if name' = name then j :: valuesOf name rest else valuesOf name rest := rfl

@[simp] theorem valuesOf_append (ms ms' : List (String × Json)) :
    valuesOf name (ms ++ ms') = valuesOf name ms ++ valuesOf name ms' := by
  induction ms with
  | nil => rfl
  | cons m rest ih =>
    obtain ⟨k, j⟩ := m
    rw [List.cons_append, valuesOf_cons, valuesOf_cons, ih]
    split <;> rfl

@[simp] theorem valuesOf_memberOption (write : α → Json) (o : Option α) :
    valuesOf name (memberOption name' write o) =
      if name' = name then (o.map write).toList else [] := by
  cases o with
  | none => simp [memberOption]
  | some a => simp [memberOption]

@[simp] theorem valuesOf_memberList (write : α → Json) (values : List α) :
    valuesOf name (memberList name' write values) =
      if name' = name then (if values.isEmpty then [] else [.arr (values.map write)]) else [] := by
  cases values with
  | nil => simp [memberList]
  | cons a rest => simp [memberList]

end Json

theorem Source.map_value_occurrencesFrom (name : String) (place : Nat) (ms : List (String × Json)) :
    (Source.occurrencesFrom name place ms).map Occurrence.value = Json.valuesOf name ms := by
  induction ms generalizing place with
  | nil => rfl
  | cons m rest ih =>
    obtain ⟨k, j⟩ := m
    rw [Source.occurrencesFrom, Json.valuesOf_cons]
    split
    · rw [List.map_cons, ih]
    · exact ih (place + 1)

/-! ## Lists and maps -/

namespace Decode

variable {d : Json → Decode α} {write : α → Json}

theorem elementsFrom_map {xs : List α} (h : ∀ x ∈ xs, d (write x) = .ok x) (start : Nat) :
    elementsFrom d start (xs.map write) = .ok xs := by
  induction xs generalizing start with
  | nil => rfl
  | cons x rest ih =>
    rw [List.forall_mem_cons] at h
    rw [List.map_cons, elementsFrom, h.1, ih h.2]
    rfl

theorem list_map {xs : List α} (h : ∀ x ∈ xs, d (write x) = .ok x) :
    Decode.list d (.arr (xs.map write)) = .ok xs := elementsFrom_map h 0

theorem members_map {es : Entries α} (h : ∀ e ∈ es, d (write e.2) = .ok e.2) :
    Decode.members d (es.map fun e => (e.1, write e.2)) = .ok es := by
  induction es with
  | nil => rfl
  | cons e rest ih =>
    rw [List.forall_mem_cons] at h
    rw [List.map_cons, Decode.members, h.1, ih h.2]
    rfl

/-- A map proper is read back in its own order. -/
theorem entries_map {es : Entries α} (hdistinct : es.Distinct)
    (h : ∀ e ∈ es, d (write e.2) = .ok e.2) :
    Decode.entries d (.obj (es.map fun e => (e.1, write e.2))) = .ok es := by
  rw [Decode.entries, members_map h]
  exact congrArg Except.ok (Entries.ofList_of_distinct hdistinct)

theorem nullable_eq_some {j : Json} {a : α} (hne : j ≠ .null) (h : d j = .ok a) :
    Decode.nullable d j = .ok (some a) := by
  have hmap : (d j).map some = .ok (some a) := by
    rw [h]
    rfl
  cases j with
  | null => exact absurd rfl hne
  | bool | int | float | str | arr | obj => exact hmap

end Decode

/-! ## Records -/

namespace Record

/-- The record is read from the members of an object. -/
def Gives (r : Record α) (ms : List (String × Json)) (a : α) : Prop := r (.members ms) = .ok a

namespace Gives

variable {ms : List (String × Json)} {a : α}

theorem seq {f : Record (α → β)} {x : Record α} {g : α → β} (hf : f.Gives ms g)
    (hx : x.Gives ms a) : Record.Gives (f <*> x) ms (g a) := by
  show Record.seq f x (.members ms) = .ok (g a)
  rw [Record.seq, hf, hx]

theorem map {x : Record α} (hx : x.Gives ms a) (f : α → β) : Record.Gives (f <$> x) ms (f a) := by
  have hpure : Record.Gives (fun _ => .ok f) ms f := rfl
  exact hpure.seq hx

/-- A field with one value. -/
theorem field {missing : Option α} {number : Nat} {name : String} {d : Json → Decode α} {j : Json}
    (hvalues : Json.valuesOf name ms = [j]) (hread : d j = .ok a) :
    (Record.field missing number name d).Gives ms a := by
  rw [← Source.map_value_occurrencesFrom name 0 ms] at hvalues
  obtain ⟨o, ho, hvalue⟩ := List.map_eq_singleton_iff.1 hvalues
  have hoccurrences : Source.occurrences number name (.members ms) = [o] := ho
  rw [Gives, Record.field.eq_def, hoccurrences]
  simp only [hvalue, hread]

theorem string {missing : Option String} {number : Nat} {name s : String}
    (hvalues : Json.valuesOf name ms = [.str s]) :
    (Record.field missing number name Decode.string).Gives ms s := field hvalues rfl

theorem bool {missing : Option Bool} {number : Nat} {name : String} {b : Bool}
    (hvalues : Json.valuesOf name ms = [.bool b]) :
    (Record.field missing number name Decode.bool).Gives ms b := field hvalues rfl

/-- A field without a value. -/
theorem missing {number : Nat} {name : String} {d : Json → Decode α}
    (hvalues : Json.valuesOf name ms = []) : (Record.field (some a) number name d).Gives ms a := by
  rw [← Source.map_value_occurrencesFrom name 0 ms, List.map_eq_nil_iff] at hvalues
  have hoccurrences : Source.occurrences number name (.members ms) = [] := hvalues
  rw [Gives, Record.field.eq_def, hoccurrences]

/-- A field that is left out for its default. -/
theorem optional {number : Nat} {name : String} {otherwise : α} {d : Json → Decode α}
    {o : Option Json} (hvalues : Json.valuesOf name ms = o.toList)
    (hread : ∀ j, o = some j → d j = .ok a) (hmissing : o = none → a = otherwise) :
    (Record.optional number name otherwise d).Gives ms a := by
  cases o with
  | none =>
    rw [hmissing rfl]
    exact missing hvalues
  | some j => exact field hvalues (hread j rfl)

/-- A field for an optional value, left out where there is none. -/
theorem nullable {number : Nat} {name : String} {d : Json → Decode α} {write : α → Json}
    {o : Option α} (hvalues : Json.valuesOf name ms = (o.map write).toList)
    (hread : ∀ a, o = some a → write a ≠ .null ∧ d (write a) = .ok a) :
    (Record.optional number name none (Decode.nullable d)).Gives ms o := by
  refine optional hvalues ?_ ?_
  · intro j hj
    obtain ⟨a, rfl, rfl⟩ := Option.map_eq_some_iff.1 hj
    obtain ⟨hne, hok⟩ := hread a rfl
    exact Decode.nullable_eq_some hne hok
  · exact fun hnone => Option.map_eq_none_iff.1 hnone

/-- A field for a list, left out where the list is empty. -/
theorem list {number : Nat} {name : String} {d : Json → Decode α} {write : α → Json} {xs : List α}
    (hvalues : Json.valuesOf name ms = if xs.isEmpty then [] else [.arr (xs.map write)])
    (hread : ∀ x ∈ xs, d (write x) = .ok x) :
    (Record.optional number name [] (Decode.list d)).Gives ms xs := by
  cases xs with
  | nil => exact missing hvalues
  | cons x rest => exact field hvalues (Decode.list_map hread)

theorem atEnd {d : Source → Decode α} (h : d (.members ms) = .ok a) :
    (Record.atEnd d).Gives ms a := by
  rw [Gives, Record.atEnd, h]
  rfl

theorem readFrom {r : Record α} (h : r.Gives ms a) (fields : Nat) :
    r.readFrom fields (.members ms) = .ok a := by
  have h : r (.members ms) = .ok a := h
  rw [Record.readFrom.eq_def, h]

theorem read {r : Record α} (h : r.Gives ms a) (fields : Nat) : r.read fields (.obj ms) = .ok a :=
  h.readFrom fields

theorem readObject {r : Record α} (h : r.Gives ms a) : r.readObject (.obj ms) = .ok a :=
  h.readFrom 0

end Gives

/-- A record without a field that must be there is at fault as a whole. -/
theorem readObject_missing {ms : List (String × Json)} {f : Record (α → β)} {g : α → β}
    (hf : f.Gives ms g) {number : Nat} {name : String} {d : Json → Decode α}
    (hvalues : Json.valuesOf name ms = []) :
    Record.readObject (f <*> Record.required number name d) (.obj ms) = .error [] := by
  rw [← Source.map_value_occurrencesFrom name 0 ms, List.map_eq_nil_iff] at hvalues
  have hoccurrences : Source.occurrences number name (.members ms) = [] := hvalues
  -- a missing field is only noticed after the last member
  have hmissing : Record.required number name d (.members ms) = .error ⟨ms.length, []⟩ := by
    rw [Record.required, Record.field.eq_def, hoccurrences]
    rfl
  have hseq : Record.seq f (Record.required number name d) (.members ms) =
      .error ⟨ms.length, []⟩ := by
    rw [Record.seq, hf, hmissing]
  show Record.readFrom 0 (Record.seq f (Record.required number name d)) (.members ms) = .error []
  rw [Record.readFrom.eq_def, hseq]

end Record

/-- The tag of an object that has it once. -/
theorem Tag.split_members {names : List String} {tag name : String} (inside : Bool)
    {ms : List (String × Json)} (hvalues : Json.valuesOf tag ms = [.str name])
    (hname : name ∈ names) :
    Tag.split names tag inside (.members ms) = .ok (name, .members ms) := by
  rw [← Source.map_value_occurrencesFrom tag 0 ms] at hvalues
  obtain ⟨o, ho, hvalue⟩ := List.map_eq_singleton_iff.1 hvalues
  simp [Tag.split, ho, hvalue, Tag.ofJson?, hname]

/-! ## Depth -/

namespace Json

theorem depth_le_depthList {j : Json} {js : List Json} (h : j ∈ js) : j.depth ≤ depthList js := by
  induction js with
  | nil => exact absurd h List.not_mem_nil
  | cons first rest ih =>
    rw [depthList]
    rcases List.mem_cons.1 h with rfl | h
    · exact Nat.le_max_left _ _
    · exact Nat.le_trans (ih h) (Nat.le_max_right _ _)

theorem depth_le_depthMembers {m : String × Json} {ms : List (String × Json)} (h : m ∈ ms) :
    m.2.depth ≤ depthMembers ms := by
  induction ms with
  | nil => exact absurd h List.not_mem_nil
  | cons first rest ih =>
    obtain ⟨k, j⟩ := first
    rw [depthMembers]
    rcases List.mem_cons.1 h with rfl | h
    · exact Nat.le_max_left _ _
    · exact Nat.le_trans (ih h) (Nat.le_max_right _ _)

theorem depth_lt_of_mem_arr {j : Json} {js : List Json} (h : j ∈ js) :
    j.depth < (Json.arr js).depth := by
  have hle := depth_le_depthList h
  rw [depth]
  omega

theorem depth_lt_of_mem_obj {m : String × Json} {ms : List (String × Json)} (h : m ∈ ms) :
    m.2.depth < (Json.obj ms).depth := by
  have hle := depth_le_depthMembers h
  rw [depth]
  omega

theorem depth_pos (j : Json) : 0 < j.depth := by
  cases j with
  | arr | obj => exact Nat.succ_pos _
  | null | bool | int | float | str => exact Nat.one_pos

/-! ## Values without repeated names -/

/-- No object inside the value gives a name twice. -/
inductive Unrepeated : Json → Prop
  | null : Unrepeated .null
  | bool (b : Bool) : Unrepeated (.bool b)
  | int (n : Int) : Unrepeated (.int n)
  | float (x : Double) : Unrepeated (.float x)
  | str (s : String) : Unrepeated (.str s)
  | arr {js : List Json} : (∀ j ∈ js, Unrepeated j) → Unrepeated (.arr js)
  | obj {ms : List (String × Json)} : Entries.Distinct ms → (∀ m ∈ ms, Unrepeated m.2) →
      Unrepeated (.obj ms)

/-- A value without repeated names stands for itself. -/
theorem Unrepeated.settle_eq {j : Json} (h : j.Unrepeated) : j.settle = j := by
  induction h with
  | null | bool | int | float | str => rfl
  | @arr js _ ih =>
    rw [settle, settleList_eq_map, List.map_congr_left ih, List.map_id'']
    exact fun _ => rfl
  | @obj ms hdistinct _ ih =>
    have hsettled : (ms.map fun m => (m.1, m.2.settle)) = ms := by
      conv_rhs => rw [← List.map_id ms]
      apply List.map_congr_left
      intro m hm
      rw [ih m hm]
      rfl
    rw [settle, settleMembers_eq_map, hsettled, Entries.ofList_of_distinct hdistinct]

end Json

/-! ## Sorted sets -/

namespace SortedSet

variable {cmp : α → α → Ordering} [Std.TransCmp cmp]

theorem insertList_of_forall_lt {keep : Bool} {a : α} {xs : List α} (h : ∀ b ∈ xs, cmp b a = .lt) :
    insertList cmp keep a xs = xs ++ [a] := by
  induction xs with
  | nil => rfl
  | cons b rest ih =>
    rw [List.forall_mem_cons] at h
    have hgt : cmp a b = .gt := Std.OrientedCmp.gt_of_lt h.1
    rw [insertList, hgt, ih h.2]
    rfl

/-- Elements in order are added at the end. -/
theorem toList_foldl_insert {xs : List α} {s : SortedSet α cmp}
    (h : (s.toList ++ xs).Pairwise fun a b => cmp a b = .lt) :
    (xs.foldl insert s).toList = s.toList ++ xs := by
  induction xs generalizing s with
  | nil => simp
  | cons a rest ih =>
    have hlast : (s.insert a).toList = s.toList ++ [a] := by
      apply insertList_of_forall_lt
      intro b hb
      exact (List.pairwise_append.1 h).2.2 b hb a List.mem_cons_self
    rw [List.foldl_cons, ih, hlast, List.append_assoc]
    · rfl
    · rw [hlast, List.append_assoc]
      exact h

/-- The elements of a set make the set again. -/
theorem ofList_toList (s : SortedSet α cmp) : ofList s.toList = s := by
  obtain ⟨xs, hsorted⟩ := s
  have hlist : (ofList xs : SortedSet α cmp).toList = xs := toList_foldl_insert hsorted
  -- two sets with the same elements are the same, as the order is a proposition
  generalize (ofList xs : SortedSet α cmp) = t at hlist
  obtain ⟨ys, _⟩ := t
  cases hlist
  rfl

end SortedSet

end QueryTypes
