/-!
# Ordered entries

A map from names to values that remembers the order in which its names were first given: a list of
pairs. `put` replaces the value of a known name where it stands and appends a new name at the end.
Documents, shapes, object properties and catalogs all keep their members this way, because their
order shows.

A map proper has distinct keys (`Distinct`); `put` keeps them so, and `ofList` makes them so.
-/

set_option autoImplicit false

namespace QueryTypes

/-- Named values in order. -/
abbrev Entries (α : Type) := List (String × α)

namespace Entries

variable {α : Type}

/-- The names, in order. -/
def keys (es : Entries α) : List String := es.map Prod.fst

/-- The values, in order. -/
def values (es : Entries α) : List α := es.map Prod.snd

/-- The value of a name. -/
def get? : Entries α → String → Option α
  | [], _ => none
  | (k, v) :: rest, name => if k = name then some v else get? rest name

/-- Set the value of a name: in place when it is known, at the end otherwise. -/
def put : Entries α → String → α → Entries α
  | [], name, value => [(name, value)]
  | (k, v) :: rest, name, value =>
    if k = name then (k, value) :: rest else (k, v) :: put rest name value

/-- The map that a list of pairs describes when they are put one after the other. -/
def ofList (pairs : List (String × α)) : Entries α :=
  pairs.foldl (fun es (k, v) => es.put k v) []

/-- No name occurs twice. -/
def Distinct (es : Entries α) : Prop := es.keys.Nodup

/-! ## Reading after writing -/

@[simp] theorem get?_nil (name : String) : get? ([] : Entries α) name = none := rfl

theorem get?_cons (k : String) (v : α) (rest : Entries α) (name : String) :
    get? ((k, v) :: rest) name = if k = name then some v else get? rest name := rfl

/-- A name has the value it was given last. -/
@[simp] theorem get?_put_self (es : Entries α) (name : String) (value : α) :
    get? (put es name value) name = some value := by
  induction es with
  | nil => simp [put, get?]
  | cons e rest ih =>
    obtain ⟨k, v⟩ := e
    by_cases h : k = name <;> simp [put, get?, h, ih]

/-- The other names keep their values. -/
theorem get?_put_of_ne (es : Entries α) {name other : String} (value : α) (h : name ≠ other) :
    get? (put es name value) other = get? es other := by
  induction es with
  | nil => simp [put, get?, h]
  | cons e rest ih =>
    obtain ⟨k, v⟩ := e
    by_cases hk : k = name
    · simp [put, get?, hk, h]
    · simp only [put, hk, if_false, get?_cons, ih]

/-- Giving a value to a known name keeps the names; a new name comes last. -/
theorem keys_put (es : Entries α) (name : String) (value : α) :
    keys (put es name value) = if name ∈ keys es then keys es else keys es ++ [name] := by
  induction es with
  | nil => simp [put, keys]
  | cons e rest ih =>
    obtain ⟨k, v⟩ := e
    by_cases hk : k = name
    · subst hk; simp [put, keys]
    · have hn : name ≠ k := fun e => hk e.symm
      simp only [put, hk, if_false]
      simp only [keys, List.map_cons, List.mem_cons, hn, false_or] at ih ⊢
      by_cases hmem : name ∈ rest.map Prod.fst <;> simp [hmem, ih]

/-- A name has a value exactly when it is among the keys. -/
theorem isSome_get?_iff (es : Entries α) (name : String) :
    (get? es name).isSome = true ↔ name ∈ keys es := by
  induction es with
  | nil => simp [keys]
  | cons e rest ih =>
    obtain ⟨k, v⟩ := e
    by_cases hk : k = name
    · subst hk; simp [get?, keys]
    · have hn : name ≠ k := fun e => hk e.symm
      simp only [get?, hk, if_false, ih, keys, List.map_cons, List.mem_cons, hn, false_or]

/-- Putting a value keeps the names distinct. -/
theorem Distinct.put {es : Entries α} (h : es.Distinct) (name : String) (value : α) :
    (es.put name value).Distinct := by
  unfold Distinct at *
  rw [keys_put]
  split
  · exact h
  · rename_i hn
    refine List.nodup_append.2 ⟨h, by simp, ?_⟩
    rintro a ha b hb rfl
    simp only [List.mem_singleton] at hb
    exact hn (hb ▸ ha)

/-- What a list of pairs describes is a map proper. -/
theorem distinct_ofList (pairs : List (String × α)) : (ofList pairs).Distinct := by
  have key : ∀ (pairs : List (String × α)) (es : Entries α), es.Distinct →
      (pairs.foldl (fun es (k, v) => Entries.put es k v) es).Distinct := by
    intro pairs
    induction pairs with
    | nil => intro es h; exact h
    | cons p rest ih => intro es h; exact ih _ (h.put p.1 p.2)
  exact key pairs [] (by simp [Distinct, keys])

end Entries

end QueryTypes
