/-!
# Sorted sets

A finite set over a comparison, kept as its strictly increasing list of elements. Two elements that
compare as equal may still differ (the two zeros do), so there are two ways to add one: `insert`
keeps the element that is already there, `replace` takes the new one. `ofList` lets the first of
equal elements win, `ofListLast` the last, and `union` the left set's.
-/

set_option autoImplicit false

namespace QueryTypes

/-- A set of elements in strictly increasing order. -/
structure SortedSet (α : Type) (cmp : α → α → Ordering) where
  toList : List α
  sorted : toList.Pairwise fun a b => cmp a b = .lt

namespace SortedSet

variable {α : Type} {cmp : α → α → Ordering}

/-- The empty set. -/
def empty : SortedSet α cmp := ⟨[], List.Pairwise.nil⟩

instance : Inhabited (SortedSet α cmp) := ⟨empty⟩

/-- No elements. -/
def isEmpty (s : SortedSet α cmp) : Bool := s.toList.isEmpty

/-- An element that compares as equal is in the set. -/
def contains (s : SortedSet α cmp) (a : α) : Bool := s.toList.any fun b => cmp a b == .eq

/-- Put an element into an increasing list; `keep` says whether an equal one already there stays. -/
def insertList (cmp : α → α → Ordering) (keep : Bool) (a : α) : List α → List α
  | [] => [a]
  | b :: rest =>
    match cmp a b with
    | .lt => a :: b :: rest
    | .eq => (if keep then b else a) :: rest
    | .gt => b :: insertList cmp keep a rest

/-- What is in the list after an insertion. -/
theorem mem_insertList {keep : Bool} {a x : α} {xs : List α}
    (h : x ∈ insertList cmp keep a xs) : x = a ∨ x ∈ xs := by
  induction xs with
  | nil => simpa [insertList] using h
  | cons b rest ih =>
    simp only [insertList] at h
    split at h
    · simpa using h
    · rcases List.mem_cons.1 h with rfl | h
      · cases keep <;> simp
      · simp [h]
    · rcases List.mem_cons.1 h with rfl | h
      · simp
      · rcases ih h with h | h <;> simp [h]

/-- Insertion keeps the order. -/
theorem pairwise_insertList [Std.TransCmp cmp] (keep : Bool) (a : α) (xs : List α)
    (h : xs.Pairwise fun x y => cmp x y = .lt) :
    (insertList cmp keep a xs).Pairwise fun x y => cmp x y = .lt := by
  induction xs with
  | nil => simp [insertList]
  | cons b rest ih =>
    obtain ⟨hb, hrest⟩ := List.pairwise_cons.1 h
    simp only [insertList]
    split
    · rename_i hab
      refine List.pairwise_cons.2 ⟨?_, h⟩
      intro y hy
      rcases List.mem_cons.1 hy with rfl | hy
      · exact hab
      · exact Std.TransCmp.lt_trans hab (hb y hy)
    · rename_i hab
      refine List.pairwise_cons.2 ⟨?_, hrest⟩
      intro y hy
      cases keep with
      | true => simpa using hb y hy
      | false => simpa using Std.TransCmp.lt_of_eq_of_lt hab (hb y hy)
    · rename_i hab
      refine List.pairwise_cons.2 ⟨?_, ih hrest⟩
      intro y hy
      rcases mem_insertList hy with rfl | hy
      · exact Std.OrientedCmp.lt_of_gt hab
      · exact hb y hy

variable [Std.TransCmp cmp]

/-- Add an element, unless an equal one is there. -/
def insert (s : SortedSet α cmp) (a : α) : SortedSet α cmp :=
  ⟨insertList cmp true a s.toList, pairwise_insertList true a _ s.sorted⟩

/-- Add an element in place of an equal one. -/
def replace (s : SortedSet α cmp) (a : α) : SortedSet α cmp :=
  ⟨insertList cmp false a s.toList, pairwise_insertList false a _ s.sorted⟩

/-- The set of a list's elements, the first of equal ones winning. -/
def ofList (xs : List α) : SortedSet α cmp := xs.foldl insert empty

/-- The set of a list's elements, the last of equal ones winning. -/
def ofListLast (xs : List α) : SortedSet α cmp := xs.foldl replace empty

/-- The elements of both sets, the left set's winning over equal ones. -/
def union (s t : SortedSet α cmp) : SortedSet α cmp := t.toList.foldl insert s

end SortedSet

/-- A set of names, in code point order. -/
abbrev NameSet := SortedSet String compare

end QueryTypes
