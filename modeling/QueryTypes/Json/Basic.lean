import QueryTypes.Entries
import QueryTypes.Number.Double

/-!
# JSON documents

A JSON value whose objects keep the order of their members. A number is an integer of at most 64
bits or a double; which of the two a token is shows in documents, so it belongs to the value.

The text of a document may repeat a member name. `Json.settle` gives the value that such a text
stands for: the last value of a name, at the place of its first occurrence.
-/

set_option autoImplicit false

namespace QueryTypes

/-- A JSON value; members in order. -/
inductive Json where
  | null
  | bool (b : Bool)
  | int (n : Int)
  | float (x : Double)
  | str (s : String)
  | arr (elems : List Json)
  | obj (members : List (String × Json))

namespace Json

instance : Inhabited Json := ⟨.null⟩

/-- A double as a value: one that is not finite has no JSON form and is null. -/
def ofDouble (x : Double) : Json := if x.isFinite then .float x else .null

/-- An optional value, null when absent. -/
def ofOption {α : Type} (f : α → Json) : Option α → Json
  | none => .null
  | some a => f a

/-- A list of strings. -/
def strings (xs : List String) : Json := .arr (xs.map .str)

/-- A natural number. -/
def nat (n : Nat) : Json := .int n

/-! ## Members -/

/-- The value of a member of an object. -/
def get? : Json → String → Option Json
  | .obj members, name => Entries.get? members name
  | _, _ => none

/-- A member that is written when there is a value for it. -/
def memberOption {α : Type} (name : String) (write : α → Json) : Option α → List (String × Json)
  | none => []
  | some value => [(name, write value)]

/-- A member with a list that is written when the list is not empty. -/
def memberList {α : Type} (name : String) (write : α → Json) (values : List α) :
    List (String × Json) :=
  if values.isEmpty then [] else [(name, .arr (values.map write))]

/-! ## Depth -/

mutual

/-- The number of values on the longest way into a document. -/
def depth : Json → Nat
  | .arr elems => depthList elems + 1
  | .obj members => depthMembers members + 1
  | _ => 1

/-- The greatest depth of elements. -/
def depthList : List Json → Nat
  | [] => 0
  | j :: rest => max j.depth (depthList rest)

/-- The greatest depth of members. -/
def depthMembers : List (String × Json) → Nat
  | [] => 0
  | (_, j) :: rest => max j.depth (depthMembers rest)

end

/-! ## Repeated member names -/

mutual

/-- The value with every repeated member name settled: the last value, at the first place. -/
def settle : Json → Json
  | .arr elems => .arr (settleList elems)
  | .obj members => .obj (Entries.ofList (settleMembers members))
  | .null => .null
  | .bool b => .bool b
  | .int n => .int n
  | .float x => .float x
  | .str s => .str s

/-- The elements of an array, settled. -/
def settleList : List Json → List Json
  | [] => []
  | j :: rest => j.settle :: settleList rest

/-- The members of an object with their values settled. -/
def settleMembers : List (String × Json) → List (String × Json)
  | [] => []
  | (k, j) :: rest => (k, j.settle) :: settleMembers rest

end

@[simp] theorem settleList_eq_map (js : List Json) : settleList js = js.map settle := by
  induction js with
  | nil => rfl
  | cons j rest ih => simp [settleList, ih]

@[simp] theorem settleMembers_eq_map (ms : List (String × Json)) :
    settleMembers ms = ms.map fun (k, j) => (k, j.settle) := by
  induction ms with
  | nil => rfl
  | cons m rest ih => obtain ⟨k, j⟩ := m; simp [settleMembers, ih]

end Json

end QueryTypes
