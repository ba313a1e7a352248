import QueryTypes.Json.Basic
import QueryTypes.Number.Numeral

/-!
# Reading documents

A reader takes a document apart and answers a value or the path of the first fault. Members of an
object are read in the order of the document, so of several faults the one at the first member
counts; a member that is missing is noticed at the end, as a fault of the whole object.

`Record` describes what is read from the members of an object, one field after the other. The same
description reads an array that lists the fields in order.
-/

set_option autoImplicit false

namespace QueryTypes

/-! ## Paths -/

/-- A step into a document. -/
inductive PathStep where
  | key (name : String)
  | index (i : Nat)
  deriving DecidableEq

/-- A way into a document. -/
abbrev DocPath := List PathStep

/-- The text of a step; a key is set off from what stands before it by a dot. -/
def PathStep.render (first : Bool) : PathStep → String
  | .key name => if first then name else "." ++ name
  | .index i => "[" ++ toString i ++ "]"

/-- The text of a path, a dot for the document itself. -/
def DocPath.render : DocPath → String
  | [] => "."
  | step :: rest => step.render true ++ String.join (rest.map (PathStep.render false))

/-! ## Readers -/

/-- What is read from a document, or the path of the first fault. -/
abbrev Decode := Except DocPath

namespace Decode

variable {α β : Type}

/-- The document itself is at fault. -/
def fault : Decode α := .error []

/-- A result, if there is one. -/
def ofOption : Option α → Decode α
  | some a => .ok a
  | none => fault

/-- Read a part; a fault in it lies under the step that leads there. -/
def under (step : PathStep) (d : Decode α) : Decode α := d.mapError (step :: ·)

/-- Read as a whole: a fault anywhere inside is a fault of the document itself. -/
def whole (d : Decode α) : Decode α := d.mapError fun _ => []

/-- The first of two readings that succeeds. -/
def orElse (d e : Decode α) : Decode α :=
  match d with
  | .ok a => .ok a
  | .error _ => e

/-- A string. -/
def string : Json → Decode String
  | .str s => .ok s
  | _ => fault

/-- A truth value. -/
def bool : Json → Decode Bool
  | .bool b => .ok b
  | _ => fault

/-- A natural number of 64 bits. -/
def nat64 : Json → Decode Nat
  | .int n => if 0 ≤ n ∧ n < Numeral.natBound then .ok n.toNat else fault
  | _ => fault

/-- A number as a double. -/
def double : Json → Decode Double
  | .int n => .ok (.ofInt n)
  | .float x => .ok x
  | _ => fault

/-- Null, or what is read otherwise. -/
def nullable (d : Json → Decode α) : Json → Decode (Option α)
  | .null => .ok none
  | j => (d j).map some

/-- The elements of a list, counted from a first one on. -/
def elementsFrom (d : Json → Decode α) : Nat → List Json → Decode (List α)
  | _, [] => .ok []
  | i, j :: rest => do
    let a ← (d j).under (.index i)
    let others ← elementsFrom d (i + 1) rest
    return a :: others

/-- A list. -/
def list (d : Json → Decode α) : Json → Decode (List α)
  | .arr elems => elementsFrom d 0 elems
  | _ => fault

/-- The members of an object, one after the other. -/
def members (d : Json → Decode α) : List (String × Json) → Decode (List (String × α))
  | [] => .ok []
  | (name, j) :: rest => do
    let a ← (d j).under (.key name)
    let others ← members d rest
    return (name, a) :: others

/-- An object as a map. -/
def entries (d : Json → Decode α) : Json → Decode (Entries α)
  | .obj ms => (members d ms).map Entries.ofList
  | _ => fault

/-- One of several names, also written as the only member of an object with the value null; inside a
larger whole an empty object stands for null too. -/
def oneOf (ofName? : String → Option α) (inside : Bool) : Json → Decode α
  | .str s => ofOption (ofName? s)
  | .obj [(name, j)] =>
    match ofName? name, j with
    | some a, .null => .ok a
    | some a, .obj [] => if inside then .ok a else .error [.key name]
    | some _, _ => .error [.key name]
    | none, _ => fault
  | _ => fault

end Decode

/-! ## Records -/

/-- Where the fields of a record are: in the members of an object, or in order in an array. -/
inductive Source where
  | members (ms : List (String × Json))
  | elements (es : List Json)

/-- A fault with its place among the members. -/
structure Fault where
  place : Nat
  path : DocPath

/-- A value of a field with its place and the step that leads to it. -/
structure Occurrence where
  place : Nat
  step : PathStep
  value : Json

namespace Source

/-- The number of members or elements. -/
def size : Source → Nat
  | .members ms => ms.length
  | .elements es => es.length

/-- The members with a name, with places counted from a first one on. -/
def occurrencesFrom (name : String) : Nat → List (String × Json) → List Occurrence
  | _, [] => []
  | i, (k, j) :: rest =>
    if k = name then ⟨i, .key k, j⟩ :: occurrencesFrom name (i + 1) rest
    else occurrencesFrom name (i + 1) rest

/-- The values of a field: by its name in an object, by its number in an array. -/
def occurrences (number : Nat) (name : String) : Source → List Occurrence
  | .members ms => occurrencesFrom name 0 ms
  | .elements es =>
    match es[number]? with
    | some j => [⟨number, .index number, j⟩]
    | none => []

end Source

/-- What is read from the fields of a record. -/
def Record (α : Type) := Source → Except Fault α

namespace Record

variable {α β : Type}

/-- Of two faults, the one at the earlier place. -/
def earlier (f g : Fault) : Fault := if g.place < f.place then g else f

/-- Read two parts of the same record. -/
def seq (f : Record (α → β)) (x : Record α) : Record β := fun s =>
  match f s, x s with
  | .ok g, .ok a => .ok (g a)
  | .ok _, .error e => .error e
  | .error e, .ok _ => .error e
  | .error e, .error e' => .error (earlier e e')

instance : Applicative Record where
  pure a := fun _ => .ok a
  seq f x := Record.seq f (x ())

/-- Read what has one value; the answer for none is given. A second value is a fault of the record,
unless the first is a fault already. -/
def field (missing : Option α) (number : Nat) (name : String) (d : Json → Decode α) : Record α :=
  fun s =>
    match s.occurrences number name with
    | [] =>
      match missing with
      | some a => .ok a
      | none => .error ⟨s.size, []⟩
    | first :: more =>
      match d first.value with
      | .error path => .error ⟨first.place, first.step :: path⟩
      | .ok a =>
        match more with
        | [] => .ok a
        | second :: _ => .error ⟨second.place, []⟩

/-- A field that must be there. -/
def required (number : Nat) (name : String) (d : Json → Decode α) : Record α :=
  field none number name d

/-- A field with a value for when it is not there. -/
def optional (number : Nat) (name : String) (otherwise : α) (d : Json → Decode α) : Record α :=
  field (some otherwise) number name d

/-- Read the record as a whole once its fields are read. -/
def atEnd (d : Source → Decode α) : Record α := fun s => (d s).mapError fun _ => ⟨s.size, []⟩

/-- Read a record; an array may have no more elements than there are fields. -/
def readFrom (fields : Nat) (r : Record α) (s : Source) : Decode α :=
  match r s, s with
  | .error f, _ => .error f.path
  | .ok a, .members _ => .ok a
  | .ok a, .elements es => if es.length ≤ fields then .ok a else .error []

/-- Read a record from an object or an array. -/
def read (fields : Nat) (r : Record α) : Json → Decode α
  | .obj ms => r.readFrom fields (.members ms)
  | .arr es => r.readFrom fields (.elements es)
  | _ => Decode.fault

/-- Read a record from an object only. -/
def readObject (r : Record α) : Json → Decode α
  | .obj ms => r.readFrom 0 (.members ms)
  | _ => Decode.fault

end Record

/-! ## Tags -/

namespace Tag

/-- The name that a tag gives; inside a larger whole also the number of a name. -/
def ofJson? (names : List String) (inside : Bool) : Json → Option String
  | .str s => if s ∈ names then some s else none
  | .int n => if inside && 0 ≤ n then names[n.toNat]? else none
  | _ => none

/-- The name under a tag, and the source of the fields beside it. In an array the tag comes
first. -/
def split (names : List String) (tag : String) (inside : Bool) (s : Source) :
    Decode (String × Source) :=
  match s with
  | .members ms =>
    match Source.occurrencesFrom tag 0 ms with
    | [] => Decode.fault
    | first :: more =>
      match ofJson? names inside first.value with
      | none => .error [.key tag]
      | some name => if more.isEmpty then .ok (name, s) else Decode.fault
  | .elements [] => Decode.fault
  | .elements (first :: rest) =>
    match ofJson? names inside first with
    | none => .error [.index 0]
    | some name => .ok (name, .elements rest)

end Tag

end QueryTypes
