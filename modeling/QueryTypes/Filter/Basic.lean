import QueryTypes.Json.Printer
import QueryTypes.Json.Reader

/-!
# Filters

A filter turns a document into any number of documents. Filters are composed by pipes, which feed
every output of the first into the second, and by commas, which give the outputs of both.
-/

set_option autoImplicit false

namespace QueryTypes

/-- A filter. -/
inductive Filter where
  /-- The input itself. -/
  | identity
  /-- What an array or an object has under a key. -/
  | entry (key : Json)
  /-- All elements of an array or members of an object. -/
  | iterate
  /-- A constant. -/
  | constant (value : Json)
  /-- An array of all outputs. -/
  | collect (f : Filter)
  /-- An object for every choice of a key and a value for each entry. -/
  | construct (entries : List (Filter × Filter))
  /-- Every output of the first filter through the second. -/
  | pipe (f g : Filter)
  /-- The outputs of both filters. -/
  | both (f g : Filter)
  /-- No output. -/
  | empty
  /-- The size of the input. -/
  | length

namespace Filter

/-! ## Single steps -/

/-- An element by its position, counted from the end if it is negative; null if there is none. -/
def elementAt (xs : List Json) (n : Int) : Json :=
  let i := if n < 0 then n + xs.length else n
  if i < 0 then .null else xs[i.toNat]?.getD .null

/-- What is under a key: an element of an array by an integer of 64 bits, a member of an object by a
string; null if there is none. Nothing else has entries. -/
def entryOf : Json → Json → Option Json
  | .int n, .arr xs => if Numeral.fitsInt64 n then some (elementAt xs n) else none
  | .str name, .obj ms => some ((Entries.get? ms name).getD .null)
  | _, _ => none

/-- The elements of an array or the values of an object. -/
def partsOf : Json → Option (List Json)
  | .arr xs => some xs
  | .obj ms => some (Entries.values ms)
  | _ => none

/-- The size of a value: how many elements, members or characters it has, the amount of a number. -/
def sizeOf? : Json → Option Json
  | .null => some (.int 0)
  | .int n => some (if Numeral.fitsInt64 n then .int n.natAbs else .float (.ofNat n.natAbs))
  | .float x => some (.float (if x.isNegative then x.neg else x))
  | .str s => some (.nat s.length)
  | .arr xs => some (.nat xs.length)
  | .obj ms => some (.nat ms.length)
  | .bool _ => none

/-- The object with one more member, if the key is a string. -/
def withMember (j key value : Json) : Option Json :=
  match j, key with
  | .obj ms, .str name => some (.obj (Entries.put ms name value))
  | _, _ => none

/-! ## Running -/

/-- The outputs of a step on every input, if it succeeds on all of them. -/
def onEach (f : Json → Option (List Json)) (inputs : List Json) : Option (List Json) :=
  (inputs.mapM f).map List.flatten

mutual

/-- The outputs of a filter, if it does not fail. -/
def outputs : Filter → Json → Option (List Json)
  | .identity, j => some [j]
  | .entry key, j => (entryOf key j).map fun x => [x]
  | .iterate, j => partsOf j
  | .constant value, _ => some [value]
  | .collect f, j => (outputs f j).map fun xs => [.arr xs]
  | .construct entries, j => construct? entries j [.obj []]
  | .pipe f g, j => (outputs f j).bind (onEach (outputs g))
  | .both f g, j => do
    let xs ← outputs f j
    let ys ← outputs g j
    return xs ++ ys
  | .empty, _ => some []
  | .length, j => (sizeOf? j).map fun x => [x]

/-- Objects extended by every choice of a key and a value for each entry. -/
def construct? : List (Filter × Filter) → Json → List Json → Option (List Json)
  | [], _, objects => some objects
  | (key, value) :: rest, j, objects => do
    let objects ← onEach (fun o => (outputs key j).bind (onEach fun k =>
      (outputs value j).bind fun values => values.mapM (withMember o k))) objects
    construct? rest j objects

end

/-- A member of an object. -/
def field (name : String) : Filter := .entry (.str name)

/-- All elements of an array or members of an object, each through a filter. -/
def map (f : Filter) : Filter := .collect (.pipe .iterate f)

/-- The outputs of a filter on a document, as they are read back from their text. -/
def run? (f : Filter) (input : Json) : Option (List Json) := do
  let xs ← f.outputs input
  xs.mapM fun x => Json.read? x.render

end Filter

end QueryTypes
