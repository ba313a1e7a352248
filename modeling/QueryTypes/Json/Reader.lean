import QueryTypes.Json.Number

/-!
# Reading JSON

A machine that reads a document one character at a time. Its state is what it waits for together
with the containers that are still open, innermost first, so that reading is recursion on the text
and nothing else. Containers nest at most 127 deep.

`readFirst?` answers the first value of a text and what follows it; `read?` wants nothing but blanks
after the value. Member names are kept as written, repetitions included: `Json.settle` merges them.
-/

set_option autoImplicit false

namespace QueryTypes.Json.Reader

/-- The least number of open containers that is too many. -/
def nestingBound : Nat := 128

/-- An open container with what was read of it, latest first. -/
inductive Frame where
  | arr (elems : List Json)
  | obj (members : List (String × Json)) (name : String)

/-- Where a number token stands in its grammar. -/
inductive Stage where
  | minus
  | zero
  | whole
  | point
  | fraction
  | mark
  | markSign
  | exponent
  deriving DecidableEq

/-- The digits of a number token read so far, latest first. -/
structure Token where
  stage : Stage
  negative : Bool := false
  whole : List Char := []
  fraction : List Char := []
  exponentNegative : Bool := false
  exponent : List Char := []

/-- Where a string stands between its quotes. -/
inductive Escape where
  /-- Outside an escape. -/
  | plain
  /-- After a backslash. -/
  | backslash
  /-- Inside the four digits of a code unit, after a leading surrogate or not. -/
  | unit (left value : Nat) (leading : Option Nat)
  /-- A leading surrogate wants a backslash. -/
  | wantBackslash (leading : Nat)
  /-- A leading surrogate wants the letter after the backslash. -/
  | wantUnit (leading : Nat)

/-- What the machine waits for. -/
inductive Mode where
  /-- A value; right after an opening bracket the closing one will do. -/
  | value (closable : Bool)
  /-- A member name; right after an opening brace the closing one will do. -/
  | name (closable : Bool) (members : List (String × Json))
  /-- The colon after a member name. -/
  | colon (members : List (String × Json)) (name : String)
  /-- A comma or the end of the innermost container. -/
  | next
  /-- More of a string: a member name of the given members, or a value. -/
  | string (members : Option (List (String × Json))) (text : List Char) (escape : Escape)
  /-- More of a number. -/
  | number (token : Token)
  /-- More letters of a word. -/
  | word (letters : List Char) (value : Json)
  /-- Nothing: the value is complete. -/
  | done (value : Json)

/-- The machine: what it waits for and the open containers. -/
structure State where
  mode : Mode
  stack : List Frame

/-! ## Completing values -/

/-- A value is complete: it is the document, or it goes into the innermost container. -/
def finish (value : Json) : List Frame → State
  | [] => ⟨.done value, []⟩
  | .arr elems :: stack => ⟨.next, .arr (value :: elems) :: stack⟩
  | .obj members name :: stack => ⟨.next, .obj ((name, value) :: members) name :: stack⟩

/-- A number token that may end where it stands. -/
def Token.complete (t : Token) : Bool :=
  t.stage == .zero || t.stage == .whole || t.stage == .fraction || t.stage == .exponent

/-- The value of a complete number token. -/
def Token.value (t : Token) : Option Json :=
  if t.fraction.isEmpty && t.exponent.isEmpty then readWhole t.negative t.whole.reverse
  else
    let n : Int := Numeral.digitsValue t.exponent.reverse
    let exponent := if t.exponentNegative then -n else n
    (readScaled t.negative t.whole.reverse t.fraction.reverse exponent).map .float

/-- A number token with one more character, if its grammar allows it. -/
def Token.extend (t : Token) (c : Char) : Option Token :=
  match t.stage with
  | .minus =>
    if c == '0' then some { t with stage := .zero, whole := [c] }
    else if c.isDigit then some { t with stage := .whole, whole := [c] }
    else none
  | .zero | .whole =>
    if c == '.' then some { t with stage := .point }
    else if c == 'e' || c == 'E' then some { t with stage := .mark }
    else if c.isDigit && t.stage == .whole then some { t with whole := c :: t.whole }
    else none
  | .point =>
    if c.isDigit then some { t with stage := .fraction, fraction := [c] } else none
  | .fraction =>
    if c.isDigit then some { t with fraction := c :: t.fraction }
    else if c == 'e' || c == 'E' then some { t with stage := .mark }
    else none
  | .mark =>
    if c == '+' then some { t with stage := .markSign }
    else if c == '-' then some { t with stage := .markSign, exponentNegative := true }
    else if c.isDigit then some { t with stage := .exponent, exponent := [c] }
    else none
  | .markSign =>
    if c.isDigit then some { t with stage := .exponent, exponent := [c] } else none
  | .exponent =>
    if c.isDigit then some { t with exponent := c :: t.exponent } else none

/-! ## One character -/

/-- The four characters that may stand between tokens. -/
def isSpace (c : Char) : Bool := c == ' ' || c == '\n' || c == '\t' || c == '\r'

/-- The value of a hexadecimal digit. -/
def hexDigit? (c : Char) : Option Nat :=
  if c.isDigit then some (c.toNat - '0'.toNat)
  else if 'a' ≤ c && c ≤ 'f' then some (c.toNat - 'a'.toNat + 10)
  else if 'A' ≤ c && c ≤ 'F' then some (c.toNat - 'A'.toNat + 10)
  else none

/-- The character of a one-letter escape. -/
def shortEscape? (c : Char) : Option Char :=
  if c == '"' || c == '\\' || c == '/' then some c
  else if c == 'n' then some '\n'
  else if c == 'r' then some '\r'
  else if c == 't' then some '\t'
  else if c == 'b' then some (Char.ofNat 0x8)
  else if c == 'f' then some (Char.ofNat 0xC)
  else none

/-- A complete code unit: a character, or a leading surrogate that wants its second half. -/
def closeUnit (text : List Char) (value : Nat) : Option Nat → Option (List Char × Escape)
  | some leading =>
    if 0xDC00 ≤ value && value ≤ 0xDFFF then
      some (Char.ofNat (0x10000 + (leading - 0xD800) * 0x400 + (value - 0xDC00)) :: text, .plain)
    else none
  | none =>
    if 0xD800 ≤ value && value ≤ 0xDBFF then some (text, .wantBackslash value)
    else if 0xDC00 ≤ value && value ≤ 0xDFFF then none
    else some (Char.ofNat value :: text, .plain)

/-- One more character inside an escape. -/
def stepEscape (text : List Char) (c : Char) : Escape → Option (List Char × Escape)
  | .plain => if c == '\\' then some (text, .backslash) else
      if c.toNat < 0x20 then none else some (c :: text, .plain)
  | .backslash =>
    if c == 'u' then some (text, .unit 4 0 none)
    else (shortEscape? c).map fun e => (e :: text, .plain)
  | .unit left value leading => do
    let d ← hexDigit? c
    if left ≤ 1 then closeUnit text (value * 16 + d) leading
    else some (text, .unit (left - 1) (value * 16 + d) leading)
  | .wantBackslash leading => if c == '\\' then some (text, .wantUnit leading) else none
  | .wantUnit leading => if c == 'u' then some (text, .unit 4 0 (some leading)) else none

/-- Open a container, if that is not one too many. -/
def openContainer (mode : Mode) (stack : List Frame) (frame : Option Frame) : Option State :=
  if stack.length + 1 < nestingBound then
    some ⟨mode, match frame with | some f => f :: stack | none => stack⟩
  else none

/-- The first character of a value. -/
def stepValue (closable : Bool) (stack : List Frame) (c : Char) : Option State :=
  if isSpace c then some ⟨.value closable, stack⟩
  else if c == '[' then openContainer (.value true) stack (some (.arr []))
  else if c == '\x7b' then openContainer (.name true []) stack none
  else if c == '"' then some ⟨.string none [] .plain, stack⟩
  else if c == '-' then some ⟨.number { stage := .minus, negative := true }, stack⟩
  else if c == '0' then some ⟨.number { stage := .zero, whole := [c] }, stack⟩
  else if c.isDigit then some ⟨.number { stage := .whole, whole := [c] }, stack⟩
  else if c == 't' then some ⟨.word ['r', 'u', 'e'] (.bool true), stack⟩
  else if c == 'f' then some ⟨.word ['a', 'l', 's', 'e'] (.bool false), stack⟩
  else if c == 'n' then some ⟨.word ['u', 'l', 'l'] .null, stack⟩
  else if c == ']' && closable then
    match stack with
    | .arr [] :: stack => some (finish (.arr []) stack)
    | _ => none
  else none

/-- One step of the machine; none when the character cannot stand here. -/
def step (s : State) (c : Char) : Option State :=
  match s.mode with
  | .value closable => stepValue closable s.stack c
  | .name closable members =>
    if isSpace c then some s
    else if c == '"' then some ⟨.string (some members) [] .plain, s.stack⟩
    else if c == '\x7d' && closable then some (finish (.obj []) s.stack)
    else none
  | .colon members name =>
    if isSpace c then some s
    else if c == ':' then some ⟨.value false, .obj members name :: s.stack⟩
    else none
  | .next =>
    if isSpace c then some s
    else match s.stack with
    | .arr elems :: stack =>
      if c == ',' then some ⟨.value false, s.stack⟩
      else if c == ']' then some (finish (.arr elems.reverse) stack)
      else none
    | .obj members _ :: stack =>
      if c == ',' then some ⟨.name false members, stack⟩
      else if c == '\x7d' then some (finish (.obj members.reverse) stack)
      else none
    | [] => none
  | .string members text escape =>
    match escape, c == '"' with
    | .plain, true =>
      let value := String.ofList text.reverse
      match members with
      | some members => some ⟨.colon members value, s.stack⟩
      | none => some (finish (.str value) s.stack)
    | _, _ =>
      (stepEscape text c escape).map fun (text, escape) => ⟨.string members text escape, s.stack⟩
  | .number token => (token.extend c).map fun token => ⟨.number token, s.stack⟩
  | .word letters value =>
    match letters with
    | [] => none
    | [l] => if l == c then some (finish value s.stack) else none
    | l :: rest => if l == c then some ⟨.word rest value, s.stack⟩ else none
  | .done _ => none

/-- A number token that may end before the coming character: no digit follows a leading zero. -/
def Token.endsBefore (t : Token) (coming : Option Char) : Bool :=
  t.complete && !(t.stage == .zero && coming.any Char.isDigit)

/-- End a number that the coming character does not extend; none when it may not end there. -/
def settleNumber (s : State) (coming : Option Char) : Option State :=
  match s.mode with
  | .number token =>
    match coming.bind token.extend with
    | some _ => some s
    | none =>
      if token.endsBefore coming then token.value.map fun v => finish v s.stack else none
  | _ => some s

/-! ## Whole texts -/

/-- Run the machine to the end of the first value; the rest of the text follows it. -/
def run (s : State) : List Char → Option (Json × List Char)
  | [] => do
    let s ← settleNumber s none
    match s.mode with
    | .done value => some (value, [])
    | _ => none
  | c :: rest => do
    let s ← settleNumber s (some c)
    match s.mode with
    | .done value => some (value, c :: rest)
    | _ => run (← step s c) rest

end Reader

/-- The first value of a text, and what follows it. -/
def readFirst? (text : String) : Option (Json × List Char) :=
  Reader.run ⟨.value false, []⟩ text.toList

/-- The value of a text that holds one value and blanks. -/
def read? (text : String) : Option Json := do
  let (value, rest) ← readFirst? text
  if rest.all Reader.isSpace then some value else none

end QueryTypes.Json
