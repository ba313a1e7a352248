import QueryTypes.Rules.Token
import QueryTypes.Inference.Basic

/-!
# Types of fields

The type of a field from its rules. The rules are read in order into slots: the first rule that
determines a type is kept, of inclusions, enumerations, bounds and patterns the last; `nullable`,
`required` and `confirmed` only have to occur.
-/

set_option autoImplicit false

namespace QueryTypes.Rules

/-! ## Narrowing -/

/-- A literal as a number, if its text is one. -/
def numberOf : Literal → Literal
  | .str s =>
    let text := Text.trim s
    match Numeral.readInt64? text with
    | some n => .int n
    | none =>
      match Numeral.readDouble? text with
      | some x => if x.isFinite then .float x else .str s
      | none => .str s
  | l => l

/-- A numeric literal as a double. -/
def doubleOf : Literal → Literal
  | .int n => .float (.ofInt n.toInt)
  | l => l

/-- The type of the literals: strings, integers, or numbers of both kinds; unknown for any other
mixture. -/
def typeOfLiterals (literals : List Literal) : Ty :=
  if literals.all fun l => l.kind == .string then .literalSet .string literals
  else if literals.all fun l => l.kind == .integer then .literalSet .integer literals
  else if literals.all fun l => l.kind.isNumeric then .literalSet .float (literals.map doubleOf)
  else .unknown

/-- The literals of a type with format, bounds and pattern of a type of the same kind. -/
def keepRestrictions (base narrowed : Ty) : Ty :=
  match base.kind, narrowed.kind with
  | .scalar s, .scalar t =>
    if s.kind = t.kind then .mk (.scalar { s with literals := t.literals }) base.slot
    else .mk narrowed.kind base.slot
  | _, _ => .mk narrowed.kind base.slot

/-- The type is a number. -/
def isNumeric (t : Ty) : Bool :=
  match t.scalarKind? with
  | some kind => kind.isNumeric
  | none => false

/-- A type narrowed to literals. Only strings, numbers and unknown types narrow; a number reads the
literals as numbers. -/
def narrow (base : Ty) (literals : List Literal) : Ty :=
  let narrows := base.isUnknown || isNumeric base || base.scalarKind? == some .string
  if !narrows || literals.isEmpty then base
  else
    keepRestrictions base
      (typeOfLiterals (if isNumeric base then literals.map numberOf else literals))

/-! ## Slots -/

/-- The rules of a field. -/
structure RuleSet where
  tokens : List RuleToken
  /-- A type that stands above the rules. -/
  declared : Option Ty := none
  description : Option String := none
  examples : List String := []

/-- What the rules of a field say. -/
structure Facts where
  base : Option Ty := none
  inclusion : Option (List Literal) := none
  enumeration : Option Ty := none
  minimum : Option Double := none
  maximum : Option Double := none
  pattern : Option String := none
  nullable : Bool := false
  required : Bool := false
  confirmed : Bool := false

namespace Facts

/-- Keep the first type. -/
def withBase (f : Facts) (t : Option Ty) : Facts := { f with base := f.base.or t }

/-- Take a bound, if it is a number. -/
def withMinimum (f : Facts) (x : Option Double) : Facts := { f with minimum := x.or f.minimum }

/-- Take a bound, if it is a number. -/
def withMaximum (f : Facts) (x : Option Double) : Facts := { f with maximum := x.or f.maximum }

/-- What is known after a named rule. -/
def named (f : Facts) (r : NamedRule) : Facts :=
  match r.name with
  | "nullable" => { f with nullable := true }
  | "required" => { f with required := true }
  | "confirmed" => { f with confirmed := true }
  | "min" | "gte" => f.withMinimum (r.number 0)
  | "max" | "lte" => f.withMaximum (r.number 0)
  | "between" => (f.withMinimum (r.number 0)).withMaximum (r.number 1)
  | "size" => (f.withMinimum (r.number 0)).withMaximum (r.number 0)
  | "digits" =>
    ((f.withMinimum ((r.number 0).map smallestWithDigits)).withMaximum
      ((r.number 0).map largestWithDigits)).withBase (baseType? r.name)
  | "digits_between" =>
    ((f.withMinimum ((r.number 0).map smallestWithDigits)).withMaximum
      ((r.number 1).map largestWithDigits)).withBase (baseType? r.name)
  | "in" => { f with inclusion := some (r.params.map .str) }
  | "regex" => { f with pattern := some (stripDelimiters r.raw) }
  | name => f.withBase (baseType? name)

/-- What is known after a rule object of the field with the given key. -/
def object (cx : Context) (key : String) (f : Facts) (o : RuleObject) : Infer Facts :=
  match o.class_ with
  | .inclusion =>
    match o.literals? with
    | some literals => return { f with inclusion := some literals }
    | none => do
      note none (.inclusionWithoutValues key)
      return f
  | .enumeration name =>
    match cx.catalog.enumeration name with
    | .ok e => return { f with enumeration := some (.literalSet e.backing e.values) }
    | .error source =>
      if cx.config.strict then throw (.catalog name source)
      else do
        note (some name) (.enumUnavailable key source)
        return f
  | c => return f.withBase c.baseType?

/-- What is known after a token. -/
def token (cx : Context) (key : String) (f : Facts) : RuleToken → Infer Facts
  | .text s => return (splitRules s).foldl named f
  | .object o => f.object cx key o

/-- The scalar with the bounds and the pattern that apply to its kind. -/
def restrict (f : Facts) (s : Scalar) : Scalar :=
  if s.kind.isNumeric then
    { s with minimum := f.minimum.or s.minimum, maximum := f.maximum.or s.maximum }
  else if s.kind = .string then { s with pattern := f.pattern.or s.pattern }
  else s

/-- The type before it is made nullable. -/
def plainType (cx : Context) (f : Facts) : Ty :=
  let base := f.base.getD (.scalar cx.config.defaultRuleKind)
  let narrowed := match f.inclusion with
    | some literals => narrow base literals
    | none => base
  let t := f.enumeration.getD narrowed
  match t.kind with
  | .scalar s => t.withKind (.scalar (f.restrict s))
  | _ => t

/-- The type that the rules give. -/
def type (cx : Context) (f : Facts) : Ty :=
  if f.nullable then (f.plainType cx).nullable else f.plainType cx

end Facts

/-! ## The type of a field -/

/-- The type of a field, and whether it has to be confirmed. -/
def leafType (cx : Context) (key : String) (rules : RuleSet) : Infer (Ty × Bool) := do
  let facts ← rules.tokens.foldlM (Facts.token cx key) {}
  let t := (rules.declared.getD (facts.type cx)).withRequired facts.required
  let t := if rules.description.isSome then t.withDescription rules.description else t
  let t := if rules.examples.isEmpty then t else t.withExamples rules.examples
  return (t, facts.confirmed)

end QueryTypes.Rules
