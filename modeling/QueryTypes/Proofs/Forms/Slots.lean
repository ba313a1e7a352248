import QueryTypes.Proofs.Forms.Leaves

/-!
# What a field owes to its rules

The rules of a field are read one after the other, strings and objects in any mixture. What is left
of them are nine slots (`slots`): the first type, the last inclusion, the last known enumeration,
the last lower and the last upper bound, the last pattern, and whether `nullable`, `required` and
`confirmed` occur. The type of the field depends on nothing else (`leafType_slots`).

Each rule is asked for each slot on its own (`Rule.base?` to `Rule.isNamed`). One rule changes what
is known slot by slot (`Facts.named_eq`, `runFrom_object`), and so do all of them (`foldl_update`).
-/

set_option autoImplicit false

namespace QueryTypes.Rules

/-- A rule of a field: one of the named rules of a string, or an object. -/
inductive Rule where
  | named (r : NamedRule)
  | object (o : RuleObject)

/-- The rules of a token, in order. -/
def RuleToken.rules : RuleToken → List Rule
  | .text s => (splitRules s).map .named
  | .object o => [.object o]

/-- The rules of tokens, in order. -/
def rulesOf (tokens : List RuleToken) : List Rule := tokens.flatMap RuleToken.rules

/-! ## Slots -/

namespace Rule

/-- The type that the rule determines. -/
def base? : Rule → Option Ty
  | .named r => baseType? r.name
  | .object o => o.class_.baseType?

/-- The literals to which the rule restricts. -/
def inclusion? : Rule → Option (List Literal)
  | .named r => if r.name = "in" then some (r.params.map .str) else none
  | .object o => if o.class_ = .inclusion then o.literals? else none

/-- The values of the enumeration that the rule names, if the catalog knows it. -/
def enumeration? (catalog : Catalog) : Rule → Option Ty
  | .object ⟨.enumeration name, _⟩ =>
    (catalog.enumeration name).toOption.map fun e => .literalSet e.backing e.values
  | _ => none

/-- The lower bound that the rule gives by a number. -/
def minimum? : Rule → Option Double
  | .named r =>
    if r.name ∈ ["min", "gte", "between", "size"] then r.number 0
    else if r.name ∈ ["digits", "digits_between"] then (r.number 0).map smallestWithDigits
    else none
  | .object _ => none

/-- The upper bound that the rule gives by a number. -/
def maximum? : Rule → Option Double
  | .named r =>
    if r.name ∈ ["max", "lte", "size"] then r.number 0
    else if r.name = "between" then r.number 1
    else if r.name = "digits" then (r.number 0).map largestWithDigits
    else if r.name = "digits_between" then (r.number 1).map largestWithDigits
    else none
  | .object _ => none

/-- The pattern that the rule gives. -/
def pattern? : Rule → Option String
  | .named r => if r.name = "regex" then some (stripDelimiters r.raw) else none
  | .object _ => none

/-- The rule has the name. -/
def isNamed (name : String) : Rule → Bool
  | .named r => r.name == name
  | .object _ => false

/-- Why the rule cannot be read: under a strict policy, an enumeration that the catalog does not
know. -/
def failure? (cx : Context) : Rule → Option InferError
  | .object ⟨.enumeration name, _⟩ =>
    match cx.catalog.enumeration name with
    | .error source => if cx.config.strict then some (.catalog name source) else none
    | .ok _ => none
  | _ => none

end Rule

/-- The last answer of the rules. -/
def lastOf {α : Type} (answer? : Rule → Option α) (rules : List Rule) : Option α :=
  (rules.filterMap answer?).getLast?

/-- What rules leave: the first type, the last of everything else that a rule may give, and which of
the plain rules occur. -/
def slots (catalog : Catalog) (rules : List Rule) : Facts where
  base := rules.findSome? Rule.base?
  inclusion := lastOf Rule.inclusion? rules
  enumeration := lastOf (Rule.enumeration? catalog) rules
  minimum := lastOf Rule.minimum? rules
  maximum := lastOf Rule.maximum? rules
  pattern := lastOf Rule.pattern? rules
  nullable := rules.any (Rule.isNamed "nullable")
  required := rules.any (Rule.isNamed "required")
  confirmed := rules.any (Rule.isNamed "confirmed")

/-- The type of a field and whether it has to be confirmed, from what its rules leave and what is
declared beside them. -/
def RuleSet.leaf (cx : Context) (rules : RuleSet) (f : Facts) : Ty × Bool :=
  let t := (rules.declared.getD (f.type cx)).withRequired f.required
  let t := if rules.description.isSome then t.withDescription rules.description else t
  let t := if rules.examples.isEmpty then t else t.withExamples rules.examples
  (t, f.confirmed)

/-! ## One rule -/

/-- What is known after a rule, slot by slot. -/
def Facts.update (catalog : Catalog) (f : Facts) (r : Rule) : Facts where
  base := f.base.or r.base?
  inclusion := r.inclusion?.or f.inclusion
  enumeration := (r.enumeration? catalog).or f.enumeration
  minimum := r.minimum?.or f.minimum
  maximum := r.maximum?.or f.maximum
  pattern := r.pattern?.or f.pattern
  nullable := f.nullable || r.isNamed "nullable"
  required := f.required || r.isNamed "required"
  confirmed := f.confirmed || r.isNamed "confirmed"

/-- A rule that fills another slot determines no type. Digits fill three slots and are not among
these. -/
theorem baseType?_of_mem (name : String)
    (h : name ∈ ["nullable", "required", "confirmed", "min", "gte", "max", "lte", "between",
      "size", "in", "regex"]) : baseType? name = none := by
  simp only [List.mem_cons, List.not_mem_nil, or_false] at h
  rcases h with rfl | rfl | rfl | rfl | rfl | rfl | rfl | rfl | rfl | rfl | rfl <;> rfl

theorem Facts.named_eq (catalog : Catalog) (f : Facts) (r : NamedRule) :
    f.named r = f.update catalog (.named r) := by
  have hbase := baseType?_of_mem r.name
  unfold Facts.named
  -- one case per name that fills a slot, and one for all other names
  split <;>
    simp_all [Facts.update, Facts.withBase, Facts.withMinimum, Facts.withMaximum, Rule.base?,
      Rule.inclusion?, Rule.enumeration?, Rule.minimum?, Rule.maximum?, Rule.pattern?, Rule.isNamed]

/-- An object gives neither bounds nor a pattern, and it is none of the plain rules. -/
theorem Facts.update_object (catalog : Catalog) (f : Facts) (o : RuleObject) :
    f.update catalog (.object o) =
      { f with
        base := f.base.or o.class_.baseType?
        inclusion := (Rule.inclusion? (.object o)).or f.inclusion
        enumeration := (Rule.enumeration? catalog (.object o)).or f.enumeration } := by
  simp [Facts.update, Rule.base?, Rule.minimum?, Rule.maximum?, Rule.pattern?, Rule.isNamed]

/-- The answer for rules: the first failure, or what is known after all of them. -/
def Facts.after (cx : Context) (f : Facts) (rules : List Rule) : Except InferError Facts :=
  match rules.findSome? (Rule.failure? cx) with
  | some e => .error e
  | none => .ok (rules.foldl (Facts.update cx.catalog) f)

theorem runFrom_object (cx : Context) (key : String) (f : Facts) (o : RuleObject) (p : Progress) :
    (runFrom (f.object cx key o) p).1 = f.after cx [.object o] := by
  obtain ⟨c, args⟩ := o
  have hafter : f.after cx [.object ⟨c, args⟩] = match Rule.failure? cx (.object ⟨c, args⟩) with
      | some e => .error e
      | none => .ok (f.update cx.catalog (.object ⟨c, args⟩)) := by
    rw [Facts.after, List.findSome?_singleton]
    rfl
  rw [hafter, Facts.update_object, Facts.object]
  cases c with
  | inclusion =>
    cases hliterals : RuleObject.literals? ⟨.inclusion, args⟩ with
    | some literals =>
      simp [Rule.failure?, Rule.inclusion?, Rule.enumeration?, RuleClass.baseType?, hliterals]
    | none =>
      -- the object is noted and nothing else
      have hinclusion : Rule.inclusion? (.object ⟨.inclusion, args⟩) = none := hliterals
      rw [hinclusion]
      simp only [Rule.enumeration?, RuleClass.baseType?, Option.or_none, Option.none_or]
      rfl
  | enumeration name =>
    cases hknown : cx.catalog.enumeration name with
    | ok e =>
      simp [Rule.failure?, Rule.inclusion?, Rule.enumeration?, RuleClass.baseType?, hknown,
        Except.toOption]
    | error source =>
      have henumeration : Rule.enumeration? cx.catalog (.object ⟨.enumeration name, args⟩) =
          none := by
        rw [Rule.enumeration?, hknown]
        rfl
      rw [Rule.failure?, henumeration]
      simp only [hknown]
      cases cx.config.strict with
      | true => rfl
      | false =>
        simp only [Rule.inclusion?, RuleClass.baseType?, Option.or_none, Option.none_or]
        rfl
  | exclusion | password | email | other =>
    simp [Rule.failure?, Rule.inclusion?, Rule.enumeration?, Facts.withBase]

/-! ## All rules -/

theorem Facts.after_append {cx : Context} {f : Facts} {rules more : List Rule} :
    f.after cx (rules ++ more) = f.after cx rules >>= fun g => g.after cx more := by
  rw [Facts.after, Facts.after, List.findSome?_append, List.foldl_append]
  cases rules.findSome? (Rule.failure? cx) with
  | some e => rfl
  | none => rfl

theorem runFrom_token (cx : Context) (key : String) (f : Facts) (token : RuleToken) (p : Progress) :
    (runFrom (f.token cx key token) p).1 = f.after cx token.rules := by
  cases token with
  | object o => exact runFrom_object cx key f o p
  | text s =>
    -- a string has no enumerations, so it never fails
    have hnamed : (splitRules s).foldl Facts.named f =
        ((splitRules s).map Rule.named).foldl (Facts.update cx.catalog) f := by
      rw [List.foldl_map]
      congr 1
      funext g r
      exact g.named_eq cx.catalog r
    have hfailure : ((splitRules s).map Rule.named).findSome? (Rule.failure? cx) = none := by
      rw [List.findSome?_eq_none_iff]
      intro rule hrule
      obtain ⟨r, -, rfl⟩ := List.mem_map.1 hrule
      rfl
    rw [RuleToken.rules, Facts.after, hfailure]
    exact congrArg Except.ok hnamed

theorem runFrom_tokens (cx : Context) (key : String) (tokens : List RuleToken) (f : Facts)
    (p : Progress) :
    (runFrom (tokens.foldlM (Facts.token cx key) f) p).1 = f.after cx (rulesOf tokens) := by
  induction tokens generalizing f p with
  | nil => rfl
  | cons token rest ih =>
    have hrules : rulesOf (token :: rest) = token.rules ++ rulesOf rest := List.flatMap_cons
    have htoken := runFrom_token cx key f token p
    rw [List.foldlM_cons, runFrom_bind, hrules, Facts.after_append, ← htoken]
    rcases runFrom (f.token cx key token) p with ⟨r, q⟩
    cases r with
    | ok g => exact ih g q
    | error e => rfl

section Fold

variable {α : Type} (answer? : Rule → Option α) (r : Rule) (rules : List Rule)

theorem findSome?_cons_eq_or :
    (r :: rules).findSome? answer? = (answer? r).or (rules.findSome? answer?) := by
  rw [List.findSome?_cons]
  cases answer? r with
  | none => rfl
  | some a => rfl

theorem lastOf_cons : lastOf answer? (r :: rules) = (lastOf answer? rules).or (answer? r) := by
  rw [lastOf, lastOf, List.filterMap_cons]
  cases answer? r with
  | none => rw [Option.or_none]
  | some a =>
    rw [List.getLast?_cons]
    cases (rules.filterMap answer?).getLast? with
    | none => rfl
    | some b => rfl

end Fold

/-- The slots fill up rule by rule, each on its own. -/
theorem foldl_update (catalog : Catalog) (rules : List Rule) :
    rules.foldl (Facts.update catalog) {} = slots catalog rules := by
  -- rules that follow leave the first type alone and stand above what else there was
  have key : ∀ f : Facts, rules.foldl (Facts.update catalog) f =
      { base := f.base.or (slots catalog rules).base
        inclusion := (slots catalog rules).inclusion.or f.inclusion
        enumeration := (slots catalog rules).enumeration.or f.enumeration
        minimum := (slots catalog rules).minimum.or f.minimum
        maximum := (slots catalog rules).maximum.or f.maximum
        pattern := (slots catalog rules).pattern.or f.pattern
        nullable := f.nullable || (slots catalog rules).nullable
        required := f.required || (slots catalog rules).required
        confirmed := f.confirmed || (slots catalog rules).confirmed } := by
    induction rules with
    | nil => intro f; simp [slots, lastOf]
    | cons r rest ih =>
      intro f
      rw [List.foldl_cons, ih]
      simp only [slots, Facts.update, findSome?_cons_eq_or, lastOf_cons, List.any_cons,
        Option.or_assoc, Bool.or_assoc]
  rw [key]
  simp

/-! ## The type of a field -/

theorem runFrom_leafType (cx : Context) (key : String) (rules : RuleSet) (p : Progress) :
    (runFrom (leafType cx key rules) p).1 =
      match (rulesOf rules.tokens).findSome? (Rule.failure? cx) with
      | some e => .error e
      | none => .ok (rules.leaf cx (slots cx.catalog (rulesOf rules.tokens))) := by
  have hfacts := runFrom_tokens cx key rules.tokens {} p
  have hleaf : leafType cx key rules =
      rules.tokens.foldlM (Facts.token cx key) {} >>= fun f => pure (rules.leaf cx f) := rfl
  rw [Facts.after, foldl_update] at hfacts
  rw [hleaf, runFrom_bind]
  rcases hrun : runFrom (rules.tokens.foldlM (Facts.token cx key) {}) p with ⟨r, q⟩
  rw [hrun] at hfacts
  cases hfailure : (rulesOf rules.tokens).findSome? (Rule.failure? cx) with
  | none =>
    rw [hfailure] at hfacts
    obtain rfl : r = .ok (slots cx.catalog (rulesOf rules.tokens)) := hfacts
    rfl
  | some e =>
    rw [hfailure] at hfacts
    obtain rfl : r = .error e := hfacts
    rfl

/-- The type of a field and whether it has to be confirmed are made of the slots of its rules, and
of what is declared beside them. A field has none only under a strict policy, when a rule names an
enumeration that the catalog does not know; the first of these rules is then the failure. So rules
that leave the same slots give the same field, whatever their order, their number, and the tokens
they are written in. -/
theorem leafType_slots (cx : Context) (key : String) (rules : RuleSet) (p : Progress) :
    (runFrom (leafType cx key rules) p).1 =
        (match (rulesOf rules.tokens).findSome? (Rule.failure? cx) with
          | some e => .error e
          | none => .ok (rules.leaf cx (slots cx.catalog (rulesOf rules.tokens)))) ∧
      ∀ (tokens : List RuleToken) (p' : Progress) (leaf leaf' : Ty × Bool),
        slots cx.catalog (rulesOf tokens) = slots cx.catalog (rulesOf rules.tokens) →
        (runFrom (leafType cx key rules) p).1 = .ok leaf →
        (runFrom (leafType cx key { rules with tokens }) p').1 = .ok leaf' → leaf = leaf' := by
  refine ⟨runFrom_leafType cx key rules p, ?_⟩
  intro tokens p' leaf leaf' hslots hleaf hleaf'
  rw [runFrom_leafType] at hleaf hleaf'
  split at hleaf
  · cases hleaf
  · split at hleaf'
    · cases hleaf'
    · cases hleaf
      cases hleaf'
      exact congrArg (rules.leaf cx) hslots.symm

/-- The same slots in one order and in another, written in strings and objects and with rules that
are overruled. -/
theorem leafType_slots_reordered :
    let cx : Context := ⟨{ strict := true }, {}⟩
    let values : RuleToken := .object ⟨.inclusion, [.ofJson (.arr [.str "5"])]⟩
    let tokens : List RuleToken := [.text "integer|min:1|in:4", values, .text "gte:3|required"]
    let tokens' : List RuleToken :=
      [values, .text "required|min:3|int", .text "required|email|gte:other"]
    slots cx.catalog (rulesOf tokens') = slots cx.catalog (rulesOf tokens) ∧
      ∃ leaf, (runFrom (leafType cx "count" { tokens }) {}).1 = .ok leaf ∧
        (runFrom (leafType cx "count" { tokens := tokens' }) {}).1 = .ok leaf := by
  intro cx values tokens tokens'
  have hrules : rulesOf tokens =
      [.named ⟨"integer", ""⟩, .named ⟨"min", "1"⟩, .named ⟨"in", "4"⟩] ++
      values.rules ++ [.named ⟨"gte", "3"⟩, .named ⟨"required", ""⟩] := by
    have hfirst : splitRules "integer|min:1|in:4" =
        [⟨"integer", ""⟩, ⟨"min", "1"⟩, ⟨"in", "4"⟩] := by
      decide +kernel
    have hlast : splitRules "gte:3|required" = [⟨"gte", "3"⟩, ⟨"required", ""⟩] := by decide +kernel
    simp [tokens, rulesOf, RuleToken.rules, hfirst, hlast]
  have hrules' : rulesOf tokens' = values.rules ++ [.named ⟨"required", ""⟩, .named ⟨"min", "3"⟩,
      .named ⟨"int", ""⟩, .named ⟨"required", ""⟩, .named ⟨"email", ""⟩,
      .named ⟨"gte", "other"⟩] := by
    have hfirst : splitRules "required|min:3|int" =
        [⟨"required", ""⟩, ⟨"min", "3"⟩, ⟨"int", ""⟩] := by
      decide +kernel
    have hlast : splitRules "required|email|gte:other" =
        [⟨"required", ""⟩, ⟨"email", ""⟩, ⟨"gte", "other"⟩] := by decide +kernel
    simp [tokens', rulesOf, RuleToken.rules, hfirst, hlast]
  have hslots : slots cx.catalog (rulesOf tokens') = slots cx.catalog (rulesOf tokens) := by
    rw [hrules, hrules', slots, slots, Facts.mk.injEq]
    refine ⟨rfl, ?_, rfl, ?_⟩
    · decide +kernel
    · decide +kernel
  obtain ⟨leaf, hleaf⟩ : ∃ leaf, (runFrom (leafType cx "count" { tokens }) {}).1 = .ok leaf := by
    rw [(leafType_slots cx "count" { tokens } {}).1, hrules]
    exact ⟨_, rfl⟩
  obtain ⟨leaf', hleaf'⟩ : ∃ leaf, (runFrom (leafType cx "count" { tokens := tokens' }) {}).1 =
      .ok leaf := by
    rw [(leafType_slots cx "count" { tokens := tokens' } {}).1, hrules']
    exact ⟨_, rfl⟩
  have hsame :=
    (leafType_slots cx "count" { tokens } {}).2 tokens' {} leaf leaf' hslots hleaf hleaf'
  exact ⟨hslots, leaf, hleaf, hsame ▸ hleaf'⟩

end QueryTypes.Rules
