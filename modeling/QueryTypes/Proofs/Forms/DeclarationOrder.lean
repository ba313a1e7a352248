import QueryTypes.Proofs.Forms.Trie

/-!
# The order in which rules are declared

Rules that are written as text give a field one of few types: a scalar, an empty list or object, an
unknown type, or one of these beside null (`RuleSet.Textual.leafOf_eq_ok`). So a field with rules
can stand above others, and the order in which the fields are declared does not matter, up to the
order of properties (`formType_order`), with two exceptions, both of which are met. Where several
keys cannot be read, it decides which one of them is reported.

A field that may be null and is no list or object loses its null if it is declared before the fields
below it, and keeps it if it is declared after them (`formType_order_nullable`). And a list whose
items are unknown looks empty to a field that is declared after the items
(`formType_order_unknown_items`).
-/

set_option autoImplicit false

namespace QueryTypes.Rules

/-! ## Types of rules that are written as text -/

/-- The token is a text that does not ask for a confirmation. -/
def RuleToken.Textual : RuleToken → Prop
  | .text s => ∀ r ∈ splitRules s, r.name ≠ "confirmed"
  | .object _ => False

/-- The rules are written as text, declare no type, and do not ask for a confirmation. -/
structure RuleSet.Textual (rules : RuleSet) : Prop where
  tokens : ∀ token ∈ rules.tokens, token.Textual
  undeclared : rules.declared.isNone = true

instance : DecidablePred RuleToken.Textual
  | .text s => inferInstanceAs (Decidable (∀ r ∈ splitRules s, r.name ≠ "confirmed"))
  | .object _ => .isFalse id

instance (rules : RuleSet) : Decidable rules.Textual :=
  decidable_of_iff ((∀ token ∈ rules.tokens, token.Textual) ∧ rules.declared.isNone = true)
    ⟨fun h => ⟨h.1, h.2⟩, fun h => ⟨h.tokens, h.undeclared⟩⟩

/-- A blank type in no special place. -/
def IsBlank (t : Ty) : Prop := ∃ kind, Blank kind ∧ t = .mk kind {}

theorem isBlank_scalar (s : Scalar) : IsBlank (.mk (.scalar s) {}) := ⟨_, .scalar s, rfl⟩

/-- A type that is determined by name is blank. -/
theorem isBlank_of_baseType? {name : String} {t : Ty} (h : baseType? name = some t) :
    IsBlank t := by
  unfold baseType? at h
  split at h
  case h_1 | h_2 => exact ⟨_, .list, (Option.some.inj h).symm⟩
  case h_39 => exact ⟨_, .object, (Option.some.inj h).symm⟩
  case h_40 => cases h
  -- all other names are those of scalars
  all_goals
    cases h
    exact isBlank_scalar _

namespace Facts

/-- What text can say about a field: a blank type, no enumeration, and here no confirmation. -/
structure Textual (f : Facts) : Prop where
  base : ∀ t, f.base = some t → IsBlank t
  enumeration : f.enumeration = none
  confirmed : f.confirmed = false

namespace Textual

variable {f : Facts}

theorem withBase (h : f.Textual) {t : Option Ty} (ht : ∀ u, t = some u → IsBlank u) :
    (f.withBase t).Textual where
  base := by
    intro u hu
    have hor : f.base.or t = some u := hu
    rcases Option.or_eq_some_iff.1 hor with hbase | ⟨-, hnew⟩
    · exact h.base u hbase
    · exact ht u hnew
  enumeration := h.enumeration
  confirmed := h.confirmed

theorem withMinimum (h : f.Textual) (x : Option Double) : (f.withMinimum x).Textual :=
  ⟨h.base, h.enumeration, h.confirmed⟩

theorem withMaximum (h : f.Textual) (x : Option Double) : (f.withMaximum x).Textual :=
  ⟨h.base, h.enumeration, h.confirmed⟩

/-- A named rule adds nothing else. -/
theorem named (h : f.Textual) {r : NamedRule} (hr : r.name ≠ "confirmed") :
    (f.named r).Textual := by
  unfold Facts.named
  split
  case h_1 => exact ⟨h.base, h.enumeration, h.confirmed⟩
  case h_2 => exact ⟨h.base, h.enumeration, h.confirmed⟩
  case h_3 hname => exact absurd hname hr
  case h_4 => exact h.withMinimum _
  case h_5 => exact h.withMinimum _
  case h_6 => exact h.withMaximum _
  case h_7 => exact h.withMaximum _
  case h_8 => exact (h.withMinimum _).withMaximum _
  case h_9 => exact (h.withMinimum _).withMaximum _
  case h_10 => exact ((h.withMinimum _).withMaximum _).withBase fun _ => isBlank_of_baseType?
  case h_11 => exact ((h.withMinimum _).withMaximum _).withBase fun _ => isBlank_of_baseType?
  case h_12 => exact ⟨h.base, h.enumeration, h.confirmed⟩
  case h_13 => exact ⟨h.base, h.enumeration, h.confirmed⟩
  case h_14 => exact h.withBase fun _ => isBlank_of_baseType?

theorem foldl_named (h : f.Textual) {rules : List NamedRule}
    (hrules : ∀ r ∈ rules, r.name ≠ "confirmed") :
    (rules.foldl Facts.named f).Textual := by
  induction rules generalizing f with
  | nil => exact h
  | cons r rest ih =>
    exact ih (h.named (hrules r List.mem_cons_self)) fun r' hr' =>
      hrules r' (List.mem_cons_of_mem _ hr')

end Textual

/-- Narrowing a blank type leaves it blank. -/
theorem isBlank_narrow {t : Ty} (h : IsBlank t) (literals : List Literal) :
    IsBlank (narrow t literals) := by
  have hliterals (ls : List Literal) : IsBlank (typeOfLiterals ls) := by
    unfold typeOfLiterals
    split
    · exact isBlank_scalar _
    · split
      · exact isBlank_scalar _
      · split
        · exact isBlank_scalar _
        · exact ⟨_, .unknown, rfl⟩
  have hkeep {u : Ty} (hu : IsBlank u) : IsBlank (keepRestrictions t u) := by
    obtain ⟨kind, hkind, rfl⟩ := h
    obtain ⟨kind', hkind', rfl⟩ := hu
    unfold keepRestrictions
    split
    · split
      · exact isBlank_scalar _
      · exact ⟨_, hkind', rfl⟩
    · exact ⟨_, hkind', rfl⟩
  rw [narrow]
  split
  · exact h
  · exact hkeep (hliterals _)

/-- Blank types and enumerations make a blank type. -/
theorem isBlank_plainType {f : Facts} (hbase : ∀ t, f.base = some t → IsBlank t)
    (henumeration : ∀ t, f.enumeration = some t → IsBlank t) (cx : Context) :
    IsBlank (f.plainType cx) := by
  have hdefault : IsBlank (f.base.getD (.scalar cx.config.defaultRuleKind)) := by
    cases hf : f.base with
    | none => exact isBlank_scalar _
    | some t => exact hbase t hf
  have hscalar {t : Ty} (ht : IsBlank t) (s : Scalar) : IsBlank (t.withKind (.scalar s)) := by
    obtain ⟨kind, -, rfl⟩ := ht
    exact isBlank_scalar s
  have henum {t : Ty} (ht : IsBlank t) : IsBlank (f.enumeration.getD t) := by
    cases hf : f.enumeration with
    | none => exact ht
    | some u => exact henumeration u hf
  rw [plainType]
  cases f.inclusion with
  | none =>
    dsimp only
    split
    · exact hscalar (henum hdefault) _
    · exact henum hdefault
  | some literals =>
    have hnarrow := isBlank_narrow hdefault literals
    dsimp only
    split
    · exact hscalar (henum hnarrow) _
    · exact henum hnarrow

theorem Textual.isBlank_plainType {f : Facts} (h : f.Textual) (cx : Context) :
    IsBlank (f.plainType cx) := by
  refine Facts.isBlank_plainType h.base ?_ cx
  intro t ht
  rw [h.enumeration] at ht
  cases ht

end Facts

/-- The types of fields with textual rules: blank, or blank beside null. -/
inductive Leafy : Ty → Prop
  | plain {kind : Kind} (slot : Slot) : Blank kind → Leafy (.mk kind slot)
  | nullable {kind : Kind} (slot : Slot) : Blank kind →
      Leafy (.mk (.union [.mk kind {}, .null]) slot)

theorem Leafy.mk {t : Ty} (h : Leafy t) (slot : Slot) : Leafy (.mk t.kind slot) := by
  cases h with
  | plain _ hkind => exact .plain slot hkind
  | nullable _ hkind => exact .nullable slot hkind

theorem IsBlank.leafy {t : Ty} (h : IsBlank t) : Leafy t := by
  obtain ⟨kind, hkind, rfl⟩ := h
  exact .plain {} hkind

theorem IsBlank.leafy_nullable {t : Ty} (h : IsBlank t) : Leafy t.nullable := by
  cases hnull : t.isNull with
  | true =>
    rw [Ty.nullable_of_isNull hnull]
    exact h.leafy
  | false =>
    obtain ⟨kind, hkind, rfl⟩ := h
    have hunion : ∀ ts, kind ≠ .union ts := by
      rintro ts rfl
      cases hkind
    rw [nullable_mk hunion hnull]
    exact .nullable {} hkind

/-- A leaf that allows null, if at all, beside a list or an object can stand above others. -/
theorem Leafy.bare {t : Ty} (h : Leafy t)
    (hnull : allowsNull t = true → ∃ member ∈ t.members, isContainer member = true) : Bare t := by
  cases h with
  | @plain kind slot hkind =>
    refine .plain slot hkind ?_
    cases hallows : allowsNull (.mk kind slot) with
    | false => rfl
    | true =>
      obtain ⟨member, hmember, hcontainer⟩ := hnull hallows
      have hmembers : (Ty.mk kind slot).members = [.mk kind slot] := by cases hkind <;> rfl
      rw [hmembers, List.mem_singleton] at hmember
      subst hmember
      rw [allowsNull_container hcontainer] at hallows
      cases hallows
  | @nullable kind slot hkind =>
    obtain ⟨member, hmember, hcontainer⟩ := hnull (allowsNull_nullable _ _)
    rcases List.mem_cons.1 hmember with rfl | hmember
    · exact .nullable slot hkind hcontainer
    · rw [List.mem_singleton.1 hmember] at hcontainer
      cases hcontainer

/-- Textual rules never fail, and what they state is textual. -/
theorem exists_textual (cx : Context) (key : String) {tokens : List RuleToken} {f : Facts}
    (hf : f.Textual) (htokens : ∀ token ∈ tokens, token.Textual) :
    ∃ f' : Facts, f'.Textual ∧ tokens.foldlM (Facts.token cx key) f = (pure f' : Infer Facts) := by
  induction tokens generalizing f with
  | nil => exact ⟨f, hf, rfl⟩
  | cons token rest ih =>
    have htoken := htokens token List.mem_cons_self
    have hrest : ∀ token ∈ rest, token.Textual := fun t ht => htokens t (List.mem_cons_of_mem _ ht)
    cases token with
    | object o => exact htoken.elim
    | text s =>
      obtain ⟨f', hf', hfold⟩ := ih (hf.foldl_named htoken) hrest
      refine ⟨f', hf', ?_⟩
      rw [List.foldlM_cons, ← hfold]
      rfl

/-- The type of a field with textual rules. -/
theorem RuleSet.Textual.leafOf_eq_ok {rules : RuleSet} (hrules : rules.Textual) (cx : Context)
    (key : String) : ∃ t, Leafy t ∧ leafOf cx key rules = .ok (t, false) := by
  have hempty : Facts.Textual {} := ⟨nofun, rfl, rfl⟩
  obtain ⟨f, hf, hfold⟩ := exists_textual cx key hempty hrules.tokens
  have htype : Leafy (rules.declared.getD (f.type cx)) := by
    rw [Option.isNone_iff_eq_none.1 hrules.undeclared, Option.getD_none, Facts.type]
    split
    · exact (hf.isBlank_plainType cx).leafy_nullable
    · exact (hf.isBlank_plainType cx).leafy
  generalize hbase : rules.declared.getD (f.type cx) = t at htype
  have hleaf : leafOf cx key rules = .ok
      (let t := t.withRequired f.required
       let t := if rules.description.isSome then t.withDescription rules.description else t
       if rules.examples.isEmpty then t else t.withExamples rules.examples, f.confirmed) := by
    rw [leafOf, leafType, hfold, ← hbase]
    rfl
  rw [hleaf, hf.confirmed]
  refine ⟨_, ?_, rfl⟩
  -- the rest only fills the place
  have hrequired : Leafy (t.withRequired f.required) := htype.mk _
  dsimp only
  split
  · split
    · exact hrequired.mk _
    · exact hrequired
  · split
    · exact (hrequired.mk _).mk _
    · exact hrequired.mk _

/-! ## The order of declarations -/

/-- Leaves that have room: one above another allows null only beside a list or an object, and the
items of a list that has a leaf itself are known. -/
structure Roomy (leaves : List Leaf) : Prop where
  null : ∀ a ∈ leaves, ∀ b ∈ leaves, a.path <+: b.path → a.path ≠ b.path →
    allowsNull a.type = true →
    ∃ member ∈ a.type.members, isContainer member = true
  items : ∀ a ∈ leaves, ∀ b ∈ leaves, b.path = a.path ++ [.wildcard] → b.type.isUnknown = false

instance (leaves : List Leaf) : Decidable (Roomy leaves) :=
  decidable_of_iff
    ((∀ a ∈ leaves, ∀ b ∈ leaves, a.path <+: b.path → a.path ≠ b.path → allowsNull a.type = true →
        ∃ member ∈ a.type.members, isContainer member = true) ∧
      ∀ a ∈ leaves, ∀ b ∈ leaves, b.path = a.path ++ [.wildcard] → b.type.isUnknown = false)
    ⟨fun h => ⟨h.1, h.2⟩, fun h => ⟨h.null, h.items⟩⟩

/-- The leaves of textual rules are those of their keys. -/
theorem leaves_of_textual {cx : Context} {rules : Entries RuleSet} {leaves : List Leaf}
    (hrules : ∀ entry ∈ rules, entry.2.Textual) (h : formLeaves cx rules = .ok leaves) :
    leaves.map (fun leaf => renderPath leaf.path) = rules.keys ∧
      ∀ leaf ∈ leaves, Leafy leaf.type := by
  obtain ⟨parts, hparts, rfl⟩ := formLeaves_eq_ok.1 h
  clear h
  induction hparts with
  | nil => exact ⟨rfl, fun leaf hleaf => absurd hleaf List.not_mem_nil⟩
  | @cons entry part rest parts hentry _ ih =>
    obtain ⟨hkeys, hleafy⟩ :=
      ih fun entry' hentry' => hrules entry' (List.mem_cons_of_mem _ hentry')
    obtain ⟨path, type, confirmed, hpath, hleaf, rfl⟩ := entryLeaves_eq_ok hentry
    obtain ⟨t, ht, hleaf'⟩ := (hrules entry List.mem_cons_self).leafOf_eq_ok cx entry.1
    cases hleaf.symm.trans hleaf'
    constructor
    · rw [List.flatten_cons, List.map_append, hkeys]
      exact congrArg (· :: Entries.keys rest) (renderPath_of_parsePath hpath)
    · intro leaf hmem
      rcases List.mem_append.1 hmem with hmem | hmem
      · rw [List.mem_singleton.1 hmem]
        exact ht
      · exact hleafy leaf hmem

/-- Textual rules with distinct keys give leaves that agree. -/
theorem agree_of_textual {cx : Context} {rules : Entries RuleSet} {leaves : List Leaf}
    (hkeys : rules.Distinct) (hrules : ∀ entry ∈ rules, entry.2.Textual)
    (hleaves : formLeaves cx rules = .ok leaves) (hunclashed : Unclashed leaves)
    (hroomy : Roomy leaves) : Agree leaves := by
  obtain ⟨hpaths, hleafy⟩ := leaves_of_textual hrules hleaves
  refine ⟨?_, hunclashed, ?_, hroomy.items⟩
  · -- different keys have different paths
    have hnodup : ((leaves.map Leaf.path).map renderPath).Nodup := by
      rw [List.map_map]
      exact hpaths ▸ hkeys
    exact hnodup.of_map _
  · intro a ha b hb habove hne
    exact (hleafy a ha).bare (hroomy.null a ha b hb habove hne)

/-- Textual rules fail only by a key that cannot be read. -/
theorem exists_unreadable {cx : Context} {rules : Entries RuleSet} {e : InferError}
    (hrules : ∀ entry ∈ rules, entry.2.Textual) (h : formLeaves cx rules = .error e) :
    ∃ key ∈ rules.keys, parsePath key = .error e := by
  obtain ⟨entry, hentry, herror⟩ := exists_entry_of_error h
  refine ⟨entry.1, List.mem_map_of_mem hentry, ?_⟩
  obtain ⟨t, -, hleaf⟩ := (hrules entry hentry).leafOf_eq_ok cx entry.1
  rw [entryLeaves, hleaf] at herror
  cases hpath : parsePath entry.1 with
  | error e' =>
    rw [hpath] at herror
    cases herror
    rfl
  | ok path =>
    rw [hpath] at herror
    cases herror

/-- The results of a rule map in two orders: types that differ in the order of properties, or
failures in both, each by a key that cannot be read. -/
inductive SameForm (rules : Entries RuleSet) : Except InferError Ty → Except InferError Ty → Prop
  | ok {t t' : Ty} : t.Reordered t' → SameForm rules (.ok t) (.ok t')
  | error {e e' : InferError} : (∃ key ∈ rules.keys, parsePath key = .error e) →
      (∃ key ∈ rules.keys, parsePath key = .error e') → SameForm rules (.error e) (.error e')

/-- The order in which textual rules are declared does not matter, if no node is reached both by a
field and by a wildcard and the leaves have room. -/
theorem formType_order (cx : Context) (rules rules' : Entries RuleSet) (hkeys : rules.Distinct)
    (hrules : ∀ entry ∈ rules, entry.2.Textual) (hperm : rules.Perm rules')
    (hleaves : ∀ leaves, formLeaves cx rules = .ok leaves → Unclashed leaves ∧ Roomy leaves)
    (p p' : Progress) :
    SameForm rules (runFrom (formType cx rules) p).1 (runFrom (formType cx rules') p').1 := by
  rw [runFrom_formType, runFrom_formType]
  cases h : formLeaves cx rules with
  | ok leaves =>
    obtain ⟨hunclashed, hroomy⟩ := hleaves leaves h
    obtain ⟨leaves', h', hperm'⟩ := formLeaves_perm hperm h
    rw [h']
    exact .ok (reordered_plant (agree_of_textual hkeys hrules h hunclashed hroomy) hperm')
  | error e =>
    cases h' : formLeaves cx rules' with
    | error e' =>
      have hrules' : ∀ entry ∈ rules', entry.2.Textual :=
        fun entry hentry => hrules entry (hperm.mem_iff.2 hentry)
      obtain ⟨key, hkey, herror⟩ := exists_unreadable hrules' h'
      exact .error (exists_unreadable hrules h) ⟨key, (hperm.map _).mem_iff.2 hkey, herror⟩
    | ok leaves' =>
      obtain ⟨leaves, hleaves, -⟩ := formLeaves_perm hperm.symm h'
      rw [h] at hleaves
      cases hleaves

/-- A list that may be null and an object, each declared apart from what it holds. -/
def articleForm : Entries RuleSet :=
  [("tags", { tokens := [.text "nullable|array"] }),
    ("author.name", { tokens := [.text "nullable|string|max:40"] }),
    ("tags.*", { tokens := [.text "required|string"] }),
    ("author", { tokens := [.text "required|array"] })]

theorem formType_order_articleForm :
    SameForm articleForm (runFrom (formType ⟨{}, {}⟩ articleForm) {}).1
      (runFrom (formType ⟨{}, {}⟩ articleForm.reverse) {}).1 := by
  refine formType_order ⟨{}, {}⟩ articleForm articleForm.reverse ?_ ?_ ?_ ?_ {} {}
  · exact (by decide +kernel : articleForm.keys.Nodup)
  · decide +kernel
  · exact (List.reverse_perm articleForm).symm
  · intro leaves hleaves
    cases hleaves
    decide +kernel

/-! ## Where the order matters -/

/-- The same path leads to reordered types in reordered types. -/
theorem reordered_of_follow {t t' u u' : Ty} (h : t.Reordered t') {path : List Segment}
    (hu : t.follow path = some u) (hu' : t'.follow path = some u') : u.Reordered u' := by
  induction path generalizing t t' with
  | nil =>
    cases hu
    cases hu'
    exact h
  | cons segment rest ih =>
    cases h with
    | refl t =>
      cases hu.symm.trans hu'
      exact .refl u
    | object origin slot hdistinct hkeys hprops =>
      cases segment with
      | wildcard => cases hu
      | field name =>
        obtain ⟨child, hchild, hrest⟩ := Option.bind_eq_some_iff.1 hu
        obtain ⟨child', hchild', hrest'⟩ := Option.bind_eq_some_iff.1 hu'
        exact ih (hprops name child child' hchild hchild') hrest hrest'
    | @item a b key origin slot hitem =>
      cases segment with
      | field name => cases hu
      | wildcard =>
        cases key with
        | some key => cases hu
        | none =>
          cases origin with
          | some origin => cases hu
          | none => exact ih hitem hu hu'
    | union slot hlength hmembers =>
      cases segment with
      | field name => cases hu
      | wildcard => cases hu

/-- What a path leads to in the type of a form, if it has one. -/
def found (path : List Segment) (r : Except InferError Ty) : Option Ty :=
  r.toOption.bind (·.follow path)

/-- What does not depend on the order of properties is found alike in both orders. -/
theorem SameForm.found_eq {α : Type} {rules : Entries RuleSet} {r r' : Except InferError Ty}
    (h : SameForm rules r r') {g : Ty → α}
    (hg : ∀ t t' : Ty, t.Reordered t' → g t = g t') {path : List Segment} {a a' : α}
    (ha : (found path r).map g = some a) (ha' : (found path r').map g = some a') : a = a' := by
  obtain ⟨u, hu, rfl⟩ := Option.map_eq_some_iff.1 ha
  obtain ⟨u', hu', rfl⟩ := Option.map_eq_some_iff.1 ha'
  cases h with
  | ok h => exact hg u u' (reordered_of_follow h hu hu')
  | error => cases hu

theorem isContainer_eq_of_reordered {t t' : Ty} (h : t.Reordered t') :
    isContainer t = isContainer t' := by
  cases h <;> rfl

theorem required_eq_of_reordered {t t' : Ty} (h : t.Reordered t') : t.required = t'.required := by
  cases h <;> rfl

/-- A text that may be null, above another field. -/
def addressForm : Entries RuleSet :=
  [("address", { tokens := [.text "nullable|string"] }),
    ("address.city", { tokens := [.text "string"] })]

/-- A text above another field becomes an object in one order, and an object or null in the
other. -/
theorem formType_order_nullable :
    addressForm.Distinct ∧ (∀ entry ∈ addressForm, entry.2.Textual) ∧
      (∀ leaves, formLeaves ⟨{}, {}⟩ addressForm = .ok leaves → Unclashed leaves) ∧
      ¬ SameForm addressForm (runFrom (formType ⟨{}, {}⟩ addressForm) {}).1
        (runFrom (formType ⟨{}, {}⟩ addressForm.reverse) {}).1 := by
  refine ⟨(by decide +kernel : addressForm.keys.Nodup), by decide +kernel, ?_, ?_⟩
  · intro leaves hleaves
    cases hleaves
    decide +kernel
  · intro h
    have hfirst : (found [.field "address"] (runFrom (formType ⟨{}, {}⟩ addressForm) {}).1).map
        isContainer = some true := by decide +kernel
    have hlast :
        (found [.field "address"] (runFrom (formType ⟨{}, {}⟩ addressForm.reverse) {}).1).map
        isContainer = some false := by decide +kernel
    have heq := h.found_eq (fun _ _ => isContainer_eq_of_reordered) hfirst hlast
    cases heq

/-- A list whose items must be there but are of no known type. -/
def codesForm : Entries RuleSet :=
  [("codes", { tokens := [.text "array"] }),
    ("codes.*", { tokens := [.text "required|integer|in:1,x"] })]

/-- What is said about unknown items is lost if the list is declared after them. -/
theorem formType_order_unknown_items :
    codesForm.Distinct ∧ (∀ entry ∈ codesForm, entry.2.Textual) ∧
      (∀ leaves, formLeaves ⟨{}, {}⟩ codesForm = .ok leaves → Unclashed leaves) ∧
      ¬ SameForm codesForm (runFrom (formType ⟨{}, {}⟩ codesForm) {}).1
        (runFrom (formType ⟨{}, {}⟩ codesForm.reverse) {}).1 := by
  refine ⟨(by decide +kernel : codesForm.keys.Nodup), by decide +kernel, ?_, ?_⟩
  · intro leaves hleaves
    cases hleaves
    decide +kernel
  · intro h
    have hfirst :
        (found [.field "codes", .wildcard] (runFrom (formType ⟨{}, {}⟩ codesForm) {}).1).map
        Ty.required = some true := by decide +kernel
    have hlast : (found [.field "codes", .wildcard]
        (runFrom (formType ⟨{}, {}⟩ codesForm.reverse) {}).1).map Ty.required = some false := by
      decide +kernel
    have heq := h.found_eq (fun _ _ => required_eq_of_reordered) hfirst hlast
    cases heq

end QueryTypes.Rules
