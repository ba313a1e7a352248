import QueryTypes.Inference.Engine

/-!
# Induction over types, expressions and terms

Types, expressions and terms hold lists of their own kind: members, properties, arguments, arms,
entries. Their generated recursors speak about each of these lists separately. The principles here
give, in every case, the hypothesis on every part that a list holds (`Ty.rec'`, `Expr.rec'`,
`Term.rec'`), so that a proof has one case for each constructor. Along a list of terms an inference
is a traversal or a fold (`Term.inferArms_eq_mapM`, `Term.inferItems_eq_foldlM`).
-/

set_option autoImplicit false

namespace QueryTypes

/-! ## Types -/

theorem sizeOf_snd_lt_of_mem {α : Type} [SizeOf α] {es : Entries α} {e : String × α} (h : e ∈ es) :
    sizeOf e.2 < sizeOf es := by
  have hlt := List.sizeOf_lt_of_mem h
  obtain ⟨k, v⟩ := e
  simp only [Prod.mk.sizeOf_spec] at hlt
  simp only
  omega

section

variable {motive : Ty → Prop}
  (unknown : ∀ slot, motive (.mk .unknown slot))
  (scalar : ∀ s slot, motive (.mk (.scalar s) slot))
  (array : ∀ item key shape origin slot, (∀ t, item = some t → motive t) →
    (∀ t, key = some t → motive t) → (∀ es, shape = some es → ∀ e ∈ es, motive e.2) →
    motive (.mk (.array item key shape origin) slot))
  (object : ∀ properties origin slot, (∀ e ∈ properties, motive e.2) →
    motive (.mk (.object properties origin) slot))
  (union : ∀ members slot, (∀ t ∈ members, motive t) → motive (.mk (.union members) slot))
include unknown scalar array object union

/-- Induction over types: the hypothesis is given for item, key, shape entries, properties and
members. -/
@[elab_as_elim]
theorem Ty.rec' : ∀ t, motive t
  | .mk .unknown slot => unknown slot
  | .mk (.scalar s) slot => scalar s slot
  | .mk (.array item key shape origin) slot =>
    array item key shape origin slot (fun t _h => rec' t) (fun t _h => rec' t)
      fun _ _h e _he => rec' e.2
  | .mk (.object properties origin) slot => object properties origin slot fun e _he => rec' e.2
  | .mk (.union members) slot => union members slot fun t _ht => rec' t
termination_by t => sizeOf t
decreasing_by
  · subst _h
    simp only [Ty.mk.sizeOf_spec, Kind.array.sizeOf_spec, Option.some.sizeOf_spec]
    omega
  · subst _h
    simp only [Ty.mk.sizeOf_spec, Kind.array.sizeOf_spec, Option.some.sizeOf_spec]
    omega
  · subst _h
    have := sizeOf_snd_lt_of_mem _he
    simp only [Ty.mk.sizeOf_spec, Kind.array.sizeOf_spec, Option.some.sizeOf_spec]
    omega
  · have := sizeOf_snd_lt_of_mem _he
    simp only [Ty.mk.sizeOf_spec, Kind.object.sizeOf_spec]
    omega
  · have := List.sizeOf_lt_of_mem _ht
    simp only [Ty.mk.sizeOf_spec, Kind.union.sizeOf_spec]
    omega

end

/-! ## Expressions -/

/-- The expressions of an entry of an array literal. -/
def Item.parts : Item → List Expr
  | .positional value => [value]
  | .keyed key value => [key, value]

theorem Item.sizeOf_lt_of_mem_parts {i : Item} {e : Expr} (h : e ∈ i.parts) :
    sizeOf e < sizeOf i := by
  cases i with
  | positional value =>
    rw [List.mem_singleton.1 h]
    simp only [Item.positional.sizeOf_spec]
    omega
  | keyed key value =>
    simp only [Item.keyed.sizeOf_spec]
    rcases List.mem_cons.1 h with rfl | h
    · omega
    · rw [List.mem_singleton.1 h]
      omega

section

variable {motive : Expr → Prop}
  (entity : ∀ name, motive (.entity name))
  (var : ∀ name, motive (.var name))
  (call : ∀ receiver method args, motive receiver → (∀ a ∈ args, motive a) →
    motive (.call receiver method args))
  (staticCall : ∀ entity method args, (∀ a ∈ args, motive a) →
    motive (.staticCall entity method args))
  (literal : ∀ value, motive (.literal value))
  (typed : ∀ ty, motive (.typed ty))
  (array : ∀ items, (∀ i ∈ items, ∀ e ∈ i.parts, motive e) → motive (.array items))
  (index : ∀ target key, motive target → motive key → motive (.index target key))
  (property : ∀ target name, motive target → motive (.property target name))
  (closure : ∀ params body, motive body → motive (.closure params body))
  (branches : ∀ arms, (∀ a ∈ arms, motive a) → motive (.branches arms))
  (obscure : motive .obscure)
include entity var call staticCall literal typed array index property closure branches obscure

/-- Induction over expressions: the hypothesis is given for every argument, arm and part of an
entry. -/
@[elab_as_elim]
theorem Expr.rec' : ∀ e, motive e
  | .entity name => entity name
  | .var name => var name
  | .call receiver method args => call receiver method args (rec' receiver) fun a _ha => rec' a
  | .staticCall e method args => staticCall e method args fun a _ha => rec' a
  | .literal value => literal value
  | .typed ty => typed ty
  | .array items => array items fun _ _hi e _he => rec' e
  | .index target key => index target key (rec' target) (rec' key)
  | .property target name => property target name (rec' target)
  | .closure params body => closure params body (rec' body)
  | .branches arms => branches arms fun a _ha => rec' a
  | .obscure => obscure
termination_by e => sizeOf e
decreasing_by
  · simp only [Expr.call.sizeOf_spec]
    omega
  · have := List.sizeOf_lt_of_mem _ha
    simp only [Expr.call.sizeOf_spec]
    omega
  · have := List.sizeOf_lt_of_mem _ha
    simp only [Expr.staticCall.sizeOf_spec]
    omega
  · have := List.sizeOf_lt_of_mem _hi
    have := Item.sizeOf_lt_of_mem_parts _he
    simp only [Expr.array.sizeOf_spec]
    omega
  · simp only [Expr.index.sizeOf_spec]
    omega
  · simp only [Expr.index.sizeOf_spec]
    omega
  · simp only [Expr.property.sizeOf_spec]
    omega
  · simp only [Expr.closure.sizeOf_spec]
    omega
  · have := List.sizeOf_lt_of_mem _ha
    simp only [Expr.branches.sizeOf_spec]
    omega

end

/-! ## Terms -/

/-- The terms of an entry of an array literal. -/
def TermItem.parts : TermItem → List Term
  | .positional value => [value]
  | .keyed key value => [key, value]

theorem TermItem.sizeOf_lt_of_mem_parts {i : TermItem} {t : Term} (h : t ∈ i.parts) :
    sizeOf t < sizeOf i := by
  cases i with
  | positional value =>
    rw [List.mem_singleton.1 h]
    simp only [TermItem.positional.sizeOf_spec]
    omega
  | keyed key value =>
    simp only [TermItem.keyed.sizeOf_spec]
    rcases List.mem_cons.1 h with rfl | h
    · omega
    · rw [List.mem_singleton.1 h]
      omega

section

variable {motive : Term → Prop}
  (unknown : motive .unknown)
  (known : ∀ ty, motive (.known ty))
  (entity : ∀ name, motive (.entity name))
  (param : ∀ name, motive (.param name))
  (call : ∀ receiver method args, motive receiver → (∀ a ∈ args, motive a) →
    motive (.call receiver method args))
  (array : ∀ items, (∀ i ∈ items, ∀ t ∈ i.parts, motive t) → motive (.array items))
  (index : ∀ target key, motive target → motive key → motive (.index target key))
  (property : ∀ target name, motive target → motive (.property target name))
  (closure : ∀ params body, motive body → motive (.closure params body))
  (branches : ∀ arms, (∀ a ∈ arms, motive a) → motive (.branches arms))
include unknown known entity param call array index property closure branches

/-- Induction over terms: the hypothesis is given for every argument, arm and part of an entry. -/
@[elab_as_elim]
theorem Term.rec' : ∀ t, motive t
  | .unknown => unknown
  | .known ty => known ty
  | .entity name => entity name
  | .param name => param name
  | .call receiver method args => call receiver method args (rec' receiver) fun a _ha => rec' a
  | .array items => array items fun _ _hi t _ht => rec' t
  | .index target key => index target key (rec' target) (rec' key)
  | .property target name => property target name (rec' target)
  | .closure params body => closure params body (rec' body)
  | .branches arms => branches arms fun a _ha => rec' a
termination_by t => sizeOf t
decreasing_by
  · simp only [Term.call.sizeOf_spec]
    omega
  · have := List.sizeOf_lt_of_mem _ha
    simp only [Term.call.sizeOf_spec]
    omega
  · have := List.sizeOf_lt_of_mem _hi
    have := TermItem.sizeOf_lt_of_mem_parts _ht
    simp only [Term.array.sizeOf_spec]
    omega
  · simp only [Term.index.sizeOf_spec]
    omega
  · simp only [Term.index.sizeOf_spec]
    omega
  · simp only [Term.property.sizeOf_spec]
    omega
  · simp only [Term.closure.sizeOf_spec]
    omega
  · have := List.sizeOf_lt_of_mem _ha
    simp only [Term.branches.sizeOf_spec]
    omega

end

/-! ## Lists of terms -/

/-- What has been read of an array literal after an entry. -/
def TermItem.infer (cx : Context) (env : Env) (st : Reading.ArrayState) :
    TermItem → Tracked Reading.ArrayState
  | .positional value => Reading.positional st (degrade (value.infer cx env cx.config.maxDepth))
  | .keyed key value =>
    Reading.keyed st (degrade (key.infer cx env cx.config.maxDepth))
      (degrade (value.infer cx env cx.config.maxDepth))

theorem Term.inferArms_eq_mapM (cx : Context) (arms : List Term) (env : Env) (depth : Nat) :
    Term.inferArms cx arms env depth = arms.mapM fun t => t.infer cx env depth := by
  induction arms with
  | nil => rfl
  | cons t rest ih => rw [Term.inferArms, List.mapM_cons, ih]

theorem Term.inferItems_eq_foldlM (cx : Context) (items : List TermItem) (env : Env)
    (st : Reading.ArrayState) :
    Term.inferItems cx items env st = items.foldlM (TermItem.infer cx env) st := by
  induction items generalizing st with
  | nil => rfl
  | cons i rest ih =>
    rw [List.foldlM_cons]
    cases i with
    | positional value =>
      rw [Term.inferItems]
      exact bind_congr ih
    | keyed key value =>
      rw [Term.inferItems]
      exact bind_congr ih

end QueryTypes
