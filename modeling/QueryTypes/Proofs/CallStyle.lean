import QueryTypes.Proofs.Substitution

/-!
# Calls on the name of an entity

A chain can start with a method called on the name of an entity (`Expr.staticCall`) or with one
called on the entity as a receiver. `Expr.receiverStyle` writes every call of the first kind, at any
depth, as one of the second kind, so that no call on a name is left
(`Expr.isReceiverStyle_receiverStyle`).

Both ways of writing have the same term, in every scope and inside every closure
(`Expr.link_receiverStyle`), and inference reads terms only. Hence the two are inferred alike
(`infer_receiverStyle`): with the same type or failure, the same notes and the same kept rows.
-/

set_option autoImplicit false

namespace QueryTypes

/-! ## Receiver style -/

mutual

/-- The expression with every method that is called on the name of an entity called on the entity
instead. -/
def Expr.receiverStyle : Expr → Expr
  | .entity name => .entity name
  | .var name => .var name
  | .call receiver method args =>
    .call receiver.receiverStyle method (Expr.receiverStyleList args)
  | .staticCall name method args => .call (.entity name) method (Expr.receiverStyleList args)
  | .literal value => .literal value
  | .typed ty => .typed ty
  | .array items => .array (Expr.receiverStyleItems items)
  | .index target key => .index target.receiverStyle key.receiverStyle
  | .property target name => .property target.receiverStyle name
  | .closure params body => .closure params body.receiverStyle
  | .branches arms => .branches (Expr.receiverStyleList arms)
  | .obscure => .obscure

/-- The expressions in receiver style. -/
def Expr.receiverStyleList : List Expr → List Expr
  | [] => []
  | e :: rest => e.receiverStyle :: Expr.receiverStyleList rest

/-- The entries of an array literal in receiver style. -/
def Expr.receiverStyleItems : List Item → List Item
  | [] => []
  | .positional value :: rest =>
    .positional value.receiverStyle :: Expr.receiverStyleItems rest
  | .keyed key value :: rest =>
    .keyed key.receiverStyle value.receiverStyle :: Expr.receiverStyleItems rest

end

/-- The scope with every assigned expression in receiver style. -/
def Scope.receiverStyle (s : Scope) : Scope :=
  s.map fun a => ⟨a.name, a.value.receiverStyle⟩

mutual

/-- No method is called on the name of an entity, at any depth. -/
def Expr.IsReceiverStyle : Expr → Prop
  | .staticCall .. => False
  | .call receiver _ args => receiver.IsReceiverStyle ∧ Expr.AreReceiverStyle args
  | .array items => Expr.ItemsReceiverStyle items
  | .index target key => target.IsReceiverStyle ∧ key.IsReceiverStyle
  | .property target _ => target.IsReceiverStyle
  | .closure _ body => body.IsReceiverStyle
  | .branches arms => Expr.AreReceiverStyle arms
  | .entity _ | .var _ | .literal _ | .typed _ | .obscure => True

/-- No method is called on the name of an entity in any of the expressions. -/
def Expr.AreReceiverStyle : List Expr → Prop
  | [] => True
  | e :: rest => e.IsReceiverStyle ∧ Expr.AreReceiverStyle rest

/-- No method is called on the name of an entity in any entry of an array literal. -/
def Expr.ItemsReceiverStyle : List Item → Prop
  | [] => True
  | .positional value :: rest => value.IsReceiverStyle ∧ Expr.ItemsReceiverStyle rest
  | .keyed key value :: rest =>
    key.IsReceiverStyle ∧ value.IsReceiverStyle ∧ Expr.ItemsReceiverStyle rest

end

theorem Expr.areReceiverStyle_list {es : List Expr}
    (ih : ∀ e ∈ es, e.receiverStyle.IsReceiverStyle) :
    Expr.AreReceiverStyle (Expr.receiverStyleList es) := by
  induction es with
  | nil => trivial
  | cons e rest ihs =>
    rw [Expr.receiverStyleList]
    constructor
    · exact ih e List.mem_cons_self
    · apply ihs
      intro a ha
      exact ih a (List.mem_cons_of_mem _ ha)

theorem Expr.itemsReceiverStyle_items {items : List Item}
    (ih : ∀ i ∈ items, ∀ e ∈ i.parts, e.receiverStyle.IsReceiverStyle) :
    Expr.ItemsReceiverStyle (Expr.receiverStyleItems items) := by
  induction items with
  | nil => trivial
  | cons i rest ihs =>
    have hi := ih i List.mem_cons_self
    have hrest := ihs fun j hj => ih j (List.mem_cons_of_mem _ hj)
    cases i with
    | positional value =>
      rw [Expr.receiverStyleItems]
      exact ⟨hi value (by simp [Item.parts]), hrest⟩
    | keyed key value =>
      rw [Expr.receiverStyleItems]
      exact ⟨hi key (by simp [Item.parts]), hi value (by simp [Item.parts]), hrest⟩

/-- No call on a name is left. -/
theorem Expr.isReceiverStyle_receiverStyle (e : Expr) : e.receiverStyle.IsReceiverStyle := by
  induction e using Expr.rec' with
  | entity | var | literal | typed | obscure => trivial
  | call receiver method args ihr iha => exact ⟨ihr, Expr.areReceiverStyle_list iha⟩
  | staticCall entity method args iha => exact ⟨trivial, Expr.areReceiverStyle_list iha⟩
  | array items ih => exact Expr.itemsReceiverStyle_items ih
  | index target key iht ihk => exact ⟨iht, ihk⟩
  | property target name iht => exact iht
  | closure params body ih => exact ih
  | branches arms ih => exact Expr.areReceiverStyle_list ih

/-! ## One term for both styles -/

section

variable {defs : Definitions} {params : List String}

theorem Expr.linkList_receiverStyle {es : List Expr}
    (ih : ∀ e ∈ es, e.receiverStyle.link defs params = e.link defs params) :
    Expr.linkList defs params (Expr.receiverStyleList es) = Expr.linkList defs params es := by
  induction es with
  | nil => rfl
  | cons e rest ihs =>
    have he := ih e List.mem_cons_self
    have hrest := ihs fun a ha => ih a (List.mem_cons_of_mem _ ha)
    rw [Expr.receiverStyleList, Expr.linkList, Expr.linkList, he, hrest]

theorem Expr.linkItems_receiverStyle {items : List Item}
    (ih : ∀ i ∈ items, ∀ e ∈ i.parts, e.receiverStyle.link defs params = e.link defs params) :
    Expr.linkItems defs params (Expr.receiverStyleItems items) =
      Expr.linkItems defs params items := by
  induction items with
  | nil => rfl
  | cons i rest ihs =>
    have hi := ih i List.mem_cons_self
    have hrest := ihs fun j hj => ih j (List.mem_cons_of_mem _ hj)
    cases i with
    | positional value =>
      have hvalue := hi value (by simp [Item.parts])
      rw [Expr.receiverStyleItems, Expr.linkItems, Expr.linkItems, hvalue, hrest]
    | keyed key value =>
      have hkey := hi key (by simp [Item.parts])
      have hvalue := hi value (by simp [Item.parts])
      rw [Expr.receiverStyleItems, Expr.linkItems, Expr.linkItems, hkey, hvalue, hrest]

end

/-- An expression and its receiver style have the same term under the same definitions. -/
theorem Expr.link_receiverStyle (defs : Definitions) (e : Expr) :
    ∀ params : List String, e.receiverStyle.link defs params = e.link defs params := by
  -- the parameters vary: a body is linked under those of its closure as well
  induction e using Expr.rec' with
  | entity | var | literal | typed | obscure =>
    intro params
    rfl
  | call receiver method args ihr iha =>
    intro params
    rw [Expr.receiverStyle, Expr.link, Expr.link, ihr params,
      Expr.linkList_receiverStyle fun a ha => iha a ha params]
  | staticCall entity method args iha =>
    -- here the two differ, and linking makes them one
    intro params
    rw [Expr.receiverStyle, Expr.link, Expr.link, Expr.link,
      Expr.linkList_receiverStyle fun a ha => iha a ha params]
  | array items ih =>
    intro params
    rw [Expr.receiverStyle, Expr.link, Expr.link,
      Expr.linkItems_receiverStyle fun i hi a ha => ih i hi a ha params]
  | index target key iht ihk =>
    intro params
    rw [Expr.receiverStyle, Expr.link, Expr.link, iht params, ihk params]
  | property target name iht =>
    intro params
    rw [Expr.receiverStyle, Expr.link, Expr.link, iht params]
  | closure own body ih =>
    intro params
    rw [Expr.receiverStyle, Expr.link, Expr.link, ih (own ++ params)]
  | branches arms ih =>
    intro params
    rw [Expr.receiverStyle, Expr.link, Expr.link,
      Expr.linkList_receiverStyle fun a ha => ih a ha params]

/-- The definitions of a scope do not depend on the style of its assignments. -/
theorem Scope.definitions_receiverStyle (s : Scope) :
    s.receiverStyle.definitions = s.definitions := by
  rw [definitions, definitions, receiverStyle, List.foldl_map]
  congr 1
  funext defs a
  rw [Expr.link_receiverStyle]

/-- The term of an expression depends on the style neither of the expression nor of the scope. -/
theorem Scope.term_receiverStyle (s : Scope) (e : Expr) :
    s.receiverStyle.term e.receiverStyle = s.term e := by
  rw [term, term, definitions_receiverStyle, Expr.link_receiverStyle]

/-- Writing every call on the name of an entity as a call on the entity, in an expression and in its
scope, leaves no call on a name and does not change the inference. -/
theorem infer_receiverStyle (cx : Context) (s : Scope) (e : Expr) :
    e.receiverStyle.IsReceiverStyle ∧
      (∀ a ∈ s.receiverStyle, a.value.IsReceiverStyle) ∧
      infer cx s.receiverStyle e.receiverStyle = infer cx s e := by
  refine ⟨e.isReceiverStyle_receiverStyle, ?_, ?_⟩
  · intro a ha
    obtain ⟨b, -, rfl⟩ := List.mem_map.1 ha
    exact b.value.isReceiverStyle_receiverStyle
  · rw [infer, infer, Scope.term_receiverStyle]

end QueryTypes
