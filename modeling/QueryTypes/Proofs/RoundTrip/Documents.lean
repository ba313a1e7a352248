import QueryTypes.Command
import QueryTypes.Proofs.RoundTrip.Texts
import QueryTypes.Proofs.RoundTrip.Types

/-!
# Documents read back

What is written of a type, an expression, a scope, a catalog, a policy or a rule is read back as the
same value, with its maps and lists in the same order (`documents_read_back`). So is its text,
whether in one line or over several lines, where the numbers in it are kept and the containers do
not nest too deep (`texts_read_back`).

Expressions are read by their tag, and the expressions inside one with a depth that is one less
(`Expr.exists_fieldsWith_eq`), so the proof is by induction on the depth. A rule object could also
have listed values in place of typed arguments, and this is tried first; as a written one has none,
the attempt fails.
-/

set_option autoImplicit false

namespace QueryTypes

/-! ## Expressions -/

/-- The document of an entry of an array literal. -/
def Item.toJson : Item → Json
  | .positional value => .obj [("value", value.toJson)]
  | .keyed key value => .obj [("key", key.toJson), ("value", value.toJson)]

namespace Expr

theorem toJsonList_eq_map (es : List Expr) : Expr.toJsonList es = es.map Expr.toJson := by
  induction es with
  | nil => simp [Expr.toJsonList]
  | cons e rest ih => simp [Expr.toJsonList, ih]

theorem toJsonItems_eq_map (items : List Item) :
    Expr.toJsonItems items = items.map Item.toJson := by
  induction items with
  | nil => simp [Expr.toJsonItems]
  | cons i rest ih => cases i <;> simp [Expr.toJsonItems, Item.toJson, ih]

/-- The expressions right inside an expression. -/
def children : Expr → List Expr
  | .call receiver _ args => receiver :: args
  | .staticCall _ _ args => args
  | .array items => items.flatMap Item.parts
  | .index target key => [target, key]
  | .property target _ => [target]
  | .closure _ body => [body]
  | .branches arms => arms
  | .entity _ | .var _ | .literal _ | .typed _ | .obscure => []

/-- The literal value or the type that an expression holds can be written. -/
def HoldsWritable : Expr → Prop
  | .literal value => value.Unrepeated
  | .typed ty => ty.Writable
  | _ => True

/-- All literal values and types inside an expression can be written. -/
inductive Writable : Expr → Prop
  | intro {e : Expr} : e.HoldsWritable → (∀ c ∈ e.children, Writable c) → Writable e

/-! ### Tags and members -/

/-- The tag of an expression. -/
def tag : Expr → String
  | .entity _ => "entity"
  | .var _ => "var"
  | .call .. => "call"
  | .staticCall .. => "static_call"
  | .literal _ => "literal"
  | .typed _ => "typed"
  | .array _ => "array"
  | .index .. => "index"
  | .property .. => "property"
  | .closure .. => "closure"
  | .branches _ => "branches"
  | .obscure => "opaque"

/-- The members of an expression beside its tag. -/
def fields : Expr → List (String × Json)
  | .entity name | .var name => [("name", .str name)]
  | .call receiver method args =>
    [("receiver", receiver.toJson), ("method", .str method), ("args", .arr (args.map toJson))]
  | .staticCall name method args =>
    [("entity", .str name), ("method", .str method), ("args", .arr (args.map toJson))]
  | .literal value => [("value", value)]
  | .typed ty => [("ty", ty.toJson)]
  | .array items => [("items", .arr (items.map Item.toJson))]
  | .index target key => [("target", target.toJson), ("key", key.toJson)]
  | .property target name => [("target", target.toJson), ("name", .str name)]
  | .closure params body => [("params", .arr (params.map .str)), ("body", body.toJson)]
  | .branches arms => [("arms", .arr (arms.map toJson))]
  | .obscure => []

/-- The members of an expression. -/
def members (e : Expr) : List (String × Json) := ("kind", .str e.tag) :: e.fields

theorem toJson_eq (e : Expr) : e.toJson = .obj e.members := by
  cases e <;>
    simp [toJson, members, tag, fields, toJsonList_eq_map, toJsonItems_eq_map, Json.strings]

theorem tag_mem (e : Expr) : e.tag ∈ tags := by
  cases e <;> simp [tag, tags]

theorem valuesOf_kind (e : Expr) : Json.valuesOf "kind" e.members = [.str e.tag] := by
  cases e <;> simp [members, fields]

/-! ### Depth -/

theorem depth_item_lt {i : Item} {e : Expr} (h : e ∈ i.parts) :
    e.toJson.depth < i.toJson.depth := by
  cases i with
  | positional value =>
    rw [List.mem_singleton.1 h]
    exact Json.depth_lt_of_mem_obj (m := ("value", value.toJson)) (by simp)
  | keyed key value =>
    rcases List.mem_cons.1 h with rfl | h
    · exact Json.depth_lt_of_mem_obj (m := ("key", e.toJson)) (by simp)
    · rw [List.mem_singleton.1 h]
      exact Json.depth_lt_of_mem_obj (m := ("value", value.toJson)) (by simp)

/-- The expressions inside an expression have less depth: each stands in a field, or in a list that
does. -/
theorem depth_child_lt {e c : Expr} (h : c ∈ e.children) : c.toJson.depth < e.toJson.depth := by
  have hfield (name : String) (j : Json) (hj : (name, j) ∈ e.fields) :
      j.depth < e.toJson.depth := by
    rw [e.toJson_eq]
    exact Json.depth_lt_of_mem_obj (List.mem_cons_of_mem _ hj)
  have hlist (name : String) (es : List Expr) (hes : (name, .arr (es.map toJson)) ∈ e.fields)
      (hc : c ∈ es) : c.toJson.depth < e.toJson.depth :=
    Nat.lt_trans (Json.depth_lt_of_mem_arr (List.mem_map_of_mem hc)) (hfield name _ hes)
  cases e with
  | entity | var | literal | typed | obscure => exact absurd h List.not_mem_nil
  | call receiver method args =>
    rcases List.mem_cons.1 h with rfl | h
    · exact hfield "receiver" _ (by simp [fields])
    · exact hlist "args" args (by simp [fields]) h
  | staticCall entity method args => exact hlist "args" args (by simp [fields]) h
  | array items =>
    obtain ⟨i, hi, hc⟩ := List.mem_flatMap.1 h
    have hitem : i.toJson.depth < (Json.arr (items.map Item.toJson)).depth :=
      Json.depth_lt_of_mem_arr (List.mem_map_of_mem hi)
    have hitems := hfield "items" (.arr (items.map Item.toJson)) (by simp [fields])
    exact Nat.lt_trans (Nat.lt_trans (depth_item_lt hc) hitem) hitems
  | index target key =>
    rcases List.mem_cons.1 h with rfl | h
    · exact hfield "target" _ (by simp [fields])
    · rw [List.mem_singleton.1 h]
      exact hfield "key" _ (by simp [fields])
  | property target name =>
    rw [List.mem_singleton.1 h]
    exact hfield "target" _ (by simp [fields])
  | closure params body =>
    rw [List.mem_singleton.1 h]
    exact hfield "body" _ (by simp [fields])
  | branches arms => exact hlist "arms" arms (by simp [fields]) h

/-! ### Fields -/

section Fields

variable {d : Json → Decode Expr}

theorem read_item {i : Item} (h : ∀ e ∈ i.parts, d e.toJson = .ok e) :
    (itemRecord d).read 2 i.toJson = .ok i := by
  cases i with
  | positional value =>
    have hkey : (Record.optional 0 "key" none (Decode.nullable d)).Gives
        [("value", value.toJson)] none :=
      .missing (by simp)
    have hvalue : (Record.required 1 "value" d).Gives [("value", value.toJson)] value :=
      .field (by simp) (h value List.mem_cons_self)
    exact ((hkey.map Item.ofKey).seq hvalue).read 2
  | keyed key value =>
    have hne : key.toJson ≠ .null := by
      rw [key.toJson_eq]
      exact nofun
    have hkey : (Record.optional 0 "key" none (Decode.nullable d)).Gives
        [("key", key.toJson), ("value", value.toJson)] (some key) :=
      .field (by simp) (Decode.nullable_eq_some hne (h key List.mem_cons_self))
    have hvalue : (Record.required 1 "value" d).Gives
        [("key", key.toJson), ("value", value.toJson)] value :=
      .field (by simp) (h value (List.mem_cons_of_mem _ List.mem_cons_self))
    exact ((hkey.map Item.ofKey).seq hvalue).read 2

/-- The fields that belong to the tag give the expression back, if the expressions inside are read
back. -/
theorem fieldsWith_members {e : Expr} (he : e.HoldsWritable)
    (h : ∀ c ∈ e.children, d c.toJson = .ok c) :
    fieldsWith d e.tag (.members e.members) = .ok e := by
  have hstring (number : Nat) (name s : String)
      (hvalues : Json.valuesOf name e.members = [.str s]) :
      (Record.required number name Decode.string).Gives e.members s := .string hvalues
  have hexpr (number : Nat) (name : String) (c : Expr) (hc : c ∈ e.children)
      (hvalues : Json.valuesOf name e.members = [c.toJson]) :
      (Record.required number name d).Gives e.members c := .field hvalues (h c hc)
  have hexprs (missing : Option (List Expr)) (number : Nat) (name : String) (cs : List Expr)
      (hcs : ∀ c ∈ cs, c ∈ e.children)
      (hvalues : Json.valuesOf name e.members = [.arr (cs.map toJson)]) :
      (Record.field missing number name (Decode.list d)).Gives e.members cs :=
    .field hvalues (Decode.list_map fun c hc => h c (hcs c hc))
  cases e with
  | entity name =>
    have hname := hstring 0 "name" name (by simp [members, fields])
    exact (hname.map Expr.entity).readFrom 1
  | var name =>
    have hname := hstring 0 "name" name (by simp [members, fields])
    exact (hname.map Expr.var).readFrom 1
  | call receiver method args =>
    have hreceiver := hexpr 0 "receiver" receiver List.mem_cons_self (by simp [members, fields])
    have hmethod := hstring 1 "method" method (by simp [members, fields])
    have hargs := hexprs (some []) 2 "args" args (fun _ => List.mem_cons_of_mem _)
      (by simp [members, fields])
    exact (((hreceiver.map Expr.call).seq hmethod).seq hargs).readFrom 3
  | staticCall name method args =>
    have hentity := hstring 0 "entity" name (by simp [members, fields])
    have hmethod := hstring 1 "method" method (by simp [members, fields])
    have hargs := hexprs (some []) 2 "args" args (fun _ => id) (by simp [members, fields])
    exact (((hentity.map Expr.staticCall).seq hmethod).seq hargs).readFrom 3
  | literal value =>
    -- reading settles repeated names, of which there are none
    have hunrepeated : value.Unrepeated := he
    have hvalue : (Record.required 0 "value" fun j => .ok j.settle).Gives
        (literal value).members value :=
      .field (j := value) (by simp [members, fields]) (congrArg Except.ok hunrepeated.settle_eq)
    exact (hvalue.map Expr.literal).readFrom 1
  | typed ty =>
    have hty : (Record.required 0 "ty" Ty.decode).Gives (typed ty).members ty :=
      .field (j := ty.toJson) (by simp [members, fields]) (Ty.decode_toJson he)
    exact (hty.map Expr.typed).readFrom 1
  | array items =>
    have hread : ∀ i ∈ items, (itemRecord d).read 2 i.toJson = .ok i := by
      intro i hi
      apply read_item
      exact fun c hc => h c (List.mem_flatMap.2 ⟨i, hi, hc⟩)
    have hitems : (Record.required 0 "items" (Decode.list (Record.read 2 (itemRecord d)))).Gives
        (array items).members items :=
      .field (j := .arr (items.map Item.toJson)) (by simp [members, fields]) (Decode.list_map hread)
    exact (hitems.map Expr.array).readFrom 1
  | index target key =>
    have htarget := hexpr 0 "target" target List.mem_cons_self (by simp [members, fields])
    have hkey := hexpr 1 "key" key (List.mem_cons_of_mem _ List.mem_cons_self)
      (by simp [members, fields])
    exact ((htarget.map Expr.index).seq hkey).readFrom 2
  | property target name =>
    have htarget := hexpr 0 "target" target List.mem_cons_self (by simp [members, fields])
    have hname := hstring 1 "name" name (by simp [members, fields])
    exact ((htarget.map Expr.property).seq hname).readFrom 2
  | closure params body =>
    have hparams : (Record.optional 0 "params" [] (Decode.list Decode.string)).Gives
        (closure params body).members params :=
      .field (j := .arr (params.map .str)) (by simp [members, fields])
        (Decode.list_map fun x _ => (Decode.string_str x).2)
    have hbody := hexpr 1 "body" body List.mem_cons_self (by simp [members, fields])
    exact ((hparams.map Expr.closure).seq hbody).readFrom 2
  | branches arms =>
    have harms := hexprs none 0 "arms" arms (fun _ => id) (by simp [members, fields])
    exact (harms.map Expr.branches).readFrom 1
  | obscure => rfl

end Fields

/-- An expression inside another one is read back to any depth that its document fits in. -/
theorem decodeTo_toJson {e : Expr} (he : e.Writable) {depth : Nat}
    (hdepth : e.toJson.depth ≤ depth) : Expr.decodeTo depth e.toJson = .ok e := by
  induction depth generalizing e with
  | zero => exact absurd hdepth (Nat.not_le.2 e.toJson.depth_pos)
  | succ depth ih =>
    obtain ⟨hholds, hchildren⟩ := he
    have hread : ∀ c ∈ e.children, Expr.decodeTo depth c.toJson = .ok c := by
      intro c hc
      have hlt := depth_child_lt hc
      exact ih (hchildren c hc) (by omega)
    have hsplit := Tag.split_members true e.valuesOf_kind e.tag_mem
    rw [e.toJson_eq, Expr.decodeTo, Expr.source]
    simp only [bind, Except.bind, hsplit]
    exact fieldsWith_members hholds hread

/-- An expression is read back from its document. -/
theorem decode_toJson {e : Expr} (he : e.Writable) : Expr.decode e.toJson = .ok e := by
  obtain ⟨hholds, hchildren⟩ := he
  have hread : ∀ c ∈ e.children, Expr.decodeTo (Json.obj e.members).depth c.toJson = .ok c := by
    intro c hc
    rw [← e.toJson_eq]
    exact decodeTo_toJson (hchildren c hc) (Nat.le_of_lt (depth_child_lt hc))
  have hsplit := Tag.split_members false e.valuesOf_kind e.tag_mem
  rw [e.toJson_eq, Expr.decode, Expr.source]
  simp only [bind, Except.bind, hsplit, fieldsWith_members hholds hread]
  rfl

end Expr

/-! ## Scopes -/

/-- The expressions of a scope can be written. -/
def Scope.Writable (s : Scope) : Prop := ∀ a ∈ s, a.value.Writable

theorem Scope.decode_toJson {s : Scope} (h : s.Writable) : Scope.decode s.toJson = .ok s := by
  apply Decode.list_map
  intro a ha
  have hname : (Record.required 0 "name" Decode.string).Gives
      [("name", .str a.name), ("value", a.value.toJson)] a.name := .string (by simp)
  have hvalue : (Record.required 1 "value" Expr.decode).Gives
      [("name", .str a.name), ("value", a.value.toJson)] a.value :=
    .field (by simp) (Expr.decode_toJson (h a ha))
  exact ((hname.map Assignment.mk).seq hvalue).read 2

/-! ## Catalogs -/

/-- The type of a column can be written. -/
def ColumnType.Writable : ColumnType → Prop
  | .sql _ => True
  | .resolved ty => ty.Writable

theorem ColumnType.decode_toJson {t : ColumnType} (h : t.Writable) :
    ColumnType.decode t.toJson = .ok t := by
  cases t with
  | sql name => rfl
  | resolved ty =>
    -- a type is written as an object, never as a name
    obtain ⟨k, slot⟩ := ty
    have hread := Ty.decode_toJson h
    rw [ColumnType.toJson]
    rw [Ty.toJson] at hread ⊢
    show (Ty.decode (.obj _)).whole.map ColumnType.resolved = _
    rw [hread]
    rfl

theorem ColumnDecl.decode_toJson {c : ColumnDecl} (h : c.type.Writable) :
    ColumnDecl.decode c.toJson = .ok c := by
  generalize hms : [("name", Json.str c.name), ("type", c.type.toJson),
    ("nullable", .bool c.nullable)] = ms
  have hname : (Record.required 0 "name" Decode.string).Gives ms c.name :=
    .string (by simp [← hms])
  have htype : (Record.required 1 "type" ColumnType.decode).Gives ms c.type :=
    .field (j := c.type.toJson) (by simp [← hms]) (ColumnType.decode_toJson h)
  have hnullable : (Record.optional 2 "nullable" false Decode.bool).Gives ms c.nullable :=
    .bool (by simp [← hms])
  rw [ColumnDecl.toJson, hms]
  exact (((hname.map ColumnDecl.mk).seq htype).seq hnullable).read 3

theorem Relation.decode_toJson (r : Relation) : Relation.decode r.toJson = .ok r := by
  have htarget : (Record.required 0 "target" Decode.string).Gives
      [("target", .str r.target), ("many", .bool r.many)] r.target := .string (by simp)
  have hmany : (Record.optional 1 "many" false Decode.bool).Gives
      [("target", .str r.target), ("many", .bool r.many)] r.many := .bool (by simp)
  exact ((htarget.map Relation.mk).seq hmany).read 2

theorem Decode.nameSet_strings (s : NameSet) : Decode.nameSet (.strings s.toList) = .ok s := by
  have hlist : Decode.list Decode.string (.strings s.toList) = .ok s.toList :=
    Decode.list_map fun x _ => (Decode.string_str x).2
  rw [Decode.nameSet, hlist]
  exact congrArg Except.ok (SortedSet.ofList_toList s)

/-- The columns of an entity can be written, and no relation is given twice. -/
structure Entity.Writable (e : Entity) : Prop where
  columns : ∀ c ∈ e.columns, c.type.Writable
  relations : e.relations.Distinct

theorem Entity.decode_toJson {e : Entity} (h : e.Writable) : Entity.decode e.toJson = .ok e := by
  generalize hms : [("table", Json.ofOption .str e.table),
    ("columns", .arr (e.columns.map ColumnDecl.toJson)), ("hidden", .strings e.hidden.toList),
    ("visible", .strings e.visible.toList),
    ("relations", .ofEntries Relation.toJson e.relations)] = ms
  have htable :
      (Record.optional 0 "table" none (Decode.nullable Decode.string)).Gives ms e.table := by
    refine .field (j := .ofOption .str e.table) (by simp [← hms]) ?_
    cases e.table <;> rfl
  have hcolumns :
      (Record.optional 1 "columns" [] (Decode.list ColumnDecl.decode)).Gives ms e.columns :=
    .field (j := .arr (e.columns.map ColumnDecl.toJson)) (by simp [← hms])
      (Decode.list_map fun c hc => ColumnDecl.decode_toJson (h.columns c hc))
  have hhidden : (Record.optional 2 "hidden" .empty Decode.nameSet).Gives ms e.hidden :=
    .field (j := .strings e.hidden.toList) (by simp [← hms]) (Decode.nameSet_strings e.hidden)
  have hvisible : (Record.optional 3 "visible" .empty Decode.nameSet).Gives ms e.visible :=
    .field (j := .strings e.visible.toList) (by simp [← hms]) (Decode.nameSet_strings e.visible)
  have hrelations :
      (Record.optional 4 "relations" [] (Decode.entries Relation.decode)).Gives ms e.relations :=
    .field (j := .ofEntries Relation.toJson e.relations) (by simp [← hms])
      (Decode.entries_map h.relations fun r _ => r.2.decode_toJson)
  rw [Entity.toJson, hms]
  exact (((((htable.map Entity.mk).seq hcolumns).seq hhidden).seq hvisible).seq hrelations).read 5

theorem Enumeration.decode_toJson {e : Enumeration} (h : ∀ l ∈ e.values, l.Finite) :
    Enumeration.decode e.toJson = .ok e := by
  generalize hms : [("backing", Json.str e.backing.name),
    ("values", .arr (e.values.map Literal.toJson))] = ms
  have hbacking : (Record.required 0 "backing" (ScalarKind.decode false)).Gives ms e.backing :=
    .field (j := .str e.backing.name) (by simp [← hms]) (e.backing.decode_name false)
  have hvalues : (Record.required 1 "values" (Decode.list Literal.decode)).Gives ms e.values :=
    .field (j := .arr (e.values.map Literal.toJson)) (by simp [← hms])
      (Decode.list_map fun l hl => Literal.decode_toJson (h l hl))
  rw [Enumeration.toJson, hms]
  exact ((hbacking.map Enumeration.mk).seq hvalues).read 2

/-- No entity and no enumeration is given twice, the entities can be written, and the values of the
enumerations are finite. -/
structure Catalog.Writable (c : Catalog) : Prop where
  entities_distinct : c.entities.Distinct
  entities : ∀ e ∈ c.entities, e.2.Writable
  enums_distinct : c.enums.Distinct
  enums : ∀ e ∈ c.enums, ∀ l ∈ e.2.values, l.Finite

theorem Catalog.decode_toJson {c : Catalog} (h : c.Writable) : Catalog.decode c.toJson = .ok c := by
  generalize hms : [("entities", Json.ofEntries Entity.toJson c.entities),
    ("enums", .ofEntries Enumeration.toJson c.enums)] = ms
  have hentities :
      (Record.optional 0 "entities" [] (Decode.entries Entity.decode)).Gives ms c.entities :=
    .field (j := .ofEntries Entity.toJson c.entities) (by simp [← hms])
      (Decode.entries_map h.entities_distinct fun e he => Entity.decode_toJson (h.entities e he))
  have henums :
      (Record.optional 1 "enums" [] (Decode.entries Enumeration.decode)).Gives ms c.enums :=
    .field (j := .ofEntries Enumeration.toJson c.enums) (by simp [← hms])
      (Decode.entries_map h.enums_distinct fun e he => Enumeration.decode_toJson (h.enums e he))
  rw [Catalog.toJson, hms]
  exact ((hentities.map Catalog.mk).seq henums).read 2

/-! ## Policies -/

theorem Config.decode_toJson {c : Config} (h : c.maxDepth < Numeral.natBound) :
    Config.decode c.toJson = .ok c := by
  generalize hms : [("max_depth", Json.nat c.maxDepth),
    ("verify_builder_methods", .bool c.verifyMethods),
    ("strict", .bool c.strict), ("default_rule_type", .str c.defaultRuleKind.name)] = ms
  have hnat : Decode.nat64 (.nat c.maxDepth) = .ok c.maxDepth := by
    have hbounds : (0 : Int) ≤ c.maxDepth ∧ (c.maxDepth : Int) < Numeral.natBound := by omega
    rw [Json.nat, Decode.nat64, if_pos hbounds, Int.toNat_natCast]
  have hdepth : (Record.optional 0 "max_depth" defaultDepth Decode.nat64).Gives ms c.maxDepth :=
    .field (j := .nat c.maxDepth) (by simp [← hms]) hnat
  have hverify : (Record.optional 1 "verify_builder_methods" false Decode.bool).Gives ms
      c.verifyMethods := .bool (by simp [← hms])
  have hstrict : (Record.optional 2 "strict" false Decode.bool).Gives ms c.strict :=
    .bool (by simp [← hms])
  have hkind :
      (Record.optional 3 "default_rule_type" .string (ScalarKind.decode false)).Gives ms
        c.defaultRuleKind :=
    .field (j := .str c.defaultRuleKind.name) (by simp [← hms])
      (c.defaultRuleKind.decode_name false)
  rw [Config.toJson, hms]
  exact ((((hdepth.map Config.mk).seq hverify).seq hstrict).seq hkind).read 4

/-! ## Rules -/

namespace Rules

/-- The arguments of a rule can be written. -/
def RuleToken.Writable : RuleToken → Prop
  | .text _ => True
  | .object o => ∀ t ∈ o.args, t.Writable

/-- What rule an object is, is read from its members, beside a list of arguments. -/
theorem RuleClass.decode_toMembers (c : RuleClass) (args : Json) :
    RuleClass.decode (.members (c.toMembers ++ [("args", args)])) = .ok c := by
  -- only enumerations and unknown rules have a name of their own
  have hname (tag name : String) : (Record.required 0 "name" Decode.string).Gives
      [("rule", .str tag), ("name", .str name), ("args", args)] name := .string (by simp)
  cases c with
  | inclusion | exclusion | password | email => rfl
  | enumeration name => exact ((hname "enum" name).map RuleClass.enumeration).readFrom 1
  | other name => exact ((hname "other" name).map RuleClass.other).readFrom 1

theorem RuleClass.valuesOf_toMembers {name : String} (c : RuleClass) (h : name ∉ ["rule", "name"]) :
    Json.valuesOf name c.toMembers = [] := by
  simp only [List.mem_cons, List.not_mem_nil, or_false, not_or] at h
  cases c <;> simp [RuleClass.toMembers, Ne.symm h.1, Ne.symm h.2]

theorem RuleObject.decode_toMembers {o : RuleObject} (h : ∀ t ∈ o.args, t.Writable) :
    RuleObject.decode (.obj (o.class_.toMembers ++ [("args", .arr (o.args.map Ty.toJson))])) =
      .ok o := by
  generalize hms : o.class_.toMembers ++ [("args", Json.arr (o.args.map Ty.toJson))] = ms
  have hclass : (Record.atEnd RuleClass.decode).Gives ms o.class_ :=
    .atEnd (hms ▸ o.class_.decode_toMembers _)
  have hargs : (Record.optional 1 "args" [] (Decode.list Ty.decode)).Gives ms o.args := by
    refine .field (j := .arr (o.args.map Ty.toJson)) ?_
      (Decode.list_map fun t ht => Ty.decode_toJson (h t ht))
    rw [← hms, Json.valuesOf_append, o.class_.valuesOf_toMembers (by decide)]
    simp
  exact ((hclass.map RuleObject.mk).seq hargs).readObject

/-- A written rule object has no listed values. -/
theorem RuleObject.decodeValues_toMembers (c : RuleClass) (args : Json) :
    RuleObject.decodeValues (.obj (c.toMembers ++ [("args", args)])) = .error [] := by
  have hclass : (Record.atEnd RuleClass.decode).Gives (c.toMembers ++ [("args", args)]) c :=
    .atEnd (c.decode_toMembers args)
  apply Record.readObject_missing (hclass.map RuleObject.ofValues)
  rw [Json.valuesOf_append, c.valuesOf_toMembers (by decide)]
  simp

/-- A token is read back, whether or not values may be listed. -/
theorem RuleToken.decode_toJson {r : RuleToken} (h : r.Writable) :
    RuleToken.decodeTyped r.toJson = .ok r ∧ RuleToken.decode r.toJson = .ok r := by
  cases r with
  | text s => exact ⟨rfl, rfl⟩
  | object o =>
    have hread := RuleObject.decode_toMembers h
    have hlisted := RuleObject.decodeValues_toMembers o.class_ (.arr (o.args.map Ty.toJson))
    constructor
    · show (RuleObject.decode (.obj _)).map RuleToken.object = _
      rw [hread]
      rfl
    · -- the form with listed values is tried first, and it fails
      show ((RuleObject.decodeValues (.obj _)).orElse (RuleObject.decode (.obj _))).map
        RuleToken.object = _
      rw [hlisted, hread]
      rfl

end Rules

/-! ## All documents -/

/-- Reading undoes writing: what is written of a type, an expression, a scope, a catalog, a policy
or a rule is read back as the same value. -/
theorem documents_read_back :
    (∀ t : Ty, t.Writable → Ty.decode t.toJson = .ok t) ∧
      (∀ e : Expr, e.Writable → Expr.decode e.toJson = .ok e) ∧
      (∀ s : Scope, s.Writable → Scope.decode s.toJson = .ok s) ∧
      (∀ c : Catalog, c.Writable → Catalog.decode c.toJson = .ok c) ∧
      (∀ c : Config, c.maxDepth < Numeral.natBound → Config.decode c.toJson = .ok c) ∧
      (∀ r : Rules.RuleToken, r.Writable →
        Rules.RuleToken.decodeTyped r.toJson = .ok r ∧ Rules.RuleToken.decode r.toJson = .ok r) :=
  ⟨fun _ => Ty.decode_toJson, fun _ => Expr.decode_toJson, fun _ => Scope.decode_toJson,
    fun _ => Catalog.decode_toJson, fun _ => Config.decode_toJson,
    fun _ => Rules.RuleToken.decode_toJson⟩

/-- A row with bounded prices and a shape, inside an expression, a scope, a catalog and a rule. -/
theorem documents_read_back_row :
    let prices : Scalar :=
      ⟨.float, ⟨[.int 1, .float .zero], by decide⟩, none, some .zero, none, none⟩
    let price : Ty := .mk (.scalar prices) ⟨true, none, ["1"]⟩
    let row : Ty :=
      .mk (.object [("price", price), ("tags", .shape [("0", .string)])] (some "Item"))
      ⟨false, some "kind", []⟩
    let e : Expr :=
      .call (.entity "Item") "map" [.typed row, .literal (.obj [("kind", .float .zero)])]
    let columns : List ColumnDecl := [⟨"row", .resolved row, true⟩, ⟨"id", .sql "int", false⟩]
    let item : Entity := ⟨none, columns, .empty, .empty, [("owner", ⟨"User", true⟩)]⟩
    let c : Catalog := ⟨[("Item", item)], [("Size", ⟨.float, [.float .zero]⟩)]⟩
    let rule : Rules.RuleToken := .object ⟨.enumeration "Size", [row]⟩
    row.Writable ∧ Ty.decode row.toJson = .ok row ∧ e.Writable ∧ Expr.decode e.toJson = .ok e ∧
      Scope.decode (Scope.toJson [⟨"items", e⟩]) = .ok [⟨"items", e⟩] ∧
      c.Writable ∧ Catalog.decode c.toJson = .ok c ∧ Config.decode (Config.toJson {}) = .ok {} ∧
      rule.Writable ∧ Rules.RuleToken.decode rule.toJson = .ok rule := by
  intro prices price row e columns item c rule
  obtain ⟨hty, hexpr, hscope, hcatalog, hconfig, hrule⟩ := documents_read_back
  have hfinite : Double.zero.isFinite = true := by decide
  have hliterals : ∀ l ∈ [Literal.int 1, .float .zero], l.Finite :=
    List.forall_mem_cons.2 ⟨trivial, List.forall_mem_singleton.2 hfinite⟩
  have hprice : price.Writable := by
    refine .scalar _ ⟨hliterals, ?_, nofun⟩
    rintro x ⟨⟩
    exact hfinite
  have hstring : Ty.string.Writable :=
    .scalar _ ⟨fun _ hl => absurd hl List.not_mem_nil, nofun, nofun⟩
  have htags : (Ty.shape [("0", .string)]).Writable := by
    refine .array _ _ nofun nofun ?_ ?_
    · rintro es ⟨⟩
      exact List.nodup_singleton _
    · rintro es ⟨⟩
      exact List.forall_mem_singleton.2 hstring
  have hrow : row.Writable := by
    refine .object _ _ (by simp [Entries.Distinct, Entries.keys]) ?_
    exact List.forall_mem_cons.2 ⟨hprice, List.forall_mem_singleton.2 htags⟩
  have hliteral : (Json.obj [("kind", .float .zero)]).Unrepeated :=
    .obj (List.nodup_singleton _) (List.forall_mem_singleton.2 (.float .zero))
  have he : e.Writable := by
    refine .intro trivial (List.forall_mem_cons.2 ⟨.intro trivial ?_, ?_⟩)
    · exact fun _ hc => absurd hc List.not_mem_nil
    · refine List.forall_mem_cons.2
        ⟨.intro hrow ?_, List.forall_mem_singleton.2 (.intro hliteral ?_)⟩
      · exact fun _ hc => absurd hc List.not_mem_nil
      · exact fun _ hc => absurd hc List.not_mem_nil
  have hentity : ∀ entry ∈ c.entities, entry.2.Writable := by
    refine List.forall_mem_singleton.2 ⟨?_, List.nodup_singleton _⟩
    exact List.forall_mem_cons.2 ⟨hrow, List.forall_mem_singleton.2 trivial⟩
  have henums : ∀ entry ∈ c.enums, ∀ l ∈ entry.2.values, l.Finite :=
    List.forall_mem_singleton.2 (List.forall_mem_singleton.2 hfinite)
  have hc : c.Writable := ⟨List.nodup_singleton _, hentity, List.nodup_singleton _, henums⟩
  have harguments : rule.Writable := List.forall_mem_singleton.2 hrow
  exact ⟨hrow, hty row hrow, he, hexpr e he, hscope _ (List.forall_mem_singleton.2 he), hc,
    hcatalog c hc, hconfig {} (by decide), harguments, (hrule rule harguments).2⟩

/-! ## Texts of documents -/

/-- The document is read back from its texts. -/
structure Json.Legible (j : Json) : Prop where
  numbers : j.KeepsNumbers
  nesting : j.nesting < Json.Reader.nestingBound

/-- The reader of a kind of document gives the value for the document's texts, of one line and of
several. -/
def Decode.ReadsTexts {α : Type} (d : Json → Decode α) (j : Json) (a : α) : Prop :=
  (Json.read? j.render).map d = some (.ok a) ∧ (Json.read? j.pretty).map d = some (.ok a)

theorem Json.Legible.readsTexts {α : Type} {j : Json} (h : j.Legible) {d : Json → Decode α} {a : α}
    (hd : d j = .ok a) : Decode.ReadsTexts d j a := by
  rw [Decode.ReadsTexts, Json.read?_render h.numbers, Json.read?_pretty h.numbers, if_pos h.nesting,
    Option.map_some, hd]
  exact ⟨rfl, rfl⟩

/-- A policy has no doubles, and its document is flat. -/
theorem Config.legible_toJson {c : Config} (h : c.maxDepth < Numeral.natBound) :
    c.toJson.Legible where
  numbers := by
    have hdepth : (Json.nat c.maxDepth).KeepsNumbers := .int (.inr ⟨by omega, by omega⟩)
    refine .obj (List.forall_mem_cons.2 ⟨hdepth, List.forall_mem_cons.2 ⟨.bool _, ?_⟩⟩)
    exact List.forall_mem_cons.2 ⟨.bool _, List.forall_mem_singleton.2 (.str _)⟩
  nesting := by
    have hflat : c.toJson.nesting = 1 := rfl
    rw [hflat]
    decide

/-- Reading undoes writing also through a text, if the text keeps the document. That of a policy
does. -/
theorem texts_read_back :
    (∀ t : Ty, t.Writable → t.toJson.Legible → Decode.ReadsTexts Ty.decode t.toJson t) ∧
      (∀ e : Expr, e.Writable → e.toJson.Legible → Decode.ReadsTexts Expr.decode e.toJson e) ∧
      (∀ s : Scope, s.Writable → s.toJson.Legible → Decode.ReadsTexts Scope.decode s.toJson s) ∧
      (∀ c : Catalog, c.Writable → c.toJson.Legible → Decode.ReadsTexts Catalog.decode c.toJson c) ∧
      (∀ c : Config, c.maxDepth < Numeral.natBound → Decode.ReadsTexts Config.decode c.toJson c) ∧
      (∀ r : Rules.RuleToken, r.Writable → r.toJson.Legible →
        Decode.ReadsTexts Rules.RuleToken.decode r.toJson r) :=
  ⟨fun _ h hj => hj.readsTexts (Ty.decode_toJson h),
    fun _ h hj => hj.readsTexts (Expr.decode_toJson h),
    fun _ h hj => hj.readsTexts (Scope.decode_toJson h),
    fun _ h hj => hj.readsTexts (Catalog.decode_toJson h),
    fun _ h => (Config.legible_toJson h).readsTexts (Config.decode_toJson h),
    fun _ h hj => hj.readsTexts (Rules.RuleToken.decode_toJson h).2⟩

/-- A command without a filter finds the document in a file that holds its text. -/
theorem Command.documents_render {c : Command} (hfilter : c.filter = none) {j : Json}
    (hlegible : j.Legible) (hunrepeated : j.Unrepeated) (path : String) :
    c.documents path (some j.render) = .ok [j] := by
  rw [Command.documents, Json.read?_render hlegible.numbers, if_pos hlegible.nesting]
  dsimp only
  rw [hfilter, hunrepeated.settle_eq]

end QueryTypes
