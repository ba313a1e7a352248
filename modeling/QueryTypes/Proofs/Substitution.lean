import QueryTypes.Inference.Engine
import QueryTypes.Proofs.Structure

/-!
# Substitution for variables

An assignment and a substitution say the same thing: inferring an expression after `q := e` is
inferring, without the assignment, the expression with `e` in place of every free `q`
(`infer_assign`). The two inferences are equal as computations, so they also record the same notes
and keep the same rows.

Variables are resolved by linking (`Expr.link`), so the law is one about linking. It rests on two
facts. The term of an expression depends only on what its free variables stand for
(`Expr.link_congr`); this is weakening, for definitions and for parameters at once. And a definition
in front of the others is the same as a substitution (`Expr.link_subst`), provided no closure around
a replaced variable has a parameter that is free in the expression put there (`Expr.Admits`).
-/

set_option autoImplicit false

namespace QueryTypes

/-! ## Free variables -/

mutual

/-- A variable is free in an expression: it occurs outside of closures that have it as a
parameter. -/
def Expr.Free (x : String) : Expr → Prop
  | .var name => name = x
  | .call receiver _ args => receiver.Free x ∨ Expr.FreeList x args
  | .staticCall _ _ args => Expr.FreeList x args
  | .array items => Expr.FreeItems x items
  | .index target key => target.Free x ∨ key.Free x
  | .property target _ => target.Free x
  | .closure params body => x ∉ params ∧ body.Free x
  | .branches arms => Expr.FreeList x arms
  | .entity _ | .literal _ | .typed _ | .obscure => False

/-- A variable is free in one of the expressions. -/
def Expr.FreeList (x : String) : List Expr → Prop
  | [] => False
  | e :: rest => e.Free x ∨ Expr.FreeList x rest

/-- A variable is free in one of the entries of an array literal. -/
def Expr.FreeItems (x : String) : List Item → Prop
  | [] => False
  | .positional value :: rest => value.Free x ∨ Expr.FreeItems x rest
  | .keyed key value :: rest => key.Free x ∨ value.Free x ∨ Expr.FreeItems x rest

end

theorem Expr.freeList_of_mem {x : String} {e : Expr} {es : List Expr} (he : e ∈ es)
    (hx : e.Free x) : Expr.FreeList x es := by
  induction es with
  | nil => exact absurd he List.not_mem_nil
  | cons a rest ih =>
    rcases List.mem_cons.1 he with rfl | he
    · exact Or.inl hx
    · exact Or.inr (ih he)

theorem Expr.freeItems_of_mem {x : String} {e : Expr} {i : Item} {items : List Item}
    (hi : i ∈ items) (he : e ∈ i.parts) (hx : e.Free x) : Expr.FreeItems x items := by
  induction items with
  | nil => exact absurd hi List.not_mem_nil
  | cons j rest ih =>
    rcases List.mem_cons.1 hi with rfl | hrest
    · cases i with
      | positional value =>
        rw [Item.parts, List.mem_singleton] at he
        exact Or.inl (he ▸ hx)
      | keyed key value =>
        simp only [Item.parts, List.mem_cons, List.not_mem_nil, or_false] at he
        rcases he with rfl | rfl
        · exact Or.inl hx
        · exact Or.inr (Or.inl hx)
    · cases j with
      | positional value => exact Or.inr (ih hrest)
      | keyed key value => exact Or.inr (Or.inr (ih hrest))

/-! ## Terms depend on free variables only -/

/-- The term of an entry of an array literal. -/
def Item.link (defs : Definitions) (params : List String) : Item → TermItem
  | .positional value => .positional (value.link defs params)
  | .keyed key value => .keyed (key.link defs params) (value.link defs params)

@[simp] theorem Expr.linkItems_eq_map (defs : Definitions) (params : List String)
    (items : List Item) : Expr.linkItems defs params items = items.map (Item.link defs params) := by
  induction items with
  | nil => rfl
  | cons i rest ih =>
    cases i with
    | positional value => rw [Expr.linkItems, ih, List.map_cons, Item.link]
    | keyed key value => rw [Expr.linkItems, ih, List.map_cons, Item.link]

/-- Entries whose parts have the same terms have the same term. -/
theorem Item.link_congr {defs defs' : Definitions} {params params' : List String} {i : Item}
    (h : ∀ e ∈ i.parts, e.link defs params = e.link defs' params') :
    i.link defs params = i.link defs' params' := by
  cases i with
  | positional value => rw [link, link, h value (by simp [parts])]
  | keyed key value => rw [link, link, h key (by simp [parts]), h value (by simp [parts])]

/-- A variable stands for the same thing in two places: for a parameter in both, or for the same
definition. -/
def Definitions.AgreeAt (defs defs' : Definitions) (params params' : List String) (x : String) :
    Prop :=
  (x ∈ params ↔ x ∈ params') ∧ (x ∉ params → defs.lookup x = defs'.lookup x)

/-- The term of an expression depends only on what its free variables stand for. -/
theorem Expr.link_congr {defs defs' : Definitions} (e : Expr) :
    ∀ params params' : List String, (∀ x, e.Free x → defs.AgreeAt defs' params params' x) →
      e.link defs params = e.link defs' params' := by
  induction e using Expr.rec' with
  | entity name => intros; rfl
  | literal value => intros; rfl
  | typed ty => intros; rfl
  | obscure => intros; rfl
  | var name =>
    intro params params' h
    obtain ⟨hmem, hdef⟩ := h name rfl
    by_cases hp : name ∈ params
    · rw [Expr.link, Expr.link, if_pos hp, if_pos (hmem.1 hp)]
    · rw [Expr.link, Expr.link, if_neg hp, if_neg fun hp' => hp (hmem.2 hp'), hdef hp]
  | call receiver method args ihr iha =>
    intro params params' h
    have hr := ihr params params' fun x hx => h x (Or.inl hx)
    have ha : ∀ a ∈ args, a.link defs params = a.link defs' params' := fun a ha =>
      iha a ha params params' fun x hx => h x (Or.inr (Expr.freeList_of_mem ha hx))
    simp only [Expr.link, Expr.linkList_eq_map, hr, List.map_congr_left ha]
  | staticCall entity method args iha =>
    intro params params' h
    have ha : ∀ a ∈ args, a.link defs params = a.link defs' params' := fun a ha =>
      iha a ha params params' fun x hx => h x (Expr.freeList_of_mem ha hx)
    simp only [Expr.link, Expr.linkList_eq_map, List.map_congr_left ha]
  | array items ih =>
    intro params params' h
    have hi : ∀ i ∈ items, i.link defs params = i.link defs' params' := fun i hi =>
      Item.link_congr fun e he =>
        ih i hi e he params params' fun x hx => h x (Expr.freeItems_of_mem hi he hx)
    simp only [Expr.link, Expr.linkItems_eq_map, List.map_congr_left hi]
  | index target key iht ihk =>
    intro params params' h
    have ht := iht params params' fun x hx => h x (Or.inl hx)
    have hk := ihk params params' fun x hx => h x (Or.inr hx)
    rw [Expr.link, Expr.link, ht, hk]
  | property target name iht =>
    intro params params' h
    rw [Expr.link, Expr.link, iht params params' h]
  | closure own body ih =>
    intro params params' h
    have hbody : ∀ x, body.Free x → defs.AgreeAt defs' (own ++ params) (own ++ params') x := by
      intro x hx
      by_cases hown : x ∈ own
      · -- a parameter of this closure is one on both sides
        exact ⟨by simp [hown], fun hn => absurd (List.mem_append_left _ hown) hn⟩
      · obtain ⟨hmem, hdef⟩ := h x ⟨hown, hx⟩
        refine ⟨by simp [hown, hmem], fun hn => hdef fun hp => hn ?_⟩
        exact List.mem_append_right _ hp
    rw [Expr.link, Expr.link, ih _ _ hbody]
  | branches arms ih =>
    intro params params' h
    have ha : ∀ a ∈ arms, a.link defs params = a.link defs' params' := fun a ha =>
      ih a ha params params' fun x hx => h x (Expr.freeList_of_mem ha hx)
    simp only [Expr.link, Expr.linkList_eq_map, List.map_congr_left ha]

/-- Parameters that are not free in an expression do not change its term. -/
theorem Expr.link_of_not_free {defs : Definitions} {e : Expr} {params : List String}
    (h : ∀ p ∈ params, ¬ e.Free p) : e.link defs params = e.link defs [] := by
  refine Expr.link_congr e params [] fun x hx => ⟨?_, fun _ => rfl⟩
  have hn : x ∉ params := fun hp => h x hp hx
  simp [hn]

/-- A definition in front of the others does not matter below a parameter of its name. -/
theorem Expr.link_of_shadowed {defs : Definitions} {e : Expr} {q : String} {t : Term}
    {params : List String} (h : q ∈ params) :
    e.link ((q, t) :: defs) params = e.link defs params := by
  refine Expr.link_congr e params params fun x _ => ⟨Iff.rfl, fun hn => ?_⟩
  have hne : x ≠ q := fun hxq => hn (hxq ▸ h)
  rw [List.lookup_cons, beq_eq_false_iff_ne.2 hne]

/-- What holds of all definitions, and of the unknown term, holds of what a variable stands for. -/
theorem Definitions.forall_lookup {defs : Definitions} {P : Term → Prop} (hdefs : ∀ d ∈ defs, P d.2)
    (hunknown : P .unknown) (x : String) : P ((defs.lookup x).getD .unknown) := by
  cases hfind : defs.lookup x with
  | none => exact hunknown
  | some t =>
    obtain ⟨later, earlier, rfl, -⟩ := List.lookup_eq_some_iff.1 hfind
    exact hdefs (x, t) (List.mem_append_right _ List.mem_cons_self)

/-! ## Substitution -/

mutual

/-- The expression with `e` in place of every free `q`. -/
def Expr.subst (q : String) : Expr → Expr → Expr
  | .entity name, _ => .entity name
  | .var name, e => if name = q then e else .var name
  | .call receiver method args, e => .call (receiver.subst q e) method (Expr.substList q args e)
  | .staticCall name method args, e => .staticCall name method (Expr.substList q args e)
  | .literal value, _ => .literal value
  | .typed ty, _ => .typed ty
  | .array items, e => .array (Expr.substItems q items e)
  | .index target key, e => .index (target.subst q e) (key.subst q e)
  | .property target name, e => .property (target.subst q e) name
  | .closure params body, e => .closure params (if q ∈ params then body else body.subst q e)
  | .branches arms, e => .branches (Expr.substList q arms e)
  | .obscure, _ => .obscure

/-- The expressions with `e` in place of every free `q`. -/
def Expr.substList (q : String) : List Expr → Expr → List Expr
  | [], _ => []
  | a :: rest, e => a.subst q e :: Expr.substList q rest e

/-- The entries of an array literal with `e` in place of every free `q`. -/
def Expr.substItems (q : String) : List Item → Expr → List Item
  | [], _ => []
  | .positional value :: rest, e => .positional (value.subst q e) :: Expr.substItems q rest e
  | .keyed key value :: rest, e =>
    .keyed (key.subst q e) (value.subst q e) :: Expr.substItems q rest e

end

mutual

/-- No parameter of a closure of the expression captures a variable of `e` when `e` takes the place
of `q`: wherever `q` is replaced under a closure, the parameters of the closure are not free in
`e`. -/
def Expr.Admits (q : String) : Expr → Expr → Prop
  | .call receiver _ args, e => receiver.Admits q e ∧ Expr.AdmitsList q args e
  | .staticCall _ _ args, e => Expr.AdmitsList q args e
  | .array items, e => Expr.AdmitsItems q items e
  | .index target key, e => target.Admits q e ∧ key.Admits q e
  | .property target _, e => target.Admits q e
  | .closure params body, e =>
    q ∈ params ∨ (body.Free q → ∀ p ∈ params, ¬ e.Free p) ∧ body.Admits q e
  | .branches arms, e => Expr.AdmitsList q arms e
  | .entity _, _ | .var _, _ | .literal _, _ | .typed _, _ | .obscure, _ => True

/-- No parameter captures a variable in any of the expressions. -/
def Expr.AdmitsList (q : String) : List Expr → Expr → Prop
  | [], _ => True
  | a :: rest, e => a.Admits q e ∧ Expr.AdmitsList q rest e

/-- No parameter captures a variable in any entry of an array literal. -/
def Expr.AdmitsItems (q : String) : List Item → Expr → Prop
  | [], _ => True
  | .positional value :: rest, e => value.Admits q e ∧ Expr.AdmitsItems q rest e
  | .keyed key value :: rest, e => key.Admits q e ∧ value.Admits q e ∧ Expr.AdmitsItems q rest e

end

section

variable {q : String} {e : Expr} {defs : Definitions}

/-- What a list of expressions needs for the substitution lemma: the lemma for each of them, and
that `e` fits where `q` is free in one of them. -/
theorem Expr.linkList_subst {params : List String} {es : List Expr}
    (ih : ∀ a ∈ es, a.Admits q e → (a.Free q → ∀ p ∈ params, ¬ e.Free p) →
      a.link ((q, e.link defs []) :: defs) params = (a.subst q e).link defs params)
    (hadm : Expr.AdmitsList q es e) (hfree : Expr.FreeList q es → ∀ p ∈ params, ¬ e.Free p) :
    Expr.linkList ((q, e.link defs []) :: defs) params es =
      Expr.linkList defs params (Expr.substList q es e) := by
  induction es with
  | nil => rfl
  | cons a rest ihs =>
    have ha := ih a List.mem_cons_self hadm.1 fun hq => hfree (Or.inl hq)
    have hrest := ihs (fun b hb => ih b (List.mem_cons_of_mem _ hb)) hadm.2 fun hq =>
      hfree (Or.inr hq)
    rw [Expr.linkList, Expr.substList, Expr.linkList, ha, hrest]

theorem Expr.linkItems_subst {params : List String} {items : List Item}
    (ih : ∀ i ∈ items, ∀ a ∈ i.parts, a.Admits q e → (a.Free q → ∀ p ∈ params, ¬ e.Free p) →
      a.link ((q, e.link defs []) :: defs) params = (a.subst q e).link defs params)
    (hadm : Expr.AdmitsItems q items e)
    (hfree : Expr.FreeItems q items → ∀ p ∈ params, ¬ e.Free p) :
    Expr.linkItems ((q, e.link defs []) :: defs) params items =
      Expr.linkItems defs params (Expr.substItems q items e) := by
  induction items with
  | nil => rfl
  | cons i rest ihs =>
    have hi := ih i List.mem_cons_self
    have hrest := ihs fun j hj => ih j (List.mem_cons_of_mem _ hj)
    cases i with
    | positional value =>
      have hv := hi value List.mem_cons_self hadm.1 fun hq => hfree (Or.inl hq)
      rw [Expr.linkItems, Expr.substItems, Expr.linkItems, hv,
        hrest hadm.2 fun hq => hfree (Or.inr hq)]
    | keyed key value =>
      have hk := hi key List.mem_cons_self hadm.1 fun hq => hfree (Or.inl hq)
      have hv := hi value (List.mem_cons_of_mem _ List.mem_cons_self) hadm.2.1 fun hq =>
        hfree (Or.inr (Or.inl hq))
      rw [Expr.linkItems, Expr.substItems, Expr.linkItems, hk, hv,
        hrest hadm.2.2 fun hq => hfree (Or.inr (Or.inr hq))]

/-- The substitution lemma for linking: under parameters other than `q`, a definition of `q` in
front of the others is the same as putting its expression in place of `q`. -/
theorem Expr.link_subst (body : Expr) :
    ∀ params : List String, q ∉ params → body.Admits q e →
      (body.Free q → ∀ p ∈ params, ¬ e.Free p) →
      body.link ((q, e.link defs []) :: defs) params = (body.subst q e).link defs params := by
  induction body using Expr.rec' with
  | entity name => intros; rfl
  | literal value => intros; rfl
  | typed ty => intros; rfl
  | obscure => intros; rfl
  | var name =>
    intro params hq _ hfree
    by_cases hname : name = q
    · -- the definition was linked outside of all closures, the replacement stands inside of them
      subst hname
      rw [Expr.subst, if_pos rfl, Expr.link_of_not_free (hfree rfl), Expr.link, if_neg hq,
        List.lookup_cons_self, Option.getD_some]
    · rw [Expr.subst, if_neg hname, Expr.link, Expr.link, List.lookup_cons,
        beq_eq_false_iff_ne.2 hname]
  | call receiver method args ihr iha =>
    intro params hq hadm hfree
    have hr := ihr params hq hadm.1 fun h => hfree (Or.inl h)
    have ha := Expr.linkList_subst (fun a ha => iha a ha params hq) hadm.2 fun h =>
      hfree (Or.inr h)
    rw [Expr.subst, Expr.link, Expr.link, hr, ha]
  | staticCall entity method args iha =>
    intro params hq hadm hfree
    rw [Expr.subst, Expr.link, Expr.link,
      Expr.linkList_subst (fun a ha => iha a ha params hq) hadm hfree]
  | array items ih =>
    intro params hq hadm hfree
    rw [Expr.subst, Expr.link, Expr.link,
      Expr.linkItems_subst (fun i hi a ha => ih i hi a ha params hq) hadm hfree]
  | index target key iht ihk =>
    intro params hq hadm hfree
    have ht := iht params hq hadm.1 fun h => hfree (Or.inl h)
    have hk := ihk params hq hadm.2 fun h => hfree (Or.inr h)
    rw [Expr.subst, Expr.link, Expr.link, ht, hk]
  | property target name iht =>
    intro params hq hadm hfree
    rw [Expr.subst, Expr.link, Expr.link, iht params hq hadm hfree]
  | closure own body ih =>
    intro params hq hadm hfree
    by_cases hown : q ∈ own
    · -- nothing is replaced in this body, and the definition is not seen from it
      rw [Expr.subst, if_pos hown, Expr.link, Expr.link,
        Expr.link_of_shadowed (List.mem_append_left _ hown)]
    · obtain ⟨hcapture, hbody⟩ := hadm.resolve_left hown
      have hq' : q ∉ own ++ params := fun h => (List.mem_append.1 h).elim hown hq
      have hfree' : body.Free q → ∀ p ∈ own ++ params, ¬ e.Free p := by
        intro h p hp
        rcases List.mem_append.1 hp with hp | hp
        · exact hcapture h p hp
        · exact hfree ⟨hown, h⟩ p hp
      rw [Expr.subst, if_neg hown, Expr.link, Expr.link, ih _ hq' hbody hfree']
  | branches arms ih =>
    intro params hq hadm hfree
    rw [Expr.subst, Expr.link, Expr.link,
      Expr.linkList_subst (fun a ha => ih a ha params hq) hadm hfree]

end

/-- The term of an expression after an assignment is the term of the expression with the assigned
one in place of the variable. -/
theorem Scope.term_assign (s : Scope) {q : String} {e body : Expr} (h : body.Admits q e) :
    (s.assign q e).term body = s.term (body.subst q e) := by
  rw [term, definitions_assign, term, term]
  exact Expr.link_subst body [] List.not_mem_nil h fun _ _ hp => absurd hp List.not_mem_nil

/-- The substitution law: inferring an expression after an assignment is inferring the expression
with the assigned one in place of every free occurrence of the variable. -/
theorem infer_assign (cx : Context) (s : Scope) (q : String) (e body : Expr)
    (h : body.Admits q e) : infer cx (s.assign q e) body = infer cx s (body.subst q e) := by
  rw [infer, infer, Scope.term_assign s h]

/-- A query that is assigned to the variable it starts from, and used both as a receiver and inside
a callback. -/
theorem infer_assign_reassigned :
    let rows : Expr := .call (.var "q") "get" []
    let body : Expr := .call (.var "q") "map"
      [.closure ["u"] (.array [.positional (.var "q"), .positional (.var "u")])]
    body.Admits "q" rows ∧
      infer ⟨{}, {}⟩ (Scope.assign [⟨"q", .entity "User"⟩] "q" rows) body =
        infer ⟨{}, {}⟩ [⟨"q", .entity "User"⟩] (.call rows "map"
          [.closure ["u"] (.array [.positional rows, .positional (.var "u")])]) := by
  intro rows body
  have hadmits : body.Admits "q" rows := by
    simp [rows, body, Expr.Admits, Expr.AdmitsList, Expr.AdmitsItems, Expr.Free, Expr.FreeList]
  have hsubst : body.subst "q" rows = .call rows "map"
      [.closure ["u"] (.array [.positional rows, .positional (.var "u")])] := by
    simp [body, Expr.subst, Expr.substList, Expr.substItems]
  refine ⟨hadmits, ?_⟩
  rw [← hsubst]
  exact infer_assign _ _ "q" rows body hadmits

end QueryTypes
