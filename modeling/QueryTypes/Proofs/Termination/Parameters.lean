import QueryTypes.Proofs.Lists
import QueryTypes.Proofs.Substitution
import QueryTypes.Proofs.Termination.Questions

/-!
# Parameters and typed assignments

A callback can be read in two ways: its body is a term with parameters, whose types stand beside it,
or it is an expression in a scope where the parameters have been assigned expressions of known type.
Both give the same computations (`infer_bindParams`).

What a variable stands for is its meaning (`Definitions.meaning`): a type, for a parameter and for a
definition of known type, and otherwise the term of its definition. The two readings agree in the
meanings of all variables, and terms with equal meanings cannot be told apart (`Expr.same_link`).
-/

set_option autoImplicit false

namespace QueryTypes

variable {cx : Context}

/-! ## Terms that cannot be told apart -/

/-- Two terms, each with types for its parameters, are the same for every inference. -/
structure Term.Same (cx : Context) (t : Term) (env : Env) (t' : Term) (env' : Env) : Prop where
  infer : ∀ depth, t.infer cx env depth = t'.infer cx env' depth
  callable : t.callable? cx env = t'.callable? cx env'
  chain : t.chain cx env = t'.chain cx env'

/-- The types of the parameters around a term do not matter. -/
def Term.Ground (cx : Context) (t : Term) : Prop := ∀ env env' : Env, Term.Same cx t env t env'

namespace Term.Same

variable {t t' t'' : Term} {env env' env'' : Env}

theorem symm (h : Same cx t env t' env') : Same cx t' env' t env where
  infer depth := (h.infer depth).symm
  callable := h.callable.symm
  chain := h.chain.symm

theorem trans (h : Same cx t env t' env') (h' : Same cx t' env' t'' env'') :
    Same cx t env t'' env'' where
  infer depth := (h.infer depth).trans (h'.infer depth)
  callable := h.callable.trans h'.callable
  chain := h.chain.trans h'.chain

/-- At depth zero all terms are the same. -/
theorem of_succ (hinfer : ∀ depth, t.infer cx env (depth + 1) = t'.infer cx env' (depth + 1))
    (hcallable : t.callable? cx env = t'.callable? cx env')
    (hchain : t.chain cx env = t'.chain cx env') : Same cx t env t' env' where
  infer depth := by
    cases depth with
    | zero => rw [infer_zero, infer_zero]
    | succ depth => exact hinfer depth
  callable := hcallable
  chain := hchain

theorem known (ty : Ty) : Same cx (.known ty) env (.known ty) env' :=
  .of_succ (fun _ => rfl) rfl rfl

theorem unknown : Same cx .unknown env .unknown env' := .of_succ (fun _ => rfl) rfl rfl

theorem entity (name : String) : Same cx (.entity name) env (.entity name) env' :=
  .of_succ (fun _ => rfl) rfl rfl

/-- A parameter is a value of its type. -/
theorem param (name : String) : Same cx (.param name) env (.known (env.type name)) env' :=
  .of_succ (fun _ => rfl) rfl rfl

section Parts

variable {es : List Expr} {f g : Expr → Term}

theorem arguments_congr (h : ∀ e ∈ es, Same cx (f e) env (g e) env') :
    arguments cx (es.map f) env = arguments cx (es.map g) env' := by
  induction es with
  | nil => rfl
  | cons e rest ih =>
    obtain ⟨he, hrest⟩ := List.forall_mem_cons.1 h
    rw [List.map_cons, List.map_cons, Term.arguments, Term.arguments, he.infer, he.callable,
      ih hrest]

theorem inferArms_congr (h : ∀ e ∈ es, Same cx (f e) env (g e) env') (depth : Nat) :
    inferArms cx (es.map f) env depth = inferArms cx (es.map g) env' depth := by
  rw [inferArms_eq_mapM, inferArms_eq_mapM, List.mapM_map, List.mapM_map]
  exact mapM_congr fun e he => (h e he).infer depth

theorem inferItems_congr {defs defs' : Definitions} {params params' : List String}
    {items : List Item} (h : ∀ i ∈ items, ∀ e ∈ i.parts,
      Same cx (e.link defs params) env (e.link defs' params') env')
    (st : Reading.ArrayState) :
    inferItems cx (items.map (Item.link defs params)) env st =
      inferItems cx (items.map (Item.link defs' params')) env' st := by
  rw [inferItems_eq_foldlM, inferItems_eq_foldlM, List.foldlM_map, List.foldlM_map]
  refine foldlM_congr (fun st i hi => ?_) st
  cases i with
  | positional value =>
    have hvalue := (h _ hi value (by simp [Item.parts])).infer cx.config.maxDepth
    rw [Item.link, Item.link, TermItem.infer, TermItem.infer, hvalue]
  | keyed key value =>
    have hkey := (h _ hi key (by simp [Item.parts])).infer cx.config.maxDepth
    have hvalue := (h _ hi value (by simp [Item.parts])).infer cx.config.maxDepth
    rw [Item.link, Item.link, TermItem.infer, TermItem.infer, hkey, hvalue]

end Parts

theorem call (hr : Same cx t env t' env') (method : String) {args args' : List Term}
    (ha : arguments cx args env = arguments cx args' env') :
    Same cx (.call t method args) env (.call t' method args') env' := by
  refine .of_succ (fun depth => ?_) rfl ?_
  · simp only [Term.infer, ha, hr.chain, hr.infer]
  · simp only [Term.chain, ha, hr.chain]

theorem closure (own : List String)
    (h : ∀ types, Same cx t (env.bind own types) t' (env'.bind own types)) :
    Same cx (.closure own t) env (.closure own t') env' := by
  refine .of_succ (fun _ => rfl) ?_ rfl
  simp only [callable?, (h _).infer]

end Term.Same

/-! ## Meanings of variables -/

namespace Env

theorem type_bind_of_not_mem {x : String} {params : List String} (h : x ∉ params) (env : Env)
    (types : List Ty) : (env.bind params types).type x = env.type x := by
  induction params generalizing env types with
  | nil => rfl
  | cons p ps ih =>
    rw [List.mem_cons, not_or] at h
    obtain ⟨hne, hps⟩ := h
    have hskip (t : Ty) : type ((p, t) :: env) x = env.type x := by
      rw [type, type, List.lookup_cons, beq_eq_false_iff_ne.2 hne]
    cases types with
    | nil => rw [bind, ih hps, hskip]
    | cons t ts => rw [bind, ih hps, hskip]

/-- The type of a bound parameter does not depend on what was in reach before. -/
theorem type_bind_of_mem {x : String} {params : List String} (h : x ∈ params) (env env' : Env)
    (types : List Ty) : (env.bind params types).type x = (env'.bind params types).type x := by
  induction params generalizing env env' types with
  | nil => exact absurd h List.not_mem_nil
  | cons p ps ih =>
    by_cases hps : x ∈ ps
    · cases types with
      | nil => exact ih hps _ _ _
      | cons t ts => exact ih hps _ _ _
    · obtain rfl := (List.mem_cons.1 h).resolve_right hps
      have hfirst (t : Ty) (env : Env) : type ((x, t) :: env) x = t := by
        rw [type, List.lookup_cons_self, Option.getD_some]
      cases types with
      | nil => rw [bind, bind, type_bind_of_not_mem hps, type_bind_of_not_mem hps, hfirst, hfirst]
      | cons t ts =>
        rw [bind, bind, type_bind_of_not_mem hps, type_bind_of_not_mem hps, hfirst, hfirst]

end Env

namespace Definitions

/-- What a variable stands for: a type if it is a parameter or a value of known type, otherwise the
term of its definition. -/
def meaning (defs : Definitions) (params : List String) (env : Env) (x : String) : Ty ⊕ Term :=
  if x ∈ params then .inl (env.type x)
  else
    match (defs.lookup x).getD .unknown with
    | .known ty => .inl ty
    | t => .inr t

variable {defs defs' : Definitions} {params params' : List String} {env env' : Env} {x : String}

/-- Inside a closure its own parameters have new meanings, and the others keep theirs. -/
theorem meaning_bind (h : ∀ x, defs.meaning params env x = defs'.meaning params' env' x)
    (own : List String) (types : List Ty) (x : String) :
    defs.meaning (own ++ params) (env.bind own types) x =
      defs'.meaning (own ++ params') (env'.bind own types) x := by
  by_cases hown : x ∈ own
  · rw [meaning, meaning, if_pos (List.mem_append_left _ hown),
      if_pos (List.mem_append_left _ hown), Env.type_bind_of_mem hown env env']
  · have hkeep (defs : Definitions) (params : List String) (env : Env) :
        defs.meaning (own ++ params) (env.bind own types) x = defs.meaning params env x := by
      unfold meaning
      simp only [List.mem_append, hown, false_or, Env.type_bind_of_not_mem hown]
    rw [hkeep, hkeep, h]

theorem same_of_meaning_inl {ty : Ty} (h : defs.meaning params env x = .inl ty) :
    Term.Same cx ((Expr.var x).link defs params) env (.known ty) [] := by
  unfold meaning at h
  rw [Expr.link]
  split at h
  · next hparam =>
    rw [if_pos hparam]
    cases h
    exact .param x
  · next hparam =>
    rw [if_neg hparam]
    split at h
    · next ty' hknown =>
      cases h
      rw [hknown]
      exact .known ty
    · cases h

theorem link_of_meaning_inr {t : Term} (h : defs.meaning params env x = .inr t) :
    (Expr.var x).link defs params = t ∧ t = (defs.lookup x).getD .unknown := by
  unfold meaning at h
  rw [Expr.link]
  split at h
  · cases h
  · next hparam =>
    rw [if_neg hparam]
    split at h
    · cases h
    · cases h
      exact ⟨rfl, rfl⟩

end Definitions

/-- Where all variables have the same meanings, an expression has the same term. -/
theorem Expr.same_link {defs defs' : Definitions} (hdefs : ∀ d ∈ defs, d.2.Ground cx) (e : Expr) :
    ∀ (params params' : List String) (env env' : Env),
      (∀ x, defs.meaning params env x = defs'.meaning params' env' x) →
      Term.Same cx (e.link defs params) env (e.link defs' params') env' := by
  induction e using Expr.rec' with
  | entity name => exact fun _ _ _ _ _ => .entity name
  | literal value => exact fun _ _ _ _ _ => .known _
  | typed ty => exact fun _ _ _ _ _ => .known ty
  | obscure => exact fun _ _ _ _ _ => .unknown
  | var name =>
    intro params params' env env' h
    cases hm : defs.meaning params env name with
    | inl ty =>
      have hm' := (h name).symm.trans hm
      exact (Definitions.same_of_meaning_inl hm).trans (Definitions.same_of_meaning_inl hm').symm
    | inr t =>
      -- the same definition, and no parameter around it is seen from it
      have hm' := (h name).symm.trans hm
      obtain ⟨hlink, ht⟩ := Definitions.link_of_meaning_inr hm
      rw [hlink, (Definitions.link_of_meaning_inr hm').1, ht]
      exact Definitions.forall_lookup hdefs (fun _ _ => .unknown) name env env'
  | call receiver method args ihr iha =>
    intro params params' env env' h
    rw [Expr.link, Expr.link, Expr.linkList_eq_map, Expr.linkList_eq_map]
    refine .call (ihr _ _ _ _ h) method ?_
    exact Term.Same.arguments_congr fun a ha => iha a ha _ _ _ _ h
  | staticCall entity method args iha =>
    intro params params' env env' h
    rw [Expr.link, Expr.link, Expr.linkList_eq_map, Expr.linkList_eq_map]
    refine .call (.entity entity) method ?_
    exact Term.Same.arguments_congr fun a ha => iha a ha _ _ _ _ h
  | array items ih =>
    intro params params' env env' h
    rw [Expr.link, Expr.link, Expr.linkItems_eq_map, Expr.linkItems_eq_map]
    refine .of_succ (fun depth => ?_) rfl rfl
    simp only [Term.infer]
    rw [Term.Same.inferItems_congr fun i hi e he => ih i hi e he _ _ _ _ h]
  | index target key iht ihk =>
    intro params params' env env' h
    rw [Expr.link, Expr.link]
    refine .of_succ (fun depth => ?_) rfl rfl
    simp only [Term.infer, (iht _ _ _ _ h).infer, (ihk _ _ _ _ h).infer]
  | property target name iht =>
    intro params params' env env' h
    rw [Expr.link, Expr.link]
    refine .of_succ (fun depth => ?_) rfl rfl
    simp only [Term.infer, (iht _ _ _ _ h).infer]
  | closure own body ih =>
    intro params params' env env' h
    rw [Expr.link, Expr.link]
    exact .closure own fun types => ih _ _ _ _ (Definitions.meaning_bind h own types)
  | branches arms ih =>
    intro params params' env env' h
    rw [Expr.link, Expr.link, Expr.linkList_eq_map, Expr.linkList_eq_map]
    refine .of_succ (fun depth => ?_) rfl rfl
    simp only [Term.infer]
    rw [Term.Same.inferArms_congr fun a ha => ih a ha _ _ _ _ h]

namespace Scope

/-- The definitions of a scope have no parameters. -/
theorem ground_definitions (s : Scope) : ∀ d ∈ s.definitions, d.2.Ground cx := by
  refine List.foldlRecOn s _ (motive := fun defs : Definitions => ∀ d ∈ defs, d.2.Ground cx)
    (fun _ hd => absurd hd List.not_mem_nil) fun defs hdefs a _ => ?_
  refine List.forall_mem_cons.2 ⟨fun env env' => ?_, hdefs⟩
  exact Expr.same_link hdefs a.value [] [] env env' fun _ => rfl

/-! ## Typed assignments -/

/-- Assigned parameters are definitions of known type in front of the others. -/
theorem definitions_bindParams (s : Scope) (params : List String) (types : List Ty) :
    (s.bindParams params types).definitions =
      (Env.bind [] params types).map (fun b => (b.1, .known b.2)) ++ s.definitions := by
  suffices key : ∀ (env : Env) (s' : Scope) (types : List Ty),
      s'.definitions = env.map (fun b => (b.1, Term.known b.2)) ++ s.definitions →
      (s'.bindParams params types).definitions =
        (env.bind params types).map (fun b => (b.1, Term.known b.2)) ++ s.definitions from
    key [] s types rfl
  induction params with
  | nil => exact fun env s' types h => h
  | cons p ps ih =>
    intro env s' types h
    have hassign (t : Ty) : (s'.assign p (.typed t)).definitions =
        List.map (fun b => (b.1, Term.known b.2)) ((p, t) :: env) ++ s.definitions := by
      rw [definitions_assign, h]
      rfl
    cases types with
    | nil => exact ih _ _ _ (hassign .unknown)
    | cons t ts => exact ih _ _ _ (hassign t)

theorem lookup_map_known (env : Env) (defs : Definitions) (x : String) :
    List.lookup x (env.map (fun b => (b.1, Term.known b.2)) ++ defs) =
      ((env.lookup x).map Term.known).or (defs.lookup x) := by
  induction env with
  | nil => rfl
  | cons b rest ih =>
    rw [List.map_cons, List.cons_append, List.lookup_cons, List.lookup_cons, ih]
    cases x == b.1 with
    | true => rfl
    | false => rfl

theorem isSome_lookup_bind (env : Env) (params : List String) (types : List Ty) (x : String) :
    ((env.bind params types).lookup x).isSome ↔ x ∈ params ∨ (env.lookup x).isSome := by
  induction params generalizing env types with
  | nil => simp [Env.bind]
  | cons p ps ih =>
    have hstep (t : Ty) : (List.lookup x ((p, t) :: env)).isSome ↔
        x = p ∨ (env.lookup x).isSome := by
      rw [List.lookup_cons]
      by_cases hx : x = p
      · simp [hx]
      · simp [hx, beq_eq_false_iff_ne.2 hx]
    cases types with
    | nil => rw [Env.bind, ih, hstep, List.mem_cons, or_left_comm, or_assoc]
    | cons t ts => rw [Env.bind, ih, hstep, List.mem_cons, or_left_comm, or_assoc]

/-- A variable means the same after its parameter is assigned a type and below the parameter. -/
theorem meaning_bindParams (s : Scope) (params : List String) (types : List Ty) (x : String) :
    (s.bindParams params types).definitions.meaning [] [] x =
      s.definitions.meaning params (Env.bind [] params types) x := by
  have hmem := isSome_lookup_bind [] params types x
  rw [definitions_bindParams, Definitions.meaning, if_neg List.not_mem_nil, lookup_map_known,
    Definitions.meaning]
  cases hfind : (Env.bind [] params types).lookup x with
  | none =>
    have hparam : x ∉ params := fun h => by simpa [hfind] using hmem.2 (Or.inl h)
    rw [if_neg hparam]
    rfl
  | some ty =>
    have hparam : x ∈ params := by simpa [hfind] using hmem.1
    rw [if_pos hparam, Env.type, hfind]
    rfl

end Scope

/-- The type of a body after its parameters are assigned is its type below the parameters. -/
theorem infer_bindParams (s : Scope) (params : List String) (types : List Ty) (body : Expr) :
    infer cx (s.bindParams params types) body =
      (body.link s.definitions params).infer cx (Env.bind [] params types) cx.config.maxDepth := by
  have hsame : Term.Same cx (body.link (s.bindParams params types).definitions []) []
      (body.link s.definitions params) (Env.bind [] params types) :=
    Expr.same_link (Scope.ground_definitions _) body _ _ _ _ (s.meaning_bindParams params types)
  exact hsame.infer cx.config.maxDepth

end QueryTypes
