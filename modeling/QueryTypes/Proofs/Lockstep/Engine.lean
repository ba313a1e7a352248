import QueryTypes.Proofs.Lockstep.Query
import QueryTypes.Session

/-!
# Inferences of terms and forms in step

A discipline that covers two policies of different strictness makes the whole inference alike under
both: `Covers.infer` for terms, `Covers.formType` for forms and `Covers.task` for everything that a
session can be asked for.

An argument that can be called is a function, so the values that two runs hand on are not equal but
related (`Discipline.ArgAlike`). They are made from equal types in the same way, though
(`Term.arguments_eq`, `Term.chain_eq`), and only the types are computed.
-/

set_option autoImplicit false

namespace QueryTypes

variable {α : Type}

namespace Discipline

/-! ## Arguments and chains -/

section Relations

variable (D : Discipline)

/-- Arguments of one type whose calls are alike. -/
structure ArgAlike (a b : Argument) : Prop where
  ty : a.ty = b.ty
  call : Option.Rel (fun f g => ∀ ts, D.AlikeTracked (f ts) (g ts)) a.call? b.call?

/-- Calls of one method on alike arguments. -/
structure StepAlike (a b : Step) : Prop where
  name : a.name = b.name
  args : List.Forall₂ D.ArgAlike a.args b.args

/-- Chains with one root and alike calls. -/
structure ChainAlike (c c' : Chain) : Prop where
  root : c.root = c'.root
  steps : List.Forall₂ D.StepAlike c.steps c'.steps

end Relations

variable {D : Discipline}

theorem map_ty_eq {args args' : List Argument} (h : List.Forall₂ D.ArgAlike args args') :
    args.map Argument.ty = args'.map Argument.ty := by
  induction h with
  | nil => rfl
  | cons hab _ ih => rw [List.map_cons, List.map_cons, hab.ty, ih]

theorem map_words_eq {steps steps' : List Step} (h : List.Forall₂ D.StepAlike steps steps') :
    steps.map Step.words = steps'.map Step.words := by
  induction h with
  | nil => rfl
  | cons hab _ ih =>
    rw [List.map_cons, List.map_cons, ih, Step.words, Step.words, hab.name, Step.argTypes,
      Step.argTypes, map_ty_eq hab.args]

theorem ChainAlike.snoc {c c' : Chain} {a b : Step} (hc : D.ChainAlike c c') (h : D.StepAlike a b) :
    D.ChainAlike { c with steps := c.steps ++ [a] } { c' with steps := c'.steps ++ [b] } where
  root := hc.root
  steps := List.rel_append hc.steps (.cons h .nil)

/-! ## Collection methods -/

section Collections

open Collection

variable {args args' : List Argument}

theorem ArgAlike.call? {a b : Argument} (h : D.ArgAlike a b) (ts : List Ty) :
    D.AlikeTracked (call? a ts) (call? b ts) := by
  obtain ⟨ty, f⟩ := a
  obtain ⟨ty', g⟩ := b
  obtain ⟨-, hcall⟩ := h
  cases hcall with
  | none => exact .pure _
  | some hfg => exact (hfg ts).bind fun t => AlikeTracked.pure _

theorem alike_defaultType {a b : Option Argument} (h : Option.Rel D.ArgAlike a b) :
    D.AlikeTracked (defaultType a) (defaultType b) := by
  cases h with
  | none => exact .pure _
  | some hab =>
    unfold defaultType
    refine (hab.call? []).bind fun t => ?_
    rw [hab.ty]
    exact .pure _

theorem alike_callback? (v : View) (h : List.Forall₂ D.ArgAlike args args') :
    D.AlikeTracked (callback? v args) (callback? v args') := by
  cases h with
  | nil => exact .pure _
  | cons hab _ => exact hab.call? _

theorem pluck?_eq (v : View) (h : List.Forall₂ D.ArgAlike args args') :
    pluck? v args = pluck? v args' := by
  cases h with
  | nil => rfl
  | cons hvalue hrest =>
    cases hrest with
    | nil => rw [pluck?, pluck?, hvalue.ty]
    | cons hkey _ => rw [pluck?, pluck?, hvalue.ty, hkey.ty]

theorem rel_second (h : List.Forall₂ D.ArgAlike args args') :
    Option.Rel D.ArgAlike args[1]? args'[1]? := by
  cases h with
  | nil => exact .none
  | cons _ hrest =>
    cases hrest with
    | nil => exact .none
    | cons hab _ => exact .some hab

theorem alike_resultOf (depth : Nat) (receiver : Ty) (v : View) (m : Method)
    (h : List.Forall₂ D.ArgAlike args args') :
    D.AlikeTracked (resultOf depth receiver v args m) (resultOf depth receiver v args' m) := by
  cases m with
  | item => exact (alike_defaultType (rel_second h)).bind fun _ => .pure _
  | map => exact (alike_callback? v h).bind fun _ => .pure _
  | mapWithKeys => exact (alike_callback? v h).bind fun _ => .pure _
  | pluck =>
    unfold resultOf
    rw [pluck?_eq v h]
    exact .pure _
  | toArray | values | keys | count | test | rearrange => exact .pure _

theorem alike_resolveCollectionMethod (depth : Nat) (method : String) (receiver : Ty)
    (h : List.Forall₂ D.ArgAlike args args') :
    D.AlikeTracked (resolveCollectionMethod depth method receiver args)
      (resolveCollectionMethod depth method receiver args') := by
  unfold resolveCollectionMethod
  split
  · exact alike_resultOf depth receiver _ _ h
  · exact .pure _

end Collections

/-! ## Chains on entities -/

theorem forall₂_splitAtFinisher {steps steps' : List Step}
    (h : List.Forall₂ D.StepAlike steps steps') :
    List.Forall₂ D.StepAlike (splitAtFinisher steps).1 (splitAtFinisher steps').1 ∧
      List.Forall₂ D.StepAlike (splitAtFinisher steps).2 (splitAtFinisher steps').2 := by
  induction h with
  | nil => exact ⟨.nil, .nil⟩
  | cons hab hrest ih =>
    unfold splitAtFinisher
    rw [hab.name]
    split
    · exact ⟨.cons hab .nil, hrest⟩
    · exact ⟨.cons hab ih.1, ih.2⟩

namespace Covers

variable {cx : Context} {s s' : Bool}

theorem applyStep (h : D.Covers cx s s') (receiver : Ty) {a b : Step} (hab : D.StepAlike a b) :
    D.Alike (applyStep (cx.strictly s) receiver a) (applyStep (cx.strictly s') receiver b) := by
  unfold QueryTypes.applyStep
  rw [hab.name]
  refine Alike.bind (alike_resolveCollectionMethod _ _ receiver hab.args) fun t => ?_
  cases t with
  | some t => exact .pure t
  | none => exact (h.unresolved none (.collectionMethod b.name)).bind fun _ => .pure _

theorem rowOfAlike (h : D.Covers cx s s') {c c' : Chain} (hc : D.ChainAlike c c') :
    D.Alike (QueryTypes.resolveRow (cx.strictly s) c)
      (QueryTypes.resolveRow (cx.strictly s') c') := by
  rw [resolveRow_congr _ c c' hc.root (map_words_eq hc.steps)]
  exact h.resolveRow c'

theorem resultOfAlike (h : D.Covers cx s s') {c c' : Chain} (hc : D.ChainAlike c c') :
    D.Alike (QueryTypes.resolveResult (cx.strictly s) c)
      (QueryTypes.resolveResult (cx.strictly s') c') := by
  rw [resolveResult_congr _ c c' hc.root (map_words_eq hc.steps)]
  exact h.resolveResult c'

theorem resolveChain (h : D.Covers cx s s') {c c' : Chain} (hc : D.ChainAlike c c') :
    D.Alike (resolveChain (cx.strictly s) c) (resolveChain (cx.strictly s') c') := by
  obtain ⟨hquery, hafter⟩ := forall₂_splitAtFinisher hc.steps
  have hchain : D.ChainAlike { c with steps := (splitAtFinisher c.steps).1 }
      { c' with steps := (splitAtFinisher c'.steps).1 } := ⟨hc.root, hquery⟩
  refine (h.resultOfAlike hchain).bind fun t => ?_
  cases t with
  | none => exact .pure _
  | some t => exact .foldlM₂ hafter (fun t _ _ hab => h.applyStep t hab) t

end Covers

end Discipline

/-! ## Terms -/

namespace Term

/-- The types of the arguments of a call, which is all that is computed for them. -/
def typesOf (cx : Context) (env : Env) (args : List Term) : Tracked (List Ty) :=
  args.mapM fun t => degrade (t.infer cx env cx.config.maxDepth)

/-- Arguments with the types that were computed for them. -/
def dress (cx : Context) (env : Env) (args : List Term) (types : List Ty) : List Argument :=
  List.zipWith (fun t ty => ⟨ty, t.callable? cx env⟩) args types

theorem arguments_eq (cx : Context) (env : Env) (args : List Term) :
    Term.arguments cx args env = dress cx env args <$> typesOf cx env args := by
  induction args with
  | nil => rfl
  | cons t rest ih =>
    rw [Term.arguments, ih, typesOf, typesOf, List.mapM_cons]
    rfl

/-- The types of the arguments of the calls of a chain, those of the last call first. -/
def chainTypes (cx : Context) (env : Env) : Term → Tracked (List (List Ty))
  | .call receiver _ args => do
    let own ← typesOf cx env args
    let others ← receiver.chainTypes cx env
    return own :: others
  | _ => return []

/-- A chain with the types that were computed for its arguments. -/
def dressChain (cx : Context) (env : Env) : Term → List (List Ty) → Chain
  | .call receiver method args, types =>
    let chain := receiver.dressChain cx env types.tail
    { chain with steps := chain.steps ++ [⟨method, dress cx env args (types.headD [])⟩] }
  | .entity name, _ => ⟨some name, []⟩
  | _, _ => ⟨none, []⟩

theorem chain_eq (cx : Context) (env : Env) (t : Term) :
    t.chain cx env = t.dressChain cx env <$> t.chainTypes cx env := by
  induction t using Term.rec' with
  | call receiver method args ihreceiver _ =>
    rw [Term.chain, arguments_eq, ihreceiver, chainTypes]
    rfl
  | unknown | known | entity | param | array | index | property | closure | branches => rfl

end Term

namespace Discipline

variable {D : Discipline} {cx : Context} {s s' : Bool}

/-- What is alike about a term under two policies. -/
structure TermAlike (D : Discipline) (cx : Context) (s s' : Bool) (t : Term) : Prop where
  infer : ∀ env depth, D.Alike (t.infer (cx.strictly s) env depth)
    (t.infer (cx.strictly s') env depth)
  callable : ∀ env, Option.Rel (fun f g => ∀ ts, D.AlikeTracked (f ts) (g ts))
    (t.callable? (cx.strictly s) env) (t.callable? (cx.strictly s') env)
  chainTypes : ∀ env,
    D.AlikeTracked (t.chainTypes (cx.strictly s) env) (t.chainTypes (cx.strictly s') env)
  dressChain : ∀ env types,
    D.ChainAlike (t.dressChain (cx.strictly s) env types) (t.dressChain (cx.strictly s') env types)

/-- At depth zero every term is unknown, so only larger depths have to be compared. -/
theorem TermAlike.of_infer_succ {t : Term}
    (hinfer : ∀ env depth, D.Alike (t.infer (cx.strictly s) env (depth + 1))
      (t.infer (cx.strictly s') env (depth + 1)))
    (hcallable : ∀ env, Option.Rel (fun f g => ∀ ts, D.AlikeTracked (f ts) (g ts))
      (t.callable? (cx.strictly s) env) (t.callable? (cx.strictly s') env))
    (hchainTypes : ∀ env,
      D.AlikeTracked (t.chainTypes (cx.strictly s) env) (t.chainTypes (cx.strictly s') env))
    (hdressChain : ∀ env types,
      D.ChainAlike (t.dressChain (cx.strictly s) env types)
        (t.dressChain (cx.strictly s') env types)) : D.TermAlike cx s s' t where
  infer env depth := by
    cases depth with
    | zero =>
      rw [Term.infer_zero, Term.infer_zero]
      exact .pure _
    | succ depth => exact hinfer env depth
  callable := hcallable
  chainTypes := hchainTypes
  dressChain := hdressChain

theorem TermAlike.degrade {t : Term} (h : D.TermAlike cx s s' t) (env : Env) :
    D.AlikeTracked (degrade (t.infer (cx.strictly s) env (cx.strictly s).config.maxDepth))
      (degrade (t.infer (cx.strictly s') env (cx.strictly s').config.maxDepth)) :=
  (h.infer env cx.config.maxDepth).degrade

theorem alike_typesOf {args : List Term} (h : ∀ t ∈ args, D.TermAlike cx s s' t) (env : Env) :
    D.AlikeTracked (Term.typesOf (cx.strictly s) env args)
      (Term.typesOf (cx.strictly s') env args) :=
  .mapM args fun t ht => (h t ht).degrade env

theorem forall₂_dress {args : List Term} (h : ∀ t ∈ args, D.TermAlike cx s s' t) (env : Env)
    (types : List Ty) :
    List.Forall₂ D.ArgAlike (Term.dress (cx.strictly s) env args types)
      (Term.dress (cx.strictly s') env args types) := by
  induction args generalizing types with
  | nil => exact .nil
  | cons t rest ih =>
    cases types with
    | nil => exact .nil
    | cons ty types =>
      refine .cons ⟨rfl, (h t List.mem_cons_self).callable env⟩ ?_
      exact ih (fun t ht => h t (List.mem_cons_of_mem _ ht)) types

theorem alike_inferArms {arms : List Term} (h : ∀ t ∈ arms, D.TermAlike cx s s' t) (env : Env)
    (depth : Nat) :
    D.Alike (Term.inferArms (cx.strictly s) arms env depth)
      (Term.inferArms (cx.strictly s') arms env depth) := by
  rw [Term.inferArms_eq_mapM, Term.inferArms_eq_mapM]
  exact Alike.mapM arms fun t ht => (h t ht).infer env depth

theorem alike_positional (st : Reading.ArrayState) {x y : Tracked Ty} (h : D.AlikeTracked x y) :
    D.AlikeTracked (Reading.positional st x) (Reading.positional st y) :=
  h.bind fun _ => AlikeTracked.pure _

theorem alike_keyed (st : Reading.ArrayState) {k k' v v' : Tracked Ty} (hk : D.AlikeTracked k k')
    (hv : D.AlikeTracked v v') :
    D.AlikeTracked (Reading.keyed st k v) (Reading.keyed st k' v') := by
  refine hv.bind fun value => hk.bind fun key => ?_
  -- a key that is no literal is typed a second time
  split
  · exact AlikeTracked.pure _
  · exact AlikeTracked.pure _
  · exact hk.bind fun key => AlikeTracked.pure _

theorem alike_inferItems {items : List TermItem}
    (h : ∀ i ∈ items, ∀ t ∈ i.parts, D.TermAlike cx s s' t) (env : Env) (st : Reading.ArrayState) :
    D.AlikeTracked (Term.inferItems (cx.strictly s) items env st)
      (Term.inferItems (cx.strictly s') items env st) := by
  induction items generalizing st with
  | nil => exact .pure _
  | cons item rest ih =>
    have hrest := ih fun i hi => h i (List.mem_cons_of_mem _ hi)
    have hitem := h item List.mem_cons_self
    cases item with
    | positional value =>
      have hvalue := hitem value (by simp [TermItem.parts])
      exact (alike_positional st (hvalue.degrade env)).bind hrest
    | keyed key value =>
      have hkey := hitem key (by simp [TermItem.parts])
      have hvalue := hitem value (by simp [TermItem.parts])
      exact (alike_keyed st (hkey.degrade env) (hvalue.degrade env)).bind hrest

namespace Covers

theorem call (h : D.Covers cx s s') {receiver : Term} {method : String} {args : List Term}
    (hreceiver : D.TermAlike cx s s' receiver) (hargs : ∀ t ∈ args, D.TermAlike cx s s' t)
    (env : Env) (depth : Nat) :
    D.Alike ((Term.call receiver method args).infer (cx.strictly s) env depth)
      ((Term.call receiver method args).infer (cx.strictly s') env depth) := by
  cases depth with
  | zero => exact .pure _
  | succ depth =>
    unfold Term.infer
    rw [Term.arguments_eq, Term.arguments_eq, Term.chain_eq, Term.chain_eq]
    refine AlikeTracked.bind_map (alike_typesOf hargs env) fun own => ?_
    refine AlikeTracked.bind_map (hreceiver.chainTypes env) fun types => ?_
    have hstep : D.StepAlike ⟨method, Term.dress (cx.strictly s) env args own⟩
        ⟨method, Term.dress (cx.strictly s') env args own⟩ := ⟨rfl, forall₂_dress hargs env own⟩
    have hchain := (hreceiver.dressChain env types).snoc hstep
    dsimp only
    rw [(hreceiver.dressChain env types).root]
    split
    · -- a query: the receiver is a part of the chain and is not inferred by itself
      exact h.resolveChain ⟨rfl, hchain.steps⟩
    · -- a collection method on the type of the receiver; the arguments are typed once more
      refine (hreceiver.infer env (depth + 1)).bind fun t => ?_
      refine AlikeTracked.bind_map (alike_typesOf hargs env) fun again => ?_
      exact Alike.bind (alike_resolveCollectionMethod _ _ t (forall₂_dress hargs env again))
        fun _ => .pure _

/-- Inferring a term is alike under two policies. -/
theorem term (h : D.Covers cx s s') (t : Term) : D.TermAlike cx s s' t := by
  induction t using Term.rec' with
  | call receiver method args ihreceiver ihargs =>
    refine ⟨fun env depth => h.call ihreceiver ihargs env depth, fun _ => .none, fun env => ?_,
      fun env types => ?_⟩
    · exact (alike_typesOf ihargs env).bind fun own =>
        (ihreceiver.chainTypes env).bind fun others => AlikeTracked.pure _
    · exact (ihreceiver.dressChain env types.tail).snoc
        ⟨rfl, forall₂_dress ihargs env (types.headD [])⟩
  | closure params body ihbody =>
    -- a function is unknown as a value; what it returns is inferred when it is called
    refine .of_infer_succ (fun env depth => .pure _) (fun env => .some fun ts => ?_)
      (fun _ => .pure _) fun _ _ => ⟨rfl, .nil⟩
    exact ihbody.degrade (env.bind params ts)
  | array items ih =>
    refine .of_infer_succ (fun env depth => ?_) (fun _ => .none) (fun _ => .pure _)
      fun _ _ => ⟨rfl, .nil⟩
    exact Alike.bind (alike_inferItems ih env {}) fun _ => .pure _
  | index target key ihtarget ihkey =>
    refine .of_infer_succ (fun env depth => ?_) (fun _ => .none) (fun _ => .pure _)
      fun _ _ => ⟨rfl, .nil⟩
    exact AlikeTracked.bind (ihtarget.degrade env) fun _ =>
      (ihkey.degrade env).bind fun _ => AlikeTracked.pure _
  | property target name ihtarget =>
    refine .of_infer_succ (fun env depth => ?_) (fun _ => .none) (fun _ => .pure _)
      fun _ _ => ⟨rfl, .nil⟩
    exact AlikeTracked.bind (ihtarget.degrade env) fun _ => AlikeTracked.pure _
  | branches arms ih =>
    refine .of_infer_succ (fun env depth => ?_) (fun _ => .none) (fun _ => .pure _)
      fun _ _ => ⟨rfl, .nil⟩
    exact (alike_inferArms ih env depth).bind fun _ => .pure _
  | unknown | known | param | entity =>
    exact .of_infer_succ (fun env depth => .pure _) (fun _ => .none) (fun _ => .pure _)
      fun _ _ => ⟨rfl, .nil⟩

/-- Inferring an expression is alike under two policies. -/
theorem infer (h : D.Covers cx s s') (scope : Scope) (e : Expr) :
    D.Alike (infer (cx.strictly s) scope e) (infer (cx.strictly s') scope e) :=
  (h.term (scope.term e)).infer [] cx.config.maxDepth

end Covers

/-! ## Forms -/

section Forms

open Rules

theorem enumeration_eq (cx : Context) (key name : String) (f : Facts) (o : RuleObject)
    (h : o.class_ = .enumeration name) :
    f.object cx key o = match cx.catalog.enumeration name with
      | .ok e => pure { f with enumeration := some (.literalSet e.backing e.values) }
      | .error source =>
        giveUp cx (.catalog name source) (some name) (.enumUnavailable key source) f := by
  unfold Facts.object
  rw [h]
  rfl

theorem alike_parsePath (path : String) :
    D.Alike (liftM (parsePath path) : Infer (List Segment)) (liftM (parsePath path)) := by
  cases parsePath path with
  | ok segments => exact .pure segments
  | error e => exact .throw e

namespace Covers

theorem object (h : D.Covers cx s s') (key : String) (f : Facts) (o : RuleObject) :
    D.Alike (f.object (cx.strictly s) key o) (f.object (cx.strictly s') key o) := by
  cases hclass : o.class_ with
  | enumeration name =>
    rw [enumeration_eq _ key name f o hclass, enumeration_eq _ key name f o hclass,
      cx.catalog_strictly, cx.catalog_strictly]
    cases cx.catalog.enumeration name with
    | ok e => exact .pure _
    | error source => exact h.giveUp _ _ _ _
  | inclusion =>
    unfold Facts.object
    rw [hclass]
    cases o.literals? with
    | some literals => exact .pure _
    | none => exact Alike.bind (alikeTracked_note _ _) fun _ => .pure _
  | _ =>
    unfold Facts.object
    rw [hclass]
    exact .pure _

theorem token (h : D.Covers cx s s') (key : String) (f : Facts) (token : RuleToken) :
    D.Alike (f.token (cx.strictly s) key token) (f.token (cx.strictly s') key token) := by
  cases token with
  | text text => exact .pure _
  | object o => exact h.object key f o

theorem addEntry (h : D.Covers cx s s') (root : Ty) (entry : String × RuleSet) :
    D.Alike (addEntry (cx.strictly s) root entry) (addEntry (cx.strictly s') root entry) := by
  refine (alike_parsePath entry.1).bind fun path => ?_
  have hleaf : D.Alike (leafType (cx.strictly s) entry.1 entry.2)
      (leafType (cx.strictly s') entry.1 entry.2) :=
    (Alike.foldlM _ (h.token entry.1) {}).bind fun _ => .pure _
  exact hleaf.bind fun _ => .pure _

/-- The type of a form is alike under two policies. -/
theorem formType (h : D.Covers cx s s') (rules : Entries RuleSet) :
    D.Alike (formType (cx.strictly s) rules) (formType (cx.strictly s') rules) :=
  .foldlM rules h.addEntry _

end Covers

end Forms

/-! ## Tasks -/

namespace Covers

theorem walk (h : D.Covers cx s s') (scope : Scope) (e : Expr) {f g : Chain → Infer α}
    (hfg : ∀ c c', D.ChainAlike c c' → D.Alike (f c) (g c')) :
    D.Alike (liftM (walk (cx.strictly s) scope e) >>= f)
      (liftM (walk (cx.strictly s') scope e) >>= g) := by
  have ht := h.term (scope.term e)
  unfold QueryTypes.walk
  rw [Term.chain_eq, Term.chain_eq]
  exact AlikeTracked.bind_map (ht.chainTypes []) fun types => hfg _ _ (ht.dressChain [] types)

/-- Whatever a session is asked for is alike under two policies. -/
theorem task (h : D.Covers cx s s') (task : Task) :
    D.Alike (task.infer? (cx.strictly s)) (task.infer? (cx.strictly s')) := by
  cases task with
  | infer scope e => exact (h.infer scope e).bind fun _ => .pure _
  | row scope e => exact h.walk scope e fun _ _ => h.rowOfAlike
  | result scope e => exact h.walk scope e fun _ _ => h.resultOfAlike
  | form rules => exact (h.formType rules).bind fun _ => .pure _

end Covers

end Discipline

end QueryTypes
