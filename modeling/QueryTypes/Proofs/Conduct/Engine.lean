import QueryTypes.Proofs.Conduct.Query
import QueryTypes.Proofs.Substitution

/-!
# Runs of the engine

A collection method consults its arguments (`Collection.consult`) and makes a type of what they
answer (`Collection.completed`). A property of types is kept by the engine (`Context.Preserves`) if
the types that it makes have the property as long as those that it makes them of do.

A term is regular (`Term.Regular`) for a conduct and a property of types if, wherever the parameters
around it have the property, inferring it keeps to the conduct and gives a type with the property,
and so do its calls as a function and the arguments along its chain. Being regular passes from the
parts of a term to the term.
-/

set_option autoImplicit false

namespace QueryTypes

/-! ## Collection methods in two steps -/

namespace Collection

/-- What a method asks its arguments: for a default, or for what a callback returns. -/
def consult (v : View) (args : List Argument) : Method → Tracked (Option Ty)
  | .item => do
    let fallback ← defaultType args[1]?
    return some fallback
  | .map | .mapWithKeys => callback? v args
  | _ => return none

/-- What a method makes of a collection and of the answer of its arguments. -/
def completed (depth : Nat) (receiver : Ty) (v : View) (args : List Argument) (answer : Option Ty) :
    Method → Option Ty
  | .toArray => some (receiver.withOrigin none)
  | .values => some ((Ty.keyed none v.item).withOrigin v.origin)
  | .keys => some ((Ty.list v.position).withOrigin v.origin)
  | .item => answer.map fun fallback => .union [v.item, fallback]
  | .count => some (.integerFrom 0)
  | .test => some .boolean
  | .map => answer.map fun t => (Ty.keyed v.key (t.withRequired false)).withOrigin v.origin
  | .mapWithKeys => answer.bind (gather? depth v)
  | .pluck => pluck? v args
  | .rearrange => some receiver

theorem resultOf_eq (depth : Nat) (receiver : Ty) (v : View) (args : List Argument) (m : Method) :
    resultOf depth receiver v args m = do
      return completed depth receiver v args (← consult v args m) m := by
  cases m <;> rfl

end Collection

/-! ## Properties of types -/

/-- What has been read of an array literal has types with the property. -/
structure Reading.ArrayState.Holds (T : Ty → Prop) (st : Reading.ArrayState) : Prop where
  shape : ∀ e ∈ st.shape, T e.2
  openKeys : ∀ t ∈ st.openKeys, T t
  values : ∀ t ∈ st.values, T t

/-- The parameters in reach have types with the property. -/
def Env.Holds (T : Ty → Prop) (env : Env) : Prop := ∀ b ∈ env, T b.2

/-- The types that the engine makes have a property if those that it makes them of do. -/
structure Context.Preserves (cx : Context) (T : Ty → Prop) : Prop where
  unknown : T .unknown
  null : T .null
  withRequired : ∀ {t : Ty} (required : Bool), T t → T (t.withRequired required)
  union : ∀ {ts : List Ty}, (∀ t ∈ ts, T t) → T (.union ts)
  field : ∀ {t : Ty} (name : String), T t → T (t.field name)
  entry : ∀ {t : Ty} (key : Ty), T t → T (Reading.entry t key)
  literalArray : ∀ {st : Reading.ArrayState}, st.Holds T → T st.type
  view : ∀ {depth : Nat} {t : Ty} {v : Collection.View}, T t → Collection.view? depth t = some v →
    T v.item ∧ T v.position
  completed : ∀ {depth : Nat} {t u : Ty} {v : Collection.View} {args : List Argument}
    {answer : Option Ty} {m : Collection.Method}, T t → Collection.view? depth t = some v →
    (∀ a, answer = some a → T a) → Collection.completed depth t v args answer m = some u → T u
  attachedRow : ∀ {row : Ty} (entity : String) (tree : RelationTree), T row →
    T (attachedRow cx.catalog entity cx.config.maxDepth tree row)
  rowOf : ∀ (depth : Nat) (entity : String) (p : Projection),
    T (rowOf cx.catalog depth entity p .empty)
  finished : ∀ {row t : Ty} {entity : String} {last : Step}, T row →
    finished cx entity last row = some t → T t

/-- Having any type is kept. -/
theorem Context.preserves_true (cx : Context) : cx.Preserves fun _ => True := by
  constructor <;> intros <;> trivial

namespace Reading.ArrayState.Holds

variable {cx : Context} {T : Ty → Prop} (hT : cx.Preserves T) {st : Reading.ArrayState} {v : Ty}

omit cx hT in
theorem empty : Reading.ArrayState.Holds T {} := ⟨nofun, nofun, nofun⟩

include hT

theorem addValue (h : st.Holds T) (hv : T v) : (st.addValue v).Holds T where
  shape := h.shape
  openKeys := h.openKeys
  values :=
    List.forall_mem_append.2 ⟨h.values, List.forall_mem_singleton.2 (hT.withRequired false hv)⟩

theorem putNamed (h : st.Holds T) (name : String) (hv : T v) : (st.putNamed name v).Holds T where
  shape := Entries.forall_mem_put h.shape name (hT.withRequired true hv)
  openKeys := h.openKeys
  values := h.values

theorem putAt (h : st.Holds T) (n : Int64) (hv : T v) : (st.putAt n v).Holds T where
  shape := Entries.forall_mem_put h.shape _ (hT.withRequired true hv)
  openKeys := h.openKeys
  values := h.values

theorem putOpen (h : st.Holds T) {k : Ty} (hk : T k) : (st.putOpen k).Holds T where
  shape := h.shape
  openKeys :=
    List.forall_mem_append.2 ⟨h.openKeys, List.forall_mem_singleton.2 (hT.withRequired false hk)⟩
  values := h.values

end Reading.ArrayState.Holds

namespace Env.Holds

variable {T : Ty → Prop} {env : Env} (h : env.Holds T) (hunknown : T .unknown)

include h hunknown

theorem type (name : String) : T (env.type name) := by
  rw [Env.type]
  cases hlookup : env.lookup name with
  | none => exact hunknown
  | some t =>
    obtain ⟨front, back, hsplit, -⟩ := List.lookup_eq_some_iff.1 hlookup
    exact h (name, t) (by simp [hsplit])

theorem bind (params : List String) {types : List Ty} (htypes : ∀ t ∈ types, T t) :
    (env.bind params types).Holds T := by
  induction params generalizing env types with
  | nil => exact h
  | cons p ps ih =>
    cases types with
    | nil => exact ih (List.forall_mem_cons.2 ⟨hunknown, h⟩) htypes
    | cons t ts =>
      obtain ⟨ht, hts⟩ := List.forall_mem_cons.1 htypes
      exact ih (List.forall_mem_cons.2 ⟨ht, h⟩) hts

end Env.Holds

/-! ## Calls -/

/-- Whatever the engine gives up or turns into a note is allowed. -/
structure Conduct.Serves (C : Conduct) (cx : Context) (T : Ty → Prop) : Prop extends
    C.Keeps cx fun _ => T where
  preserves : cx.Preserves T
  collectionMethod : ∀ name, C.GivesUpOn cx (.collectionMethod name)
  builderMethod : ∀ name, C.GivesUpOn cx (.builderMethod name)
  notBuilderMethod : ∀ name, C.GivesUpOn cx (.notBuilderMethod name)
  failure : ∀ e, C.Fails e → C.Records (.failure e)

/-- A conduct that allows every note, and every failure under a strict policy, covers the engine if
it keeps rows with the property. -/
theorem Conduct.Serves.of_records {C : Conduct} {cx : Context} {T : Ty → Prop} (hT : cx.Preserves T)
    (hrecords : ∀ cause, C.Records cause) (hfails : cx.config.strict = true → ∀ e, C.Fails e)
    (hfound : ∀ {p : Progress} {entity : String} {row : Ty}, C.Sound p →
      p.rows.find? (cx.rowKey entity) = some row → T row)
    (hkept : ∀ {p : Progress} {entity : String} {row : Ty}, C.Sound p → T row →
      C.Sound (p.kept (cx.rowKey entity) row) ∧ C.Leads p (p.kept (cx.rowKey entity) row)) :
    C.Serves cx T := by
  have hgivesUp (error : InferError) (cause : Cause) : C.GivesUp cx error cause :=
    ⟨fun hstrict => hfails hstrict error, fun _ => hrecords cause⟩
  exact {
    columns := fun _ _ _ => hgivesUp _ _
    relation := fun _ => hrecords _
    literal := hrecords _
    computed := fun entity => hT.rowOf _ entity _
    found := hfound
    kept := fun _ hp hrow => hkept hp (hrow ▸ hT.rowOf _ _ _)
    preserves := hT
    collectionMethod := fun _ _ => hgivesUp _ _
    builderMethod := fun _ _ => hgivesUp _ _
    notBuilderMethod := fun _ _ => hgivesUp _ _
    failure := fun _ _ => hrecords _ }

section Calls

variable (C : Conduct) (T : Ty → Prop)

/-- The type of the argument has the property, and so has what it returns for types that have it. -/
structure Argument.Regular (a : Argument) : Prop where
  ty : T a.ty
  call : ∀ call, a.call? = some call → ∀ types : List Ty, (∀ t ∈ types, T t) →
    C.EnsuresTracked (call types) T

/-- The arguments of every call of a chain are regular. -/
def RegularSteps (steps : List Step) : Prop := ∀ s ∈ steps, ∀ a ∈ s.args, a.Regular C T

variable {C T}

theorem RegularSteps.snoc {steps : List Step} (h : RegularSteps C T steps) {s : Step}
    (hs : ∀ a ∈ s.args, a.Regular C T) : RegularSteps C T (steps ++ [s]) :=
  List.forall_mem_append.2 ⟨h, List.forall_mem_singleton.2 hs⟩

theorem mem_of_mem_splitAtFinisher {s : Step} {steps : List Step}
    (h : s ∈ (splitAtFinisher steps).2) : s ∈ steps := by
  induction steps with
  | nil => exact h
  | cons first rest ih =>
    rw [splitAtFinisher] at h
    split at h
    · exact List.mem_cons_of_mem _ h
    · exact List.mem_cons_of_mem _ (ih h)

namespace Conduct.Serves

variable {cx : Context} (h : C.Serves cx T)

include h

omit h in
theorem call? {a : Argument} (ha : a.Regular C T) {types : List Ty} (htypes : ∀ t ∈ types, T t) :
    C.EnsuresTracked (Collection.call? a types) fun answer => ∀ t, answer = some t → T t := by
  rw [Collection.call?]
  cases hcall : a.call? with
  | none => exact .pure nofun
  | some f =>
    apply (ha.call f hcall types htypes).bind
    intro t ht
    exact .pure fun u hu => Option.some.inj hu ▸ ht

theorem consult {args : List Argument} (hargs : ∀ a ∈ args, a.Regular C T) {v : Collection.View}
    (hv : T v.item ∧ T v.position) (m : Collection.Method) :
    C.EnsuresTracked (Collection.consult v args m) fun answer => ∀ t, answer = some t → T t := by
  have hcallback : C.EnsuresTracked (Collection.callback? v args) fun answer =>
      ∀ t, answer = some t → T t := by
    cases args with
    | nil => exact .pure nofun
    | cons a rest =>
      apply call? (hargs a List.mem_cons_self)
      exact List.forall_mem_cons.2 ⟨hv.1, List.forall_mem_singleton.2 hv.2⟩
  have hdefault : C.EnsuresTracked (Collection.defaultType args[1]?) T := by
    cases hsecond : args[1]? with
    | none => exact .pure h.preserves.null
    | some a =>
      have ha := hargs a (List.mem_of_getElem? hsecond)
      apply (call? ha (List.forall_mem_nil _)).bind
      intro answer hanswer
      cases answer with
      | none => exact .pure ha.ty
      | some t => exact .pure (hanswer t rfl)
  cases m with
  | item =>
    apply hdefault.bind
    intro t ht
    exact .pure fun u hu => Option.some.inj hu ▸ ht
  | map | mapWithKeys => exact hcallback
  | toArray | values | keys | count | test | pluck | rearrange => exact .pure nofun

theorem resolveCollectionMethod (depth : Nat) (method : String) {receiver : Ty}
    (hreceiver : T receiver) {args : List Argument} (hargs : ∀ a ∈ args, a.Regular C T) :
    C.EnsuresTracked (resolveCollectionMethod depth method receiver args)
      fun result => ∀ t, result = some t → T t := by
  rw [QueryTypes.resolveCollectionMethod]
  split
  · next v m hview _ =>
    rw [Collection.resultOf_eq]
    apply (h.consult hargs (h.preserves.view hreceiver hview) m).bind
    intro answer hanswer
    exact .pure fun t ht => h.preserves.completed hreceiver hview hanswer ht
  · exact .pure nofun

theorem applyStep {receiver : Ty} (hreceiver : T receiver) {s : Step}
    (hs : ∀ a ∈ s.args, a.Regular C T) : C.Ensures (applyStep cx receiver s) T := by
  rw [QueryTypes.applyStep]
  apply Ensures.bind (h.resolveCollectionMethod _ _ hreceiver hs)
  intro result hresult
  cases result with
  | some t => exact .pure (hresult t rfl)
  | none =>
    apply (Ensures.unresolved (h.collectionMethod s.name) none).bind_eq
    exact .pure h.preserves.unknown

/-- The row of a chain has the property. -/
theorem of_isChainRow {chain : Chain} {row : Ty}
    (hrow : IsChainRow cx (fun _ => T) chain (some row)) : T row := by
  cases hrow with
  | some hroot hmisuse hrows =>
    apply h.preserves.union
    have hvariants := hrows.forall_mem (T := T) (fun _ => id) (h.preserves.rowOf _ _)
    exact List.forall_mem_map.2 fun row hmem => h.preserves.attachedRow _ _ (hvariants row hmem)

theorem resolveRow (chain : Chain)
    (hchain : ∀ what, chain.Objection cx what → C.GivesUpOn cx what) :
    C.Ensures (resolveRow cx chain) fun row => ∀ t, row = some t → T t := by
  apply (h.toKeeps.resolveRow chain hchain).mono
  rintro _ hrow t rfl
  exact h.of_isChainRow hrow

theorem resolveResult (chain : Chain)
    (hchain : ∀ what, chain.Objection cx what → C.GivesUpOn cx what) :
    C.Ensures (resolveResult cx chain) fun result => ∀ t, result = some t → T t := by
  apply (h.toKeeps.resolveResult chain hchain).mono
  intro result hresult t ht
  obtain ⟨last, row, hrow, hfinished⟩ := hresult t ht
  exact h.preserves.finished (h.of_isChainRow hrow) hfinished

/-- A query, and collection methods on its result. -/
theorem resolveChain {chain : Chain} (hroot : chain.root.isSome = true) (hsteps : chain.steps ≠ [])
    (hregular : RegularSteps C T chain.steps) : C.Ensures (resolveChain cx chain) T := by
  have hquery := isQuery_splitAtFinisher hroot hsteps
  have hresult := h.resolveResult { chain with steps := (splitAtFinisher chain.steps).1 }
  rw [QueryTypes.resolveChain]
  apply (hresult ?_).bind
  · intro result hresult
    cases result with
    | none => exact .pure h.preserves.unknown
    | some t =>
      refine Ensures.foldlM (fun u hu s hs => h.applyStep hu ?_) (hresult t rfl)
      exact hregular s (mem_of_mem_splitAtFinisher hs)
  · -- the chain is cut, so that nothing but its methods can be said against it
    intro what hwhat
    rcases hquery.objection_cases hwhat with ⟨name, rfl⟩ | ⟨name, rfl⟩
    · exact h.notBuilderMethod name
    · exact h.builderMethod name

end Conduct.Serves

end Calls

/-! ## Terms -/

/-- Wherever the parameters around a term have types with the property, it is inferred within the
conduct and with the property, and so are its calls as a function and the arguments along its
chain. -/
structure Term.Regular (C : Conduct) (T : Ty → Prop) (cx : Context) (t : Term) : Prop where
  infer : ∀ {env : Env}, env.Holds T → ∀ depth, C.Ensures (t.infer cx env depth) T
  callable : ∀ {env : Env}, env.Holds T → ∀ call, t.callable? cx env = some call →
    ∀ types : List Ty, (∀ u ∈ types, T u) → C.EnsuresTracked (call types) T
  chain : ∀ {env : Env}, env.Holds T →
    C.EnsuresTracked (t.chain cx env) fun c => RegularSteps C T c.steps

namespace Term

variable {C : Conduct} {T : Ty → Prop} {cx : Context} (h : C.Serves cx T)

include h

/-- A term has an unknown type at depth zero. -/
theorem ensures_infer {t : Term} {env : Env}
    (ht : ∀ depth, C.Ensures (t.infer cx env (depth + 1)) T) :
    ∀ depth, C.Ensures (t.infer cx env depth) T
  | 0 => by
    rw [infer_zero]
    exact .pure h.preserves.unknown
  | depth + 1 => ht depth

/-- A term that is neither a function nor a chain is regular if it is inferred so. -/
theorem Regular.of_infer {t : Term} (hcall : ∀ env, t.callable? cx env = none)
    (hchain : ∀ env, t.chain cx env = pure ⟨none, []⟩)
    (hinfer : ∀ env : Env, env.Holds T → ∀ depth, C.Ensures (t.infer cx env (depth + 1)) T) :
    t.Regular C T cx where
  infer henv := ensures_infer h (hinfer _ henv)
  callable := by
    intro env _ call hsome
    rw [hcall env] at hsome
    cases hsome
  chain := by
    intro env _
    rw [hchain env]
    exact .pure nofun

/-- A part is typed anew at full depth. -/
theorem Regular.degrade {t : Term} (ht : t.Regular C T cx) {env : Env} (henv : env.Holds T) :
    C.EnsuresTracked (QueryTypes.degrade (t.infer cx env cx.config.maxDepth)) T :=
  (ht.infer henv _).degrade h.failure h.preserves.unknown

section Parts

variable {env : Env} (henv : env.Holds T)

include henv

theorem ensures_arguments {args : List Term} (hargs : ∀ a ∈ args, a.Regular C T cx) :
    C.EnsuresTracked (arguments cx args env) fun own => ∀ a ∈ own, a.Regular C T := by
  induction args with
  | nil => exact .pure nofun
  | cons t rest ih =>
    obtain ⟨ht, hrest⟩ := List.forall_mem_cons.1 hargs
    apply (ht.degrade h henv).bind
    intro ty hty
    apply (ih hrest).bind
    intro others hothers
    exact .pure (List.forall_mem_cons.2 ⟨⟨hty, ht.callable henv⟩, hothers⟩)

omit h in
theorem ensures_inferArms {arms : List Term} (harms : ∀ a ∈ arms, a.Regular C T cx) (depth : Nat) :
    C.Ensures (inferArms cx arms env depth) fun ts => ∀ t ∈ ts, T t := by
  rw [inferArms_eq_mapM]
  apply (Conduct.Ensures.mapM (R := fun _ => T) fun a ha => (harms a ha).infer henv depth).mono
  intro ts hts t ht
  obtain ⟨-, -, ht⟩ := exists_of_forall₂ hts ht
  exact ht

theorem ensures_inferItems {items : List TermItem}
    (hitems : ∀ i ∈ items, ∀ t ∈ i.parts, t.Regular C T cx) {st : Reading.ArrayState}
    (hst : st.Holds T) :
    C.EnsuresTracked (inferItems cx items env st) (Reading.ArrayState.Holds T) := by
  have hT := h.preserves
  induction items generalizing st with
  | nil => exact .pure hst
  | cons i rest ih =>
    obtain ⟨hi, hrest⟩ := List.forall_mem_cons.1 hitems
    cases i with
    | positional value =>
      have hvalue := (hi value (by simp [TermItem.parts])).degrade h henv
      have hread : C.EnsuresTracked (Reading.positional st
          (QueryTypes.degrade (value.infer cx env cx.config.maxDepth)))
          (Reading.ArrayState.Holds T) :=
        hvalue.bind fun v hv => .pure ((hst.addValue hT hv).putAt hT _ hv)
      exact hread.bind fun _ => ih hrest
    | keyed key value =>
      have hkey := (hi key (by simp [TermItem.parts])).degrade h henv
      have hvalue := (hi value (by simp [TermItem.parts])).degrade h henv
      have hread : C.EnsuresTracked (Reading.keyed st
          (QueryTypes.degrade (key.infer cx env cx.config.maxDepth))
          (QueryTypes.degrade (value.infer cx env cx.config.maxDepth)))
          (Reading.ArrayState.Holds T) := by
        apply hvalue.bind
        intro v hv
        apply hkey.bind
        intro k _
        have hadded := hst.addValue hT hv
        split
        · next n _ => exact .pure (hadded.putAt hT n hv)
        · next s _ => exact .pure (hadded.putNamed hT s hv)
        · -- a key that is not literal is typed once more
          exact hkey.bind fun k hk => .pure (hadded.putOpen hT hk)
      exact hread.bind fun _ => ih hrest

end Parts

/-! One lemma for each kind of term. -/

theorem regular_unknown : Regular C T cx .unknown :=
  .of_infer h (fun _ => rfl) (fun _ => rfl) fun _ _ _ => .pure h.preserves.unknown

theorem regular_known {ty : Ty} (hty : T ty) : Regular C T cx (.known ty) :=
  .of_infer h (fun _ => rfl) (fun _ => rfl) fun _ _ _ => .pure hty

theorem regular_param (name : String) : Regular C T cx (.param name) :=
  .of_infer h (fun _ => rfl) (fun _ => rfl) fun _ henv _ =>
    .pure (henv.type h.preserves.unknown name)

theorem regular_entity (name : String) : Regular C T cx (.entity name) where
  infer _ := ensures_infer h fun _ => .pure h.preserves.unknown
  callable _ _ := nofun
  chain _ := .pure nofun

theorem regular_array {items : List TermItem}
    (hitems : ∀ i ∈ items, ∀ t ∈ i.parts, t.Regular C T cx) : Regular C T cx (.array items) := by
  refine .of_infer h (fun _ => rfl) (fun _ => rfl) fun env henv depth => ?_
  apply Conduct.Ensures.bind (ensures_inferItems h henv hitems .empty)
  intro st hst
  exact .pure (h.preserves.literalArray hst)

theorem regular_index {target key : Term} (htarget : target.Regular C T cx)
    (hkey : key.Regular C T cx) : Regular C T cx (.index target key) := by
  refine .of_infer h (fun _ => rfl) (fun _ => rfl) fun env henv depth => ?_
  apply (htarget.degrade h henv).bind
  intro t ht
  apply (hkey.degrade h henv).bind
  intro k _
  exact .pure (h.preserves.entry k ht)

theorem regular_property {target : Term} (htarget : target.Regular C T cx) (name : String) :
    Regular C T cx (.property target name) := by
  refine .of_infer h (fun _ => rfl) (fun _ => rfl) fun env henv depth => ?_
  apply (htarget.degrade h henv).bind
  intro t ht
  exact .pure (h.preserves.field name ht)

theorem regular_branches {arms : List Term} (harms : ∀ a ∈ arms, a.Regular C T cx) :
    Regular C T cx (.branches arms) := by
  refine .of_infer h (fun _ => rfl) (fun _ => rfl) fun env henv depth => ?_
  apply (ensures_inferArms henv harms depth).bind
  intro ts hts
  exact .pure (h.preserves.union hts)

theorem regular_closure (params : List String) {body : Term} (hbody : body.Regular C T cx) :
    Regular C T cx (.closure params body) where
  infer _ := ensures_infer h fun _ => .pure h.preserves.unknown
  callable := by
    -- what a function returns is inferred when it is called
    rintro env henv call ⟨⟩ types htypes
    exact hbody.degrade h (henv.bind h.preserves.unknown params htypes)
  chain _ := .pure nofun

/-- A call is a query if its chain starts at an entity, and a collection method if it does not. -/
theorem regular_call {receiver : Term} (hreceiver : receiver.Regular C T cx) (method : String)
    {args : List Term} (hargs : ∀ a ∈ args, a.Regular C T cx) :
    Regular C T cx (.call receiver method args) where
  infer := by
    intro env henv
    refine ensures_infer h fun depth => ?_
    rw [infer]
    apply Conduct.Ensures.bind (ensures_arguments h henv hargs)
    intro own hown
    apply Conduct.Ensures.bind (hreceiver.chain henv)
    intro chain hchain
    dsimp only
    split
    · next hroot =>
      -- with a root the chain has a step, the call itself
      apply h.resolveChain
      · exact hroot
      · exact List.append_ne_nil_of_right_ne_nil _ (List.cons_ne_nil _ _)
      · exact hchain.snoc hown
    · apply (hreceiver.infer henv (depth + 1)).bind
      intro t ht
      apply Conduct.Ensures.bind (ensures_arguments h henv hargs)
      intro again hagain
      apply Conduct.Ensures.bind (h.resolveCollectionMethod _ method ht hagain)
      intro result hresult
      cases result with
      | none => exact .pure h.preserves.unknown
      | some u => exact .pure (hresult u rfl)
  callable _ _ := nofun
  chain := by
    intro env henv
    apply (ensures_arguments h henv hargs).bind
    intro own hown
    apply (hreceiver.chain henv).bind
    intro chain hchain
    exact .pure (hchain.snoc hown)

end Term

/-- Where nothing is asked of types every term is regular. -/
theorem Conduct.Serves.regular {C : Conduct} {cx : Context} (h : C.Serves cx fun _ => True)
    (t : Term) : t.Regular C (fun _ => True) cx := by
  induction t using Term.rec' with
  | unknown => exact Term.regular_unknown h
  | known ty => exact Term.regular_known h trivial
  | entity name => exact Term.regular_entity h name
  | param name => exact Term.regular_param h name
  | call receiver method args ihreceiver ihargs =>
    exact Term.regular_call h ihreceiver method ihargs
  | array items ih => exact Term.regular_array h ih
  | index target key ihtarget ihkey => exact Term.regular_index h ihtarget ihkey
  | property target name ih => exact Term.regular_property h ih name
  | closure params body ih => exact Term.regular_closure h params ih
  | branches arms ih => exact Term.regular_branches h ih

end QueryTypes
