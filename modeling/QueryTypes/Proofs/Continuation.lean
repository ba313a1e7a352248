import QueryTypes.Proofs.Conclusions
import QueryTypes.Proofs.Totality
import QueryTypes.Proofs.Termination.Inference

/-!
# Calls after a query

Under a lenient policy a call past the end of a query is a collection method on the type of its
receiver (`infer_call_of_past`), in whichever way the receiver comes about. A receiver that starts
at no entity is inferred by itself. A receiver that does and has run its query is not: the whole
chain is cut at its first finisher, and the calls after it are applied one by one. The cut of a
chain does not move when a call is added behind it (`splitAtFinisher_snoc`), so the longer chain
goes on from where the shorter one ended.
-/

set_option autoImplicit false

namespace QueryTypes

/-! ## Longer chains -/

/-- The chain with a call at its end. -/
def Chain.snoc (c : Chain) (last : Step) : Chain := { c with steps := c.steps ++ [last] }

/-- A chain that has run its query. -/
def Chain.HasRun (c : Chain) : Prop := ∃ s ∈ c.steps, isFinisher s.name = true

/-- A call after the query is a call after it in the longer chain. -/
theorem splitAtFinisher_snoc {steps : List Step} (h : ∃ s ∈ steps, isFinisher s.name = true)
    (last : Step) :
    splitAtFinisher (steps ++ [last]) =
      ((splitAtFinisher steps).1, (splitAtFinisher steps).2 ++ [last]) := by
  induction steps with
  | nil =>
    obtain ⟨s, hs, -⟩ := h
    exact absurd hs List.not_mem_nil
  | cons first rest ih =>
    rw [List.cons_append, splitAtFinisher, splitAtFinisher]
    cases hfirst : isFinisher first.name with
    | true => rfl
    | false =>
      have hrest : ∃ s ∈ rest, isFinisher s.name = true := by
        obtain ⟨s, hs, hfinisher⟩ := h
        rcases List.mem_cons.1 hs with rfl | hs
        · rw [hfirst] at hfinisher
          cases hfinisher
        · exact ⟨s, hs, hfinisher⟩
      rw [ih hrest]
      rfl

/-- What is unknown is no collection. -/
theorem resolveCollectionMethod_unknown (depth : Nat) (method : String) (args : List Argument) :
    resolveCollectionMethod depth method .unknown args = pure none := by
  cases depth with
  | zero => rfl
  | succ depth => rfl

section Lenient

variable {cx : Context} (hlenient : cx.config.strict = false) {table : RowTable}

include hlenient

/-- A collection method that gives nothing leaves an unknown type. -/
theorem concludes_applyStep {receiver : Ty} {step : Step} {result : Option Ty}
    (h : Concludes cx.catalog table
      (liftM (resolveCollectionMethod cx.config.maxDepth step.name receiver step.args))
      (.ok result)) :
    Concludes cx.catalog table (applyStep cx receiver step) (.ok (result.getD .unknown)) := by
  apply h.bind_ok
  cases result with
  | some t => exact .pure t
  | none =>
    have hnone : Concludes cx.catalog table
        (unresolved cx none (.collectionMethod step.name) : Infer (Option Ty)) (.ok none) := by
      rw [unresolved, hlenient]
      exact (Concludes.note _ _).bind_ok (.pure none)
    exact hnone.bind_ok (.pure _)

/-- A chain that has run its query goes on from its type. -/
theorem concludes_resolveChain_snoc {chain : Chain} (hrun : chain.HasRun) (p : Progress)
    (halike : (keptRows cx.catalog (p.rows.answer cx.catalog)).ChainAlike chain chain) (last : Step)
    {next : Ty → Option Ty} (hlast : ∀ t, Concludes cx.catalog (p.rows.answer cx.catalog)
      (liftM (resolveCollectionMethod cx.config.maxDepth last.name t last.args)) (.ok (next t))) :
    ∃ t, Concludes cx.catalog (p.rows.answer cx.catalog) (resolveChain cx chain) (.ok t) ∧
      Concludes cx.catalog (p.rows.answer cx.catalog) (resolveChain cx (chain.snoc last))
        (.ok ((next t).getD .unknown)) := by
  have hcovers := covers_keptRows cx (p.rows.answer cx.catalog)
  obtain ⟨hquery, hafter⟩ := Discipline.forall₂_splitAtFinisher halike.steps
  -- both chains have the same query
  let query : Chain := { chain with steps := (splitAtFinisher chain.steps).1 }
  have hquery : (keptRows cx.catalog (p.rows.answer cx.catalog)).ChainAlike query query :=
    ⟨halike.root, hquery⟩
  obtain ⟨result, hresult⟩ := exists_concludes p (hcovers.resultOfAlike hquery)
    (total_resolveResult hlenient query)
  rw [resolveChain, resolveChain, Chain.snoc, splitAtFinisher_snoc hrun]
  cases result with
  | none =>
    refine ⟨.unknown, hresult.bind_ok (.pure _), hresult.bind_ok ?_⟩
    -- an unknown query leaves nothing to apply a collection method to
    have hnone := (hlast .unknown).result (p := p) rfl
    rw [resolveCollectionMethod_unknown] at hnone
    rw [← Except.ok.inj hnone]
    exact .pure _
  | some first =>
    obtain ⟨t, hfold⟩ := exists_concludes p
      (.foldlM₂ hafter (fun t _ _ hab => hcovers.applyStep t hab) first)
      (.foldlM (fun t _ step _ => total_applyStep hlenient t step) trivial)
    refine ⟨t, hresult.bind_ok hfold, hresult.bind_ok ?_⟩
    show Concludes _ _ (((splitAtFinisher chain.steps).2 ++ [last]).foldlM (applyStep cx) first) _
    rw [List.foldlM_append]
    apply hfold.bind_ok
    exact (concludes_applyStep hlenient (hlast t)).bind_ok (.pure _)

end Lenient

/-! ## Terms -/

section Terms

variable {cx : Context} {D : Discipline}

/-- The arguments of a call run alike beside themselves. -/
theorem argAlike_arguments (h : D.Covers cx cx.config.strict cx.config.strict) (args : List Term)
    (env : Env) (p : Progress) :
    List.Forall₂ D.ArgAlike ((Term.arguments cx args env).run p).1
      ((Term.arguments cx args env).run p).1 := by
  rw [Term.arguments_eq]
  exact Discipline.forall₂_dress (fun t _ => h.term t) env _

theorem chainAlike_chain (h : D.Covers cx cx.config.strict cx.config.strict) (t : Term) (env : Env)
    (p : Progress) : D.ChainAlike ((t.chain cx env).run p).1 ((t.chain cx env).run p).1 := by
  rw [Term.chain_eq]
  exact (h.term t).dressChain env _

variable (cx) (p : Progress) (env : Env)

theorem concludes_arguments (args : List Term) :
    Concludes cx.catalog (p.rows.answer cx.catalog) (liftM (Term.arguments cx args env))
      (.ok ((Term.arguments cx args env).run p).1) := by
  have hterms : ∀ t ∈ args, (keptRows cx.catalog (p.rows.answer cx.catalog)).TermAlike cx
      cx.config.strict cx.config.strict t :=
    fun t _ => (covers_keptRows cx (p.rows.answer cx.catalog)).term t
  have htypes := Discipline.alike_typesOf hterms env
  rw [Term.arguments_eq]
  exact concludes_of_alike (htypes.bind fun types => .pure _)

theorem concludes_chain (t : Term) :
    Concludes cx.catalog (p.rows.answer cx.catalog) (liftM (t.chain cx env))
      (.ok ((t.chain cx env).run p).1) := by
  have htypes := ((covers_keptRows cx (p.rows.answer cx.catalog)).term t).chainTypes env
  rw [Term.chain_eq]
  exact concludes_of_alike (htypes.bind fun types => .pure _)

theorem concludes_collectionMethod (depth : Nat) (method : String) (receiver : Ty)
    (args : List Term) :
    Concludes cx.catalog (p.rows.answer cx.catalog)
      (liftM (resolveCollectionMethod depth method receiver ((Term.arguments cx args env).run p).1))
      (.ok ((resolveCollectionMethod depth method receiver
        ((Term.arguments cx args env).run p).1).run p).1) := by
  have hargs := argAlike_arguments (covers_keptRows cx (p.rows.answer cx.catalog)) args env p
  exact concludes_of_alike (Discipline.alike_resolveCollectionMethod depth method receiver hargs)

/-- The chain of a call is that of its receiver with the call at its end. -/
theorem run_chain_call (receiver : Term) (method : String) (args : List Term) :
    (((Term.call receiver method args).chain cx env).run p).1 =
      ((receiver.chain cx env).run p).1.snoc ⟨method, ((Term.arguments cx args env).run p).1⟩ := by
  have hchain : Concludes cx.catalog (p.rows.answer cx.catalog)
      (liftM ((Term.call receiver method args).chain cx env))
      (.ok (((receiver.chain cx env).run p).1.snoc
        ⟨method, ((Term.arguments cx args env).run p).1⟩)) := by
    show Concludes _ _ (liftM (Term.arguments cx args env) >>= fun own =>
      liftM (receiver.chain cx env) >>= fun chain => pure (chain.snoc ⟨method, own⟩)) _
    -- the receiver is walked after the arguments are typed, which does not show
    apply (concludes_arguments cx p env args).bind_ok
    exact (concludes_chain cx p env receiver).bind_ok (.pure _)
  exact Except.ok.inj (hchain.result rfl)

/-- A call that starts at an entity is inferred along its chain. -/
theorem concludes_call_of_root {receiver : Term} (method : String) (args : List Term) (depth : Nat)
    {r : Except InferError Ty} (hroot : ((receiver.chain cx env).run p).1.root.isSome = true)
    (h : Concludes cx.catalog (p.rows.answer cx.catalog)
      (resolveChain cx (((Term.call receiver method args).chain cx env).run p).1) r) :
    Concludes cx.catalog (p.rows.answer cx.catalog)
      ((Term.call receiver method args).infer cx env (depth + 1)) r := by
  rw [run_chain_call] at h
  rw [Term.infer]
  apply (concludes_arguments cx p env args).bind_ok
  apply (concludes_chain cx p env receiver).bind_ok
  dsimp only
  rw [if_pos hroot]
  exact h

/-- A call that starts at no entity is a collection method on its receiver. -/
theorem concludes_call_of_no_root {receiver : Term} (method : String) (args : List Term)
    (depth : Nat) {t : Ty} (hroot : ((receiver.chain cx env).run p).1.root = none)
    (ht : Concludes cx.catalog (p.rows.answer cx.catalog) (receiver.infer cx env (depth + 1))
      (.ok t)) :
    Concludes cx.catalog (p.rows.answer cx.catalog)
      ((Term.call receiver method args).infer cx env (depth + 1))
      (.ok (((resolveCollectionMethod cx.config.maxDepth method t
        ((Term.arguments cx args env).run p).1).run p).1.getD .unknown)) := by
  rw [Term.infer]
  apply (concludes_arguments cx p env args).bind_ok
  apply (concludes_chain cx p env receiver).bind_ok
  dsimp only
  rw [hroot, Option.isSome_none, if_neg Bool.false_ne_true]
  apply ht.bind_ok
  -- the arguments are typed a second time, with the same types
  apply (concludes_arguments cx p env args).bind_ok
  apply (concludes_collectionMethod cx p env _ method t args).bind_ok
  exact .pure _

/-- Past a query, a call is a collection method on the type of its receiver. -/
theorem concludes_call_of_past {cx : Context} (hlenient : cx.config.strict = false) {p : Progress}
    {env : Env} {receiver : Term} (method : String) (args : List Term) (depth : Nat)
    (hpast : ((receiver.chain cx env).run p).1.root = none ∨
      ((receiver.chain cx env).run p).1.HasRun) :
    ∃ t, Concludes cx.catalog (p.rows.answer cx.catalog) (receiver.infer cx env (depth + 1))
      (.ok t) ∧
      Concludes cx.catalog (p.rows.answer cx.catalog)
        ((Term.call receiver method args).infer cx env (depth + 1))
        (.ok (((resolveCollectionMethod cx.config.maxDepth method t
          ((Term.arguments cx args env).run p).1).run p).1.getD .unknown)) := by
  have hcovers := covers_keptRows cx (p.rows.answer cx.catalog)
  cases hroot : ((receiver.chain cx env).run p).1.root with
  | none =>
    obtain ⟨t, ht⟩ := exists_concludes p ((hcovers.term receiver).infer env (depth + 1))
      (total_infer hlenient receiver env (depth + 1))
    exact ⟨t, ht, concludes_call_of_no_root cx p env method args depth hroot ht⟩
  | some entity =>
    have hrun : ((receiver.chain cx env).run p).1.HasRun := by
      apply hpast.resolve_left
      rw [hroot]
      exact Option.some_ne_none entity
    have hroot : ((receiver.chain cx env).run p).1.root.isSome = true := by
      rw [hroot]
      rfl
    obtain ⟨t, hshort, hlong⟩ := concludes_resolveChain_snoc hlenient hrun p
      (chainAlike_chain hcovers receiver env p) ⟨method, ((Term.arguments cx args env).run p).1⟩
      fun t => concludes_collectionMethod cx p env _ method t args
    rw [← run_chain_call] at hlong
    refine ⟨t, ?_, concludes_call_of_root cx p env method args depth hroot hlong⟩
    -- a receiver that has run its query is a call itself
    cases receiver with
    | call inner method' args' =>
      apply concludes_call_of_root cx p env method' args' depth _ hshort
      rw [run_chain_call] at hroot
      exact hroot
    | unknown | known | entity | param | array | index | property | closure | branches =>
      obtain ⟨s, hs, -⟩ := hrun
      exact absurd hs List.not_mem_nil

end Terms

/-! ## Expressions -/

/-- Under a lenient policy a call whose receiver starts at no entity, or has run its query, is a
collection method on the type of the receiver: its type is what the method makes of that type and of
the arguments, and unknown if the method makes nothing of them. -/
theorem infer_call_of_past (cx : Context) (hlenient : cx.config.strict = false) (scope : Scope)
    (receiver : Expr) (method : String) (args : List Expr) (p : Progress)
    (hpast : ((walk cx scope receiver).run p).1.root = none ∨
      ((walk cx scope receiver).run p).1.HasRun) :
    ∃ t, (runFrom (infer cx scope receiver) p).1 = .ok t ∧
      (runFrom (infer cx scope (.call receiver method args)) p).1 =
        .ok (((resolveCollectionMethod cx.config.maxDepth method t
          ((typeArguments cx scope args).run p).1).run p).1.getD .unknown) := by
  rw [infer, infer, Scope.term_call]
  cases hdepth : cx.config.maxDepth with
  | zero =>
    -- at depth zero everything is unknown, and an unknown receiver is no collection
    refine ⟨.unknown, ?_, ?_⟩
    · rw [Term.infer_zero, runFrom_pure]
    · rw [Term.infer_zero, runFrom_pure, resolveCollectionMethod_unknown]
      rfl
  | succ depth =>
    obtain ⟨t, hreceiver, hcall⟩ :=
      concludes_call_of_past hlenient method (args.map scope.term) depth hpast
    refine ⟨t, hreceiver.result rfl, ?_⟩
    rw [hdepth] at hcall
    exact hcall.result rfl

/-- A column of the rows that a variable holds. The chain of the whole call has two finishers, and
is cut at the first. -/
theorem infer_call_of_past_variable :
    let cx : Context :=
      ⟨{}, { entities := [("User", { columns := [⟨"id", .resolved .integer, false⟩] })] }⟩
    let scope : Scope :=
      [⟨"users", .call (.staticCall "User" "where" [.literal (.str "id")]) "get" []⟩]
    ((walk cx scope (.var "users")).run {}).1.HasRun ∧
      ∃ t, (runFrom (infer cx scope (.var "users")) {}).1 = .ok t ∧
        (runFrom (infer cx scope (.call (.var "users") "pluck" [.literal (.str "id")])) {}).1 =
          .ok (((resolveCollectionMethod cx.config.maxDepth "pluck" t
            ((typeArguments cx scope [.literal (.str "id")]).run {}).1).run
            {}).1.getD .unknown) := by
  intro cx scope
  have hrun : ((walk cx scope (.var "users")).run {}).1.HasRun := by
    refine ⟨⟨"get", []⟩, ?_, by decide⟩
    exact List.mem_cons_of_mem _ List.mem_cons_self
  exact ⟨hrun, infer_call_of_past cx rfl scope _ _ _ {} (.inr hrun)⟩

end QueryTypes
