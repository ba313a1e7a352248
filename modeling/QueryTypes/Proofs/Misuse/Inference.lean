import QueryTypes.Proofs.Conduct.Engine
import QueryTypes.Proofs.Misuse.Complaints
import QueryTypes.Proofs.Termination.Inference

/-!
# Chains are cut where they should be

An inference never asks for the result of a chain that is no query (`infer_no_misuse`). It cuts
every chain behind the first call that runs the query before it asks, so that nothing it records and
no failure, at whatever depth of arguments and callbacks, reads like a misuse, and what would be
answered for other chains does not matter.

For the first half, that no misuse is told of is a conduct that covers the engine
(`serves_noMisuse`). The second half is an induction over the questions of an inference: of those,
only some can come up (`Question.Arises`).
-/

set_option autoImplicit false

namespace QueryTypes

/-! ## What is recorded -/

/-- Neither notes nor failures are about misuse. -/
abbrev Conduct.noMisuse : Conduct :=
  .noting (fun n => n.cause.isMisuse = false) fun e => e.isMisuse = false

/-- Of all that the engine gives up, only chains that are no queries are misuse. -/
theorem serves_noMisuse (cx : Context) : Conduct.noMisuse.Serves cx fun _ => True := by
  have hrecords {cause : Cause} (h : cause.isMisuse = false) : Conduct.noMisuse.Records cause :=
    Conduct.records_noting _ fun _ => h
  have hgivesUp {what : Subject} (h : what.isMisuse = false) : Conduct.noMisuse.GivesUpOn cx what :=
    fun _ => ⟨fun _ => h, fun _ => hrecords h⟩
  exact {
    columns := fun _ _ _ => ⟨fun _ => rfl, fun _ => hrecords rfl⟩
    relation := fun _ => hrecords rfl
    literal := hrecords rfl
    computed := fun _ => trivial
    found := fun _ _ => trivial
    kept := fun _ _ _ => ⟨trivial, Conduct.noMisuse.refl _⟩
    preserves := cx.preserves_true
    collectionMethod := fun _ => hgivesUp rfl
    builderMethod := fun _ => hgivesUp rfl
    notBuilderMethod := fun _ => hgivesUp rfl
    failure := fun _ he => hrecords he }

/-! ## What is asked -/

/-- The question can come up in an inference: the result of a query only, and the chain of a call
only. -/
def Question.Arises : Question → Prop
  | .result query => query.IsQuery
  | .chain e _ _ => (∃ receiver method args, e = .call receiver method args) ∨
      ∃ entity method args, e = .staticCall entity method args
  | _ => True

/-- The query of a trail that starts at an entity and has a call. -/
theorem Trail.isQuery_query {e : Expr} {s : Scope} {t : Trail e s} (hroot : t.root.isSome = true)
    (hcalls : t.calls ≠ []) : t.query.IsQuery := by
  -- the trail is cut like the chain of its calls
  let steps : List Step := t.calls.map fun c => ⟨c.method, c.operands.map fun o => ⟨o.ty, none⟩⟩
  have hcut : t.query.steps = (splitAtFinisher steps).1 := by
    rw [splitAtFinisher_eq, Trail.query, Trail.cut]
    simp only [steps, List.takeWhile_map, List.length_map, List.map_take]
    rfl
  have hsteps : steps ≠ [] := fun h => hcalls (List.map_eq_nil_iff.1 h)
  constructor
  · exact hroot
  · rw [hcut]
    exact splitAtFinisher_ne_nil hsteps
  · rw [hcut]
    exact fun s hs => isFinisher_of_mem_dropLast hs

section Questions

variable {cx : Context}

/-- The trail of a call has a call. -/
theorem bind_trail_congr {e : Expr} {s : Scope} {budget : Nat}
    (he : (Question.chain e s budget).Arises) {k k' : Trail e s → Infer Ty}
    (h : ∀ t, t.calls ≠ [] → k t = k' t) :
    ((liftM (trail cx e s) : Infer (Trail e s)) >>= k) = liftM (trail cx e s) >>= k' := by
  rcases he with ⟨receiver, method, args, rfl⟩ | ⟨entity, method, args, rfl⟩
  · rw [trail]
    show ((liftM (argumentTypes cx s args) : Infer (List Ty)) >>= fun types =>
        (liftM (trail cx receiver s) : Infer (Trail receiver s)) >>= fun t =>
          k (t.call method args types)) =
      liftM (argumentTypes cx s args) >>= fun types =>
        liftM (trail cx receiver s) >>= fun t => k' (t.call method args types)
    refine bind_congr fun types => bind_congr fun t => h _ ?_
    exact List.append_ne_nil_of_right_ne_nil _ (List.cons_ne_nil _ _)
  · rw [trail]
    show ((liftM (argumentTypes cx s args) : Infer (List Ty)) >>= fun types =>
        k (.start s entity method args types)) =
      liftM (argumentTypes cx s args) >>= fun types => k' (.start s entity method args types)
    exact bind_congr fun types => h _ (List.cons_ne_nil _ _)

variable {f : Answers}

/-- The reply about a chain of calls asks for the result of a query. -/
theorem replyChain_eq_of_arises {e : Expr} {s : Scope} {budget : Nat}
    (he : (Question.chain e s budget).Arises)
    (h : ∀ callee, Asks cx (.chain e s budget) callee → callee.Arises →
      f callee = answers cx callee) :
    f.replyChain cx e s budget = (answers cx).replyChain cx e s budget := by
  have hread : f (.read e s) = answers cx (.read e s) := h _ (.chain_read e s budget) trivial
  have hwalk : f (.walk e s) = trail cx e s := h _ (.chain_walk e s budget) trivial
  unfold Answers.replyChain
  rw [hwalk]
  refine bind_trail_congr he fun t ht => ?_
  split
  · next hroot =>
    rw [h _ (.chain_result e s budget t.query) (Trail.isQuery_query hroot ht)]
    refine bind_congr fun result => ?_
    cases result with
    | none => rfl
    | some u =>
      -- the calls after the query are collection methods, each asked about by itself
      refine foldlM_congr (fun receiver c hc => ?_) u
      have halong := t.along c (List.mem_of_mem_drop hc)
      exact Answers.applyCall_congr (h _ (.chain_method budget receiver halong) trivial)
  · cases e with
    | call receiver method args =>
      have htypes : f.types s args = (answers cx).types s args :=
        Answers.types_congr fun a ha => h _ (.chain_arg s budget ha) trivial
      dsimp only
      rw [h _ (.chain_receiver receiver method args s budget) trivial, htypes, hread]
      refine bind_congr fun u => bind_congr fun types => ?_
      have halong : Along (.call receiver method args) s ⟨method, operands s args types⟩ :=
        .last fun _ => scope_expr_of_mem_operands
      rw [h _ (.chain_method budget u halong) trivial]
    | _ => exact congrArg liftM hread

/-- The reply within a budget asks for the chain of a call only. -/
theorem replyWithin_eq_of_arises {e : Expr} {s : Scope} {budget : Nat}
    (h : ∀ callee, Asks cx (.within e s budget) callee → callee.Arises →
      f callee = answers cx callee) :
    f.replyWithin e s budget = (answers cx).replyWithin e s budget := by
  cases budget with
  | zero => rfl
  | succ budget =>
    have hread : f (.read e s) = answers cx (.read e s) := h _ (.within_read e s _) trivial
    cases e with
    | call receiver method args =>
      exact h _ (.within_chain _ s _) (.inl ⟨receiver, method, args, rfl⟩)
    | staticCall entity method args =>
      exact h _ (.within_chain _ s _) (.inr ⟨entity, method, args, rfl⟩)
    | var name =>
      simp only [Answers.replyWithin]
      cases hfound : s.lookup? name s.endPos with
      | none => exact congrArg liftM hread
      | some found => exact h _ (.within_var _ hfound) trivial
    | branches arms =>
      simp only [Answers.replyWithin]
      rw [mapM_congr fun a ha => h _ (.within_arm s budget ha) trivial]
    | _ => exact congrArg liftM hread

/-- Answers that are replied with wherever a question is not about a chain that is no query are
those of the inference wherever a question can come up. -/
theorem eq_answers_of_arises
    (hf : ∀ q, (∀ chain, q = .result chain → chain.IsQuery) → f q = f.reply cx q) (q : Question)
    (hq : q.Arises) : f q = answers cx q := by
  induction q using (wellFounded_asks cx).induction with
  | h q ih =>
    have hreply : f q = f.reply cx q := by
      apply hf
      rintro chain rfl
      exact hq
    have hanswers : answers cx q = (answers cx).reply cx q := (congrFun reply_answers q).symm
    rw [hreply, hanswers]
    cases q with
    | within e s budget => exact replyWithin_eq_of_arises ih
    | chain e s budget => exact replyChain_eq_of_arises hq ih
    | infer | walk | type | read | method | returns | result | queryRow | wholeRow | row
    | relations =>
      -- nothing else asks about a chain
      apply Answers.reply_congr
      intro callee hasks
      apply ih callee hasks
      cases hasks <;> trivial

end Questions

/-! ## Inferences -/

/-- An inference never misuses a query. Whatever the expression, the scope, the catalog and the
policy, no note that it records and no failure reads like the complaint about a chain that is no
query; and the results that it asks for are those of queries: with any other answers for chains that
are no queries, its result is the same. -/
theorem infer_no_misuse (cx : Context) (scope : Scope) (e : Expr) :
    (∀ p : Progress,
      (∃ notes, (runFrom (infer cx scope e) p).2.notes = p.notes ++ notes ∧
        ∀ n ∈ notes, ¬ IsMisuseText n.message) ∧
      ∀ error, (runFrom (infer cx scope e) p).1 = .error error → ¬ IsMisuseText error.message) ∧
    ∀ f : Answers, (∀ q, (∀ chain, q = .result chain → chain.IsQuery) → f q = f.reply cx q) →
      f (.infer e scope) = infer cx scope e := by
  constructor
  · intro p
    have hinfer : Conduct.noMisuse.Ensures (infer cx scope e) fun _ => True :=
      ((serves_noMisuse cx).regular (scope.term e)).infer (fun _ _ => trivial) cx.config.maxDepth
    obtain ⟨-, ⟨notes, hnotes, hnone⟩, -⟩ := hinfer p trivial
    refine ⟨⟨notes, hnotes, fun n hn => Cause.not_isMisuseText (hnone n hn)⟩, ?_⟩
    intro error herror
    exact Cause.not_isMisuseText (c := .failure error) (hinfer.failure trivial herror)
  · intro f hf
    exact eq_answers_of_arises hf (.infer e scope) trivial

/-- A callback that reads a chain with a finisher in its midst, and a chain that ends without
one. -/
theorem infer_no_misuse_callback :
    let cx : Context := ⟨{}, {}⟩
    let body : Expr := .call (.call (.staticCall "Post" "first" []) "get" []) "count" []
    let e : Expr :=
      .call (.call (.staticCall "User" "get" []) "map" [.closure ["u"] body]) "first"
        [.entity "User"]
    (∀ q, (∀ chain, q = .result chain → chain.IsQuery) → answers cx q = (answers cx).reply cx q) ∧
      answers cx (.infer e []) = infer cx [] e ∧
      ∀ n ∈ (runFrom (infer cx [] e) {}).2.notes, ¬ IsMisuseText n.message := by
  intro cx body e
  have hreply : ∀ q, (∀ chain, q = .result chain → chain.IsQuery) →
      answers cx q = (answers cx).reply cx q := fun q _ => (congrFun reply_answers q).symm
  obtain ⟨hrun, hasked⟩ := infer_no_misuse cx [] e
  obtain ⟨⟨notes, hnotes, htexts⟩, -⟩ := hrun {}
  refine ⟨hreply, hasked (answers cx) hreply, ?_⟩
  rw [hnotes]
  exact htexts

end QueryTypes
