import QueryTypes.Proofs.Lockstep.Engine
import QueryTypes.Proofs.Termination.Descent
import QueryTypes.Proofs.Termination.Locality

/-!
# Inferences terminate

No infinite chain of questions is asked one by the other (`wellFounded_asks`), and a reply depends
only on the answers to what it asks (`Answers.reply_congr`). So the replies have exactly one
solution, whatever the catalog and the policy. It is the inference of terms
(`inference_wellFounded`): what is asked about an expression in a scope is what is inferred for the
term of the expression.
-/

set_option autoImplicit false

namespace QueryTypes

variable (cx : Context)

/-! ## Chains -/

/-- An argument with what it returns. -/
def Operand.argument (o : Operand) : Argument := ⟨o.ty, (o.scope.term o.expr).callable? cx []⟩

/-- A call with what its arguments return. -/
def Call.step (c : Call) : Step := ⟨c.method, c.operands.map (Operand.argument cx)⟩

/-- The chain of a trail, with what its arguments return. -/
def Trail.chain {e : Expr} {s : Scope} (t : Trail e s) : Chain :=
  ⟨t.root, t.calls.map (Call.step cx)⟩

/-- The types of arguments at the end of a scope. -/
def argumentTypes (s : Scope) (args : List Expr) : Tracked (List Ty) :=
  args.mapM fun a => degrade (infer cx s a)

/-- The chain of calls that an expression is, with its arguments as they stand. -/
def trail : (e : Expr) → (s : Scope) → Tracked (Trail e s)
  | .call receiver method args, s => do
    let types ← argumentTypes cx s args
    let t ← trail receiver s
    return t.call method args types
  | .staticCall entity method args, s => do
    let types ← argumentTypes cx s args
    return .start s entity method args types
  | .entity name, _ => return .bare (some name)
  | .var name, s =>
    match h : s.lookup? name s.endPos with
    | some (pos, value) => do
      let t ← trail value (s.upTo pos)
      return t.follow h
    | none => return .bare none
  | .literal _, _ | .typed _, _ | .array _, _ | .index .., _ | .property .., _ | .closure .., _
  | .branches _, _ | .obscure, _ => return .bare none
termination_by e s => (s.length, sizeOf e)
decreasing_by
  · exact .right _ (by simp only [Expr.call.sizeOf_spec]; omega)
  · exact .left _ _ (Scope.length_upTo_lt h)

variable {cx}

theorem Scope.term_call (s : Scope) (receiver : Expr) (method : String) (args : List Expr) :
    s.term (.call receiver method args) = .call (s.term receiver) method (args.map s.term) := by
  rw [term, Expr.link, Expr.linkList_eq_map]
  rfl

theorem Scope.term_staticCall (s : Scope) (entity method : String) (args : List Expr) :
    s.term (.staticCall entity method args) = .call (.entity entity) method (args.map s.term) := by
  rw [term, Expr.link, Expr.linkList_eq_map]
  rfl

theorem map_argument_operands (s : Scope) (args : List Expr) (types : List Ty) :
    (operands s args types).map (Operand.argument cx) =
      Term.dress cx [] (args.map s.term) types := by
  induction args generalizing types with
  | nil => rfl
  | cons a rest ih =>
    cases types with
    | nil => rfl
    | cons t types => exact congrArg (List.cons _) (ih types)

theorem arguments_map_term (s : Scope) (args : List Expr) :
    Term.arguments cx (args.map s.term) [] =
      (fun types => (operands s args types).map (Operand.argument cx)) <$>
      argumentTypes cx s args := by
  rw [Term.arguments_eq, Term.typesOf, List.mapM_map]
  simp only [map_argument_operands]
  rfl

/-- The trail of an expression has the chain of the expression. -/
theorem chain_trail (e : Expr) (s : Scope) : Trail.chain cx <$> trail cx e s = walk cx s e := by
  -- down the receivers, and through variables to where they were assigned
  induction e, s using trail.induct with
  | case1 receiver method args s ih =>
    have ih : Trail.chain cx <$> trail cx receiver s = (s.term receiver).chain cx [] := ih
    have hsnoc (t : Trail receiver s) (types : List Ty) : (t.call method args types).chain cx =
        { t.chain cx with steps := (t.chain cx).steps ++
          [⟨method, (operands s args types).map (Operand.argument cx)⟩] } := by
      simp only [Trail.chain, Trail.call, List.map_append]
      rfl
    rw [walk, Scope.term_call, Term.chain, ← ih, arguments_map_term, trail]
    simp only [map_eq_pure_bind, bind_assoc, pure_bind, hsnoc]
  | case2 entity method args s =>
    rw [walk, Scope.term_staticCall, Term.chain, Term.chain, arguments_map_term, trail]
    simp only [map_eq_pure_bind, bind_assoc, pure_bind]
    rfl
  | case3 name s =>
    rw [trail, map_pure]
    rfl
  | case4 name s pos value hfound ih =>
    have hwalk : walk cx s (.var name) = walk cx (s.upTo pos) value := by
      rw [walk, walk, Scope.term_var, hfound]
    rw [hwalk, ← ih, trail]
    split
    · next pos' value' hfound' =>
      obtain ⟨rfl, rfl⟩ := Prod.mk.inj (Option.some.inj (hfound.symm.trans hfound'))
      simp only [map_eq_pure_bind, bind_assoc, pure_bind]
      rfl
    · next hnone =>
      rw [hfound] at hnone
      cases hnone
  | case5 name s hnone =>
    rw [walk, Scope.term_var, hnone, trail]
    split
    · next pos value hfound =>
      rw [hnone] at hfound
      cases hfound
    · rfl
  | case6 | case7 | case8 | case9 | case10 | case11 | case12 | case13 =>
    rw [trail, map_pure]
    rfl

theorem splitAtFinisher_eq (steps : List Step) :
    splitAtFinisher steps =
      (steps.take ((steps.takeWhile fun s => !isFinisher s.name).length + 1),
        steps.drop ((steps.takeWhile fun s => !isFinisher s.name).length + 1)) := by
  induction steps with
  | nil => rfl
  | cons first rest ih =>
    rw [splitAtFinisher, List.takeWhile_cons]
    cases isFinisher first.name with
    | true => rfl
    | false => simp [ih]

/-- A chain that starts at an entity is its query with the calls after it applied to the result. -/
theorem resolveChain_chain {e : Expr} {s : Scope} (t : Trail e s) :
    resolveChain cx (t.chain cx) = (do
      match ← resolveResult cx t.query with
      | some u => t.after.foldlM (fun u c => applyStep cx u (c.step cx)) u
      | none => return .unknown) := by
  have hcut : (((t.chain cx).steps.takeWhile fun s => !isFinisher s.name).length + 1) = t.cut := by
    rw [Trail.chain, List.takeWhile_map, List.length_map]
    rfl
  have hquery : resolveResult cx { t.chain cx with steps := ((t.chain cx).steps.take t.cut) } =
      resolveResult cx t.query := by
    -- a query does not call its arguments
    refine resolveResult_congr cx _ _ rfl ?_
    simp only [Trail.chain, Trail.query, ← List.map_take, List.map_map]
    refine List.map_congr_left fun c _ => ?_
    simp [Step.words, Step.argTypes, Call.step, Operand.argument, Function.comp_def]
  rw [resolveChain, splitAtFinisher_eq, hcut]
  dsimp only
  rw [hquery]
  refine bind_congr fun u => ?_
  cases u with
  | none => rfl
  | some u => simp only [Trail.chain, Trail.after, ← List.map_drop, List.foldlM_map]

/-! ## Types off parts -/

theorem inferItems_link (s : Scope) (items : List Item) (st : Reading.ArrayState) :
    Term.inferItems cx (items.map (Item.link s.definitions [])) [] st =
      items.foldlM (Item.readOff fun a => degrade (infer cx s a)) st := by
  rw [Term.inferItems_eq_foldlM, List.foldlM_map]
  refine foldlM_congr (fun st i _ => ?_) st
  cases i with
  | positional value => rfl
  | keyed key value => rfl

theorem inferArms_term (s : Scope) (arms : List Expr) (depth : Nat) :
    Term.inferArms cx (arms.map s.term) [] depth =
      arms.mapM fun a => (s.term a).infer cx [] depth := by
  rw [Term.inferArms_eq_mapM, List.mapM_map]
  rfl

/-! ## The answers -/

variable (cx)

/-- The type of a chain of calls: of a query with collection methods after it, or of a collection
method on the receiver. -/
def chainType (e : Expr) (s : Scope) (budget : Nat) : Infer Ty := do
  let t ← trail cx e s
  if t.root.isSome then resolveChain cx (t.chain cx)
  else
    match e with
    | .call receiver method args => do
      let u ← (s.term receiver).infer cx [] budget
      let own ← Term.arguments cx (args.map s.term) []
      let result ← resolveCollectionMethod cx.config.maxDepth method u own
      return result.getD .unknown
    | _ => e.readOff (fun a s => degrade (infer cx s a)) s

/-- The answers that the inference of terms gives. -/
def answers : Answers
  | .infer e s => infer cx s e
  | .within e s budget => (s.term e).infer cx [] budget
  | .chain e s budget => chainType cx e s budget
  | .walk e s => trail cx e s
  | .type e s => degrade (infer cx s e)
  | .read e s => e.readOff (fun a s => degrade (infer cx s a)) s
  | .method name receiver args =>
    resolveCollectionMethod cx.config.maxDepth name receiver (args.map (Operand.argument cx))
  | .returns e s => (s.term e).callable? cx []
  | .result query => resolveResult cx query
  | .queryRow query => resolveRow cx query
  | .wholeRow entity => entityRow cx entity
  | .row entity depth => rowAt cx depth entity
  | .relations entity depth tree row => attachRelations cx entity depth tree row

variable {cx}

theorem reply_chain (e : Expr) (s : Scope) (budget : Nat) :
    (answers cx).replyChain cx e s budget = chainType cx e s budget := by
  unfold Answers.replyChain chainType
  refine bind_congr fun t => ?_
  split
  · rw [resolveChain_chain]
    rfl
  · cases e with
    | call receiver method args =>
      dsimp only
      refine bind_congr fun u => ?_
      rw [arguments_map_term]
      refine bind_congr fun types => bind_congr fun result => ?_
      cases result with
      | some u => rfl
      | none => rfl
    | _ => rfl

/-- What is made of a trail by its chain alone is made of the chain of calls that the expression
is. -/
theorem bind_trail (e : Expr) (s : Scope) (k : Chain → Infer Ty) :
    ((liftM (trail cx e s) : Infer (Trail e s)) >>= fun t => k (t.chain cx)) =
      (liftM (walk cx s e) : Infer Chain) >>= k := by
  rw [← chain_trail]
  rfl

/-- Calls are inferred along their trail. -/
theorem infer_call (receiver : Expr) (method : String) (args : List Expr) (s : Scope)
    (budget : Nat) :
    (s.term (.call receiver method args)).infer cx [] (budget + 1) =
      chainType cx (.call receiver method args) s (budget + 1) := by
  refine Eq.trans ?_ (bind_trail (.call receiver method args) s fun chain =>
    if chain.root.isSome then resolveChain cx chain
    else do
      let u ← (s.term receiver).infer cx [] (budget + 1)
      let own ← Term.arguments cx (args.map s.term) []
      let result ← resolveCollectionMethod cx.config.maxDepth method u own
      return result.getD .unknown).symm
  -- a term walks its receiver and adds the last call itself
  rw [walk, Scope.term_call, Term.infer, Term.chain]
  rfl

theorem infer_staticCall (entity method : String) (args : List Expr) (s : Scope) (budget : Nat) :
    (s.term (.staticCall entity method args)).infer cx [] (budget + 1) =
      chainType cx (.staticCall entity method args) s (budget + 1) := by
  refine Eq.trans ?_ (bind_trail (.staticCall entity method args) s fun chain =>
    if chain.root.isSome then resolveChain cx chain else return .unknown).symm
  rw [walk, Scope.term_staticCall, Term.infer, Term.chain]
  rfl

theorem reply_within (e : Expr) (s : Scope) (budget : Nat) :
    (answers cx).replyWithin e s budget = (s.term e).infer cx [] budget := by
  cases budget with
  | zero => rw [Term.infer_zero]; rfl
  | succ budget =>
    cases e with
    | call receiver method args => exact (infer_call receiver method args s budget).symm
    | staticCall entity method args => exact (infer_staticCall entity method args s budget).symm
    | var name =>
      simp only [Answers.replyWithin]
      rw [Scope.term_var]
      cases hfound : s.lookup? name s.endPos with
      | some found => rfl
      | none =>
        simp only [answers, Expr.readOff, hfound]
        rfl
    | branches arms =>
      simp only [Answers.replyWithin, answers]
      rw [Scope.term, Expr.link, Expr.linkList_eq_map, Term.infer]
      exact congrArg (· >>= fun ts => pure (Ty.union ts)) (inferArms_term s arms budget).symm
    | array items =>
      simp only [Answers.replyWithin, answers, Expr.readOff]
      rw [Scope.term, Expr.link, Expr.linkItems_eq_map, Term.infer, inferItems_link]
      rfl
    | entity | literal | typed | index | property | closure | obscure => rfl

theorem reply_walk (e : Expr) (s : Scope) : (answers cx).replyWalk s e = trail cx e s := by
  cases e with
  | call receiver method args => rw [trail]; rfl
  | staticCall entity method args => rw [trail]; rfl
  | var name => rw [trail]; rfl
  | entity | literal | typed | array | index | property | closure | branches | obscure =>
    rw [trail]
    rfl

theorem reply_returns (e : Expr) (s : Scope) :
    (answers cx).replyReturns s e = (s.term e).callable? cx [] := by
  cases e with
  | closure params body =>
    simp only [Answers.replyReturns, answers, infer_bindParams]
    rw [Scope.term, Expr.link, List.append_nil, Term.callable?]
  | var name =>
    simp only [Answers.replyReturns]
    rw [Scope.term_var]
    cases s.lookup? name s.endPos with
    | none => rfl
    | some found => rfl
  | entity | call | staticCall | literal | typed | array | index | property | branches
  | obscure => rfl

/-! ## Queries and rows -/

theorem pluckedArgument_answers (entity : String) (columns : List Column) (arg : Option Ty) :
    (answers cx).pluckedArgument cx entity columns arg = pluckedArgument cx entity columns arg := by
  cases arg with
  | none => rfl
  | some arg => rfl

theorem finish_answers (entity : String) (last : Step) (row : Ty) :
    (answers cx).finish cx entity last row = finish cx entity last row := by
  unfold Answers.finish
  split
  · next hending =>
    simp only [finish, hending, pluckedArgument_answers]
  · next hending =>
    simp only [finish, hending]
    rfl
  · rfl

theorem reply_result (query : Chain) :
    (answers cx).replyResult cx query = resolveResult cx query := by
  unfold Answers.replyResult resolveResult
  cases query.steps.getLast? with
  | none => rfl
  | some last =>
    refine bind_congr fun row => ?_
    cases row with
    | none => rfl
    | some row => exact finish_answers _ _ row

theorem reply_row (entity : String) (depth : Nat) :
    (answers cx).replyRow cx entity depth = rowAt cx depth entity := by
  cases depth with
  | zero => rfl
  | succ depth => rfl

theorem attachList_eq_foldlM (entity : String) (depth : Nat)
    (children : List (String × RelationTree)) (row : Ty) :
    attachList cx entity depth children row =
      children.foldlM ((answers cx).attach cx entity depth) row := by
  induction children generalizing row with
  | nil => rfl
  | cons child rest ih =>
    obtain ⟨name, nested⟩ := child
    rw [attachList, List.foldlM_cons, Answers.attach]
    split
    · rw [pure_bind, ih]
    · dsimp only
      cases cx.catalog.relation? entity name with
      | none => simp only [bind_assoc, pure_bind, ih]
      | some relation =>
        simp only [bind_assoc, pure_bind, ih]
        rfl

theorem reply_relations (entity : String) (depth : Nat) (tree : RelationTree) (row : Ty) :
    (answers cx).replyRelations cx entity depth tree row =
      attachRelations cx entity depth tree row := by
  obtain ⟨children⟩ := tree
  rw [Answers.replyRelations, attachRelations, attachList_eq_foldlM]
  rfl

/-- The answers that the inference of terms gives are what every question is replied with. -/
theorem reply_answers : (answers cx).reply cx = answers cx := by
  funext q
  cases q with
  | infer e s => rfl
  | within e s budget => exact reply_within e s budget
  | chain e s budget => exact reply_chain e s budget
  | walk e s => exact reply_walk e s
  | type e s => rfl
  | read e s => rfl
  | method name receiver args => rfl
  | returns e s => exact reply_returns e s
  | result query => exact reply_result query
  | queryRow query => rfl
  | wholeRow entity => rfl
  | row entity depth => exact reply_row entity depth
  | relations entity depth tree row => exact reply_relations entity depth tree row

/-! ## Termination -/

/-- Answers that are replied with are determined. -/
theorem eq_of_reply_eq {f g : Answers} (hf : f.reply cx = f) (hg : g.reply cx = g) : f = g := by
  funext q
  induction q using (wellFounded_asks cx).induction with
  | h q ih =>
    calc f q = f.reply cx q := (congrFun hf q).symm
      _ = g.reply cx q := Answers.reply_congr ih
      _ = g q := congrFun hg q

/-- The recursion of an inference is well-founded, for every catalog and policy. No infinite chain
of questions is asked one by the other; a reply depends only on the answers to what it asks; and the
answers of the inference, with the chains that it walks, are the only ones that satisfy all
replies. -/
theorem inference_wellFounded (cx : Context) :
    (WellFounded fun callee caller => Asks cx caller callee) ∧
    (∀ (f g : Answers) (q : Question), (∀ callee, Asks cx q callee → f callee = g callee) →
      f.reply cx q = g.reply cx q) ∧
    (∀ f : Answers, f.reply cx = f ↔ f = answers cx) ∧
    ∀ (e : Expr) (s : Scope), Trail.chain cx <$> trail cx e s = walk cx s e := by
  refine ⟨wellFounded_asks cx, fun f g q h => Answers.reply_congr h, fun f => ⟨fun h => ?_, ?_⟩,
    chain_trail⟩
  · exact eq_of_reply_eq h reply_answers
  · rintro rfl
    exact reply_answers

/-- A callback, asked for from the last unit of the budget, is read in a longer scope and with the
full budget. The chain of questions ends nevertheless. -/
theorem inference_wellFounded_callback :
    let cx : Context := ⟨{ maxDepth := 8 }, {}⟩
    let e : Expr := .call (.var "names") "map" [.closure ["n"] (.branches [.var "n", .var "names"])]
    Relation.TransGen (Asks cx) (.within e [] 1)
        (.within (.branches [.var "n", .var "names"]) [⟨"n", .typed .string⟩] 8) ∧
      WellFounded fun callee caller => Asks cx caller callee := by
  intro cx e
  refine ⟨?_, (inference_wellFounded cx).1⟩
  let body : Expr := .branches [.var "n", .var "names"]
  let callback : Operand := ⟨.closure ["n"] body, [], .unknown⟩
  have halong : Along e [] ⟨"map", [callback]⟩ := .last (by simp [callback, body])
  have hmethod : Asks cx (.chain e [] 1) (.method "map" (.list .string) [callback]) :=
    .chain_method 1 _ halong
  have hreturns : Asks cx (.method "map" (.list .string) [callback])
      (.returns (.closure ["n"] body) []) :=
    Asks.method (o := callback) "map" _ List.mem_cons_self
  have hbody : Asks cx (.returns (.closure ["n"] body) []) (.type body [⟨"n", .typed .string⟩]) :=
    .returns_body ["n"] body [] [.string]
  exact (((((Relation.TransGen.single (.within_chain e [] 1)).tail hmethod).tail hreturns).tail
    hbody).tail (.type _ _)).tail (.infer _ _)

end QueryTypes
