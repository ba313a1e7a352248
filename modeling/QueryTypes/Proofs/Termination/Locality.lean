import QueryTypes.Proofs.Lists
import QueryTypes.Proofs.Termination.Questions

/-!
# Replies depend on what is asked

The reply to a question is determined by the answers to the questions that it asks (`reply_congr`):
the relation `Asks` leaves nothing out.
-/

set_option autoImplicit false

namespace QueryTypes

/-! ## Types off parts -/

theorem Item.readOff_congr {type type' : Expr → Tracked Ty} {i : Item}
    (h : ∀ a ∈ i.parts, type a = type' a) (st : Reading.ArrayState) :
    i.readOff type st = i.readOff type' st := by
  cases i with
  | positional value => rw [readOff, readOff, h value (by simp [parts])]
  | keyed key value => rw [readOff, readOff, h key (by simp [parts]), h value (by simp [parts])]

theorem Expr.readOff_congr {type type' : Expr → Scope → Tracked Ty} {s : Scope} {e : Expr}
    (hparts : ∀ a ∈ e.parts, type a s = type' a s)
    (hvar : ∀ name pos value, e = .var name → s.lookup? name s.endPos = some (pos, value) →
      type value (s.upTo pos) = type' value (s.upTo pos)) :
    e.readOff type s = e.readOff type' s := by
  cases e with
  | var name =>
    rw [readOff, readOff]
    cases hfound : s.lookup? name s.endPos with
    | none => rfl
    | some found => exact hvar name found.1 found.2 rfl hfound
  | array items =>
    have hitems (st : Reading.ArrayState) (i : Item) (hi : i ∈ items) :
        Item.readOff (fun a => type a s) st i = Item.readOff (fun a => type' a s) st i :=
      Item.readOff_congr (fun a ha => hparts a (List.mem_flatMap.2 ⟨i, hi, ha⟩)) st
    rw [readOff, readOff, foldlM_congr hitems]
  | index target key =>
    rw [readOff, readOff, hparts target (by simp [parts]), hparts key (by simp [parts])]
  | property target name => rw [readOff, readOff, hparts target (by simp [parts])]
  | branches arms =>
    have harms : arms.mapM (fun a => type a s) = arms.mapM fun a => type' a s := mapM_congr hparts
    rw [readOff, readOff, harms]
  | _ => rfl

namespace Answers

variable {cx : Context} {f g : Answers}

/-! ## Expressions -/

theorem types_congr {s : Scope} {args : List Expr} (h : ∀ a ∈ args, f (.type a s) = g (.type a s)) :
    f.types s args = g.types s args := mapM_congr h

theorem replyWithin_congr {e : Expr} {s : Scope} {budget : Nat}
    (h : ∀ callee, Asks cx (.within e s budget) callee → f callee = g callee) :
    f.replyWithin e s budget = g.replyWithin e s budget := by
  cases budget with
  | zero => rfl
  | succ budget =>
    have hread : f (.read e s) = g (.read e s) := h _ (.within_read e s _)
    cases e with
    | call | staticCall => exact h _ (.within_chain _ s _)
    | var name =>
      simp only [replyWithin]
      cases hfound : s.lookup? name s.endPos with
      | none => exact congrArg liftM hread
      | some found => exact h _ (.within_var _ hfound)
    | branches arms =>
      simp only [replyWithin]
      rw [mapM_congr fun a ha => h _ (.within_arm s budget ha)]
    | _ => exact congrArg liftM hread

theorem applyCall_congr {c : Call} {receiver : Ty}
    (h : f (.method c.method receiver c.operands) = g (.method c.method receiver c.operands)) :
    f.applyCall cx receiver c = g.applyCall cx receiver c := by
  rw [applyCall, applyCall, h]

theorem replyChain_congr {e : Expr} {s : Scope} {budget : Nat}
    (h : ∀ callee, Asks cx (.chain e s budget) callee → f callee = g callee) :
    f.replyChain cx e s budget = g.replyChain cx e s budget := by
  have hread : f (.read e s) = g (.read e s) := h _ (.chain_read e s budget)
  unfold replyChain
  rw [h _ (.chain_walk e s budget)]
  refine bind_congr fun trail => ?_
  split
  · rw [h _ (.chain_result e s budget trail.query)]
    refine bind_congr fun t => ?_
    cases t with
    | none => rfl
    | some t =>
      -- the calls after the query stand in the chain
      refine foldlM_congr (fun receiver c hc => ?_) t
      have halong := trail.along c (List.mem_of_mem_drop hc)
      exact applyCall_congr (h _ (.chain_method budget receiver halong))
  · cases e with
    | call receiver method args =>
      have htypes : f.types s args = g.types s args :=
        types_congr fun a ha => h _ (.chain_arg s budget ha)
      dsimp only
      rw [h _ (.chain_receiver receiver method args s budget), htypes, hread]
      refine bind_congr fun t => bind_congr fun types => ?_
      have halong : Along (.call receiver method args) s ⟨method, operands s args types⟩ :=
        .last fun _ => scope_expr_of_mem_operands
      rw [h _ (.chain_method budget t halong)]
    | _ => exact congrArg liftM hread

theorem replyWalk_congr {e : Expr} {s : Scope}
    (h : ∀ callee, Asks cx (.walk e s) callee → f callee = g callee) :
    f.replyWalk s e = g.replyWalk s e := by
  cases e with
  | call receiver method args =>
    have htypes : f.types s args = g.types s args := types_congr fun a ha => h _ (.walk_arg s ha)
    rw [replyWalk, replyWalk, htypes, h _ (.walk_receiver receiver method args s)]
  | staticCall entity method args =>
    have htypes : f.types s args = g.types s args := types_congr fun a ha => h _ (.walk_arg s ha)
    rw [replyWalk, replyWalk, htypes]
  | var name =>
    simp only [replyWalk]
    split
    · next pos value hfound => rw [h _ (.walk_var hfound)]
    · rfl
  | _ => rfl

theorem replyReturns_congr {e : Expr} {s : Scope}
    (h : ∀ callee, Asks cx (.returns e s) callee → f callee = g callee) :
    f.replyReturns s e = g.replyReturns s e := by
  cases e with
  | closure params body =>
    have hbody : (fun types => f (.type body (s.bindParams params types))) =
        fun types => g (.type body (s.bindParams params types)) :=
      funext fun types => h _ (.returns_body params body s types)
    exact congrArg some hbody
  | var name =>
    simp only [replyReturns]
    cases hfound : s.lookup? name s.endPos with
    | none => rfl
    | some found => exact h _ (.returns_var hfound)
  | _ => rfl

/-! ## Queries -/

theorem projectedRows_congr {entity : String} (hwhole : f (.wholeRow entity) = g (.wholeRow entity))
    (hinner : f.innerRow cx = g.innerRow cx) (variants : List Projection) :
    f.projectedRows cx entity variants = g.projectedRows cx entity variants := by
  rw [projectedRows, projectedRows, hwhole, hinner]

theorem replyQueryRow_congr {query : Chain}
    (h : ∀ callee, Asks cx (.queryRow query) callee → f callee = g callee) :
    f.replyQueryRow cx query = g.replyQueryRow cx query := by
  unfold replyQueryRow
  split
  · rfl
  · next entity _ =>
    split
    · rfl
    · have hinner : f.innerRow cx = g.innerRow cx := funext fun t => h _ (.queryRow_column query t)
      dsimp only
      rw [projectedRows_congr (h _ (.queryRow_whole query entity)) hinner]
      refine bind_congr fun rows => ?_
      rw [mapM_congr fun row _ => h _ (.queryRow_relations query entity _ row)]

theorem plucked_congr (h : f.innerRow cx = g.innerRow cx) (entity : String)
    (columns : List Column) : f.plucked cx entity columns = g.plucked cx entity columns := by
  funext arg
  rw [plucked, plucked, h]

theorem pluckedArgument_congr (h : f.innerRow cx = g.innerRow cx) (entity : String)
    (columns : List Column) (arg : Option Ty) :
    f.pluckedArgument cx entity columns arg = g.pluckedArgument cx entity columns arg := by
  cases arg with
  | none => rfl
  | some arg => rw [pluckedArgument, pluckedArgument, plucked_congr h]

theorem finish_congr (h : f.innerRow cx = g.innerRow cx) (entity : String) (last : Step)
    (row : Ty) : f.finish cx entity last row = g.finish cx entity last row := by
  simp only [finish, plucked_congr h, pluckedArgument_congr h]

theorem replyResult_congr {query : Chain}
    (h : ∀ callee, Asks cx (.result query) callee → f callee = g callee) :
    f.replyResult cx query = g.replyResult cx query := by
  unfold replyResult
  split
  · rfl
  · have hinner : f.innerRow cx = g.innerRow cx := funext fun t => h _ (.result_column query t)
    rw [h _ (.result_row query)]
    refine bind_congr fun row => ?_
    cases row with
    | none => rfl
    | some row => exact finish_congr hinner _ _ row

/-! ## Rows -/

theorem replyRow_congr {entity : String} {depth : Nat}
    (h : ∀ callee, Asks cx (.row entity depth) callee → f callee = g callee) :
    f.replyRow cx entity depth = g.replyRow cx entity depth := by
  cases depth with
  | zero => rfl
  | succ depth =>
    have hrows : (fun target => f (.row target depth)) = fun target => g (.row target depth) :=
      funext fun target => h _ (.row entity target depth)
    rw [replyRow, replyRow, hrows]

theorem replyRelations_congr {entity : String} {depth : Nat} {tree : RelationTree} {row : Ty}
    (h : ∀ callee, Asks cx (.relations entity depth tree row) callee → f callee = g callee) :
    f.replyRelations cx entity depth tree row = g.replyRelations cx entity depth tree row := by
  cases depth with
  | zero => rfl
  | succ depth =>
    unfold replyRelations
    rw [foldlM_congr fun inner child hchild => ?_]
    simp only [attach, Nat.add_one_sub_one]
    split
    · rfl
    · split
      · rfl
      · next relation _ =>
        rw [h _ (.relations_row entity relation.target depth tree row)]
        refine bind_congr fun target => ?_
        rw [h _ (.relations_nested entity relation.target depth row target hchild)]

/-- A reply depends on the answers to the questions that are asked, and on no others. -/
theorem reply_congr {q : Question} (h : ∀ callee, Asks cx q callee → f callee = g callee) :
    f.reply cx q = g.reply cx q := by
  cases q with
  | infer e s => exact h _ (.infer e s)
  | within e s budget => exact replyWithin_congr h
  | chain e s budget => exact replyChain_congr h
  | walk e s => exact replyWalk_congr h
  | type e s => exact congrArg degrade (h _ (.type e s))
  | read e s =>
    show e.readOff (fun a s => f (.type a s)) s = e.readOff (fun a s => g (.type a s)) s
    refine Expr.readOff_congr (fun a ha => h _ (.read_part s ha)) ?_
    rintro name pos value rfl hfound
    exact h _ (.read_var hfound)
  | method name receiver args =>
    have hargs : ∀ o ∈ args, (⟨o.ty, f (.returns o.expr o.scope)⟩ : Argument) =
        ⟨o.ty, g (.returns o.expr o.scope)⟩ := fun o ho => by rw [h _ (.method name receiver ho)]
    rw [reply, reply, List.map_congr_left hargs]
  | returns e s => exact replyReturns_congr h
  | result query => exact replyResult_congr h
  | queryRow query => exact replyQueryRow_congr h
  | wholeRow entity =>
    rw [reply, reply, replyWholeRow, replyWholeRow, h _ (.wholeRow entity)]
  | row entity depth => exact replyRow_congr h
  | relations entity depth tree row => exact replyRelations_congr h

end Answers

end QueryTypes
