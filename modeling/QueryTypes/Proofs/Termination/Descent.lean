import Mathlib.Data.Prod.Lex
import QueryTypes.Proofs.Evaluation
import QueryTypes.Proofs.Termination.Parameters

/-!
# Questions get smaller

No inference goes on for ever: there is no infinite chain of questions in which each is asked by the
one before (`wellFounded_asks`).

The budget for nested branches does not show this, as arguments, entries and callbacks start with a
full one. What gets smaller is the weight of the expression with all its variables unfolded
(`Term.weight`). A callback is read in a longer scope, but a parameter that was assigned a type
weighs no more than the parameter itself. Following a variable keeps the weight and makes the scope
shorter. Rows weigh nothing; entities may refer to each other in circles, and there it is the depth
that gets smaller.
-/

set_option autoImplicit false

namespace QueryTypes

/-! ## Weights of terms -/

mutual

/-- The number of nodes of a term. -/
def Term.weight : Term → Nat
  | .call receiver _ args => 1 + receiver.weight + Term.weightList args
  | .array items => 1 + Term.weightItems items
  | .index target key => 1 + target.weight + key.weight
  | .property target _ => 1 + target.weight
  | .closure _ body => 1 + body.weight
  | .branches arms => 1 + Term.weightList arms
  | .unknown | .known _ | .entity _ | .param _ => 1

/-- The number of nodes of terms. -/
def Term.weightList : List Term → Nat
  | [] => 0
  | t :: rest => t.weight + Term.weightList rest

/-- The number of nodes of the entries of an array literal. -/
def Term.weightItems : List TermItem → Nat
  | [] => 0
  | .positional value :: rest => value.weight + Term.weightItems rest
  | .keyed key value :: rest => key.weight + value.weight + Term.weightItems rest

end

namespace Term

theorem weight_pos (t : Term) : 0 < t.weight := by
  cases t with
  | unknown | known | entity | param => exact Nat.one_pos
  | call | array | index | property | closure | branches =>
    rw [weight]
    omega

theorem weight_le_weightList {t : Term} {ts : List Term} (h : t ∈ ts) :
    t.weight ≤ weightList ts := by
  induction ts with
  | nil => exact absurd h List.not_mem_nil
  | cons u rest ih =>
    rw [weightList]
    rcases List.mem_cons.1 h with rfl | h
    · omega
    · have hle := ih h
      omega

theorem weight_le_weightItems {t : Term} {i : TermItem} {items : List TermItem} (hi : i ∈ items)
    (ht : t ∈ i.parts) : t.weight ≤ weightItems items := by
  induction items with
  | nil => exact absurd hi List.not_mem_nil
  | cons j rest ih =>
    rcases List.mem_cons.1 hi with rfl | hi
    · cases i with
      | positional value =>
        rw [weightItems, List.mem_singleton.1 ht]
        omega
      | keyed key value =>
        rw [weightItems]
        rcases List.mem_cons.1 ht with rfl | ht
        · omega
        · rw [List.mem_singleton.1 ht]
          omega
    · have hle := ih hi
      cases j with
      | positional value =>
        rw [weightItems]
        omega
      | keyed key value =>
        rw [weightItems]
        omega

end Term

/-! ## Weights of expressions -/

section Congruence

variable {defs defs' : Definitions} {params params' : List String}

theorem weightList_congr {es : List Expr}
    (h : ∀ e ∈ es, (e.link defs params).weight = (e.link defs' params').weight) :
    Term.weightList (es.map (Expr.link defs params)) =
      Term.weightList (es.map (Expr.link defs' params')) := by
  induction es with
  | nil => rfl
  | cons e rest ih =>
    obtain ⟨he, hrest⟩ := List.forall_mem_cons.1 h
    rw [List.map_cons, List.map_cons, Term.weightList, Term.weightList, he, ih hrest]

theorem weightItems_congr {items : List Item}
    (h : ∀ i ∈ items, ∀ e ∈ i.parts, (e.link defs params).weight = (e.link defs' params').weight) :
    Term.weightItems (items.map (Item.link defs params)) =
      Term.weightItems (items.map (Item.link defs' params')) := by
  induction items with
  | nil => rfl
  | cons i rest ih =>
    obtain ⟨hi, hrest⟩ := List.forall_mem_cons.1 h
    cases i with
    | positional value =>
      rw [List.map_cons, List.map_cons, Item.link, Item.link, Term.weightItems, Term.weightItems,
        hi value (by simp [Item.parts]), ih hrest]
    | keyed key value =>
      rw [List.map_cons, List.map_cons, Item.link, Item.link, Term.weightItems, Term.weightItems,
        hi key (by simp [Item.parts]), hi value (by simp [Item.parts]), ih hrest]

/-- A variable that stands for a type weighs one. -/
theorem Definitions.weight_of_meaning_inl {env : Env} {x : String} {ty : Ty}
    (h : defs.meaning params env x = .inl ty) : ((Expr.var x).link defs params).weight = 1 := by
  unfold Definitions.meaning at h
  rw [Expr.link]
  split at h
  · next hparam => rw [if_pos hparam, Term.weight]
  · next hparam =>
    rw [if_neg hparam]
    split at h
    · next ty' hknown => rw [hknown, Term.weight]
    · cases h

end Congruence

/-- Where all variables have the same meanings, an expression has the same weight. -/
theorem Expr.weight_link {defs defs' : Definitions} (e : Expr) :
    ∀ (params params' : List String) (env env' : Env),
      (∀ x, defs.meaning params env x = defs'.meaning params' env' x) →
      (e.link defs params).weight = (e.link defs' params').weight := by
  induction e using Expr.rec' with
  | entity | literal | typed | obscure => intros; rfl
  | var name =>
    intro params params' env env' h
    cases hm : defs.meaning params env name with
    | inl ty =>
      -- a parameter on one side may be a definition of known type on the other
      rw [Definitions.weight_of_meaning_inl hm,
        Definitions.weight_of_meaning_inl ((h name).symm.trans hm)]
    | inr t =>
      rw [(Definitions.link_of_meaning_inr hm).1,
        (Definitions.link_of_meaning_inr ((h name).symm.trans hm)).1]
  | call receiver method args ihr iha =>
    intro params params' env env' h
    simp only [Expr.link, Expr.linkList_eq_map, Term.weight, ihr _ _ _ _ h,
      weightList_congr fun a ha => iha a ha _ _ _ _ h]
  | staticCall entity method args iha =>
    intro params params' env env' h
    simp only [Expr.link, Expr.linkList_eq_map, Term.weight,
      weightList_congr fun a ha => iha a ha _ _ _ _ h]
  | array items ih =>
    intro params params' env env' h
    simp only [Expr.link, Expr.linkItems_eq_map, Term.weight,
      weightItems_congr fun i hi e he => ih i hi e he _ _ _ _ h]
  | index target key iht ihk =>
    intro params params' env env' h
    simp only [Expr.link, Term.weight, iht _ _ _ _ h, ihk _ _ _ _ h]
  | property target name iht =>
    intro params params' env env' h
    simp only [Expr.link, Term.weight, iht _ _ _ _ h]
  | closure own body ih =>
    intro params params' env env' h
    simp only [Expr.link, Term.weight, ih _ _ _ _ (Definitions.meaning_bind h own [])]
  | branches arms ih =>
    intro params params' env env' h
    simp only [Expr.link, Expr.linkList_eq_map, Term.weight,
      weightList_congr fun a ha => ih a ha _ _ _ _ h]

namespace Scope

variable (s : Scope)

/-- The weight of an expression with the variables of a scope unfolded. -/
def weight (e : Expr) : Nat := (s.term e).weight

theorem weight_pos (e : Expr) : 0 < s.weight e := (s.term e).weight_pos

theorem weight_call (receiver : Expr) (method : String) (args : List Expr) :
    s.weight (.call receiver method args) =
      1 + s.weight receiver + Term.weightList (args.map s.term) := by
  rw [weight, term, Expr.link, Expr.linkList_eq_map, Term.weight]
  rfl

theorem weight_staticCall (entity method : String) (args : List Expr) :
    s.weight (.staticCall entity method args) = 2 + Term.weightList (args.map s.term) := by
  rw [weight, term, Expr.link, Expr.linkList_eq_map, Term.weight, Term.weight]
  rfl

variable {s}

theorem weight_le_of_mem {a : Expr} {es : List Expr} (h : a ∈ es) :
    s.weight a ≤ Term.weightList (es.map s.term) :=
  Term.weight_le_weightList (List.mem_map_of_mem h)

theorem weight_lt_of_mem_args {a e : Expr} (h : a ∈ e.args) : s.weight a < s.weight e := by
  cases e with
  | call receiver method args =>
    have hle : s.weight a ≤ Term.weightList (args.map s.term) := weight_le_of_mem h
    rw [weight_call]
    omega
  | staticCall entity method args =>
    have hle : s.weight a ≤ Term.weightList (args.map s.term) := weight_le_of_mem h
    rw [weight_staticCall]
    omega
  | _ => exact absurd h List.not_mem_nil

theorem weight_lt_of_mem_arms {a : Expr} {arms : List Expr} (h : a ∈ arms) :
    s.weight a < s.weight (.branches arms) := by
  have hle : s.weight a ≤ Term.weightList (arms.map s.term) := weight_le_of_mem h
  have harms : s.weight (.branches arms) = 1 + Term.weightList (arms.map s.term) := by
    rw [weight, term, Expr.link, Expr.linkList_eq_map, Term.weight]
    rfl
  omega

theorem weight_lt_of_mem_parts {a e : Expr} (h : a ∈ e.parts) : s.weight a < s.weight e := by
  cases e with
  | array items =>
    obtain ⟨i, hi, ha⟩ := List.mem_flatMap.1 h
    have hpart : s.term a ∈ (Item.link s.definitions [] i).parts := by
      cases i with
      | positional value => exact List.mem_map_of_mem ha
      | keyed key value => exact List.mem_map_of_mem ha
    have hle := Term.weight_le_weightItems (List.mem_map_of_mem hi) hpart
    rw [weight, weight, term, term, Expr.link, Expr.linkItems_eq_map, Term.weight]
    exact Nat.lt_one_add_iff.2 hle
  | index target key =>
    have hindex : s.weight (.index target key) = 1 + s.weight target + s.weight key := rfl
    rcases List.mem_cons.1 h with rfl | h
    · omega
    · obtain rfl := List.mem_singleton.1 h
      omega
  | property target name =>
    have hproperty : s.weight (.property target name) = 1 + s.weight target := rfl
    obtain rfl := List.mem_singleton.1 h
    omega
  | branches arms => exact weight_lt_of_mem_arms h
  | _ => exact absurd h List.not_mem_nil

/-- Following a variable keeps the weight. -/
theorem weight_of_lookup? {name : String} {pos : Nat} {value : Expr}
    (h : s.lookup? name s.endPos = some (pos, value)) :
    (s.upTo pos).weight value = s.weight (.var name) := by
  rw [weight, weight, term_var, h]

/-- Following a variable makes the scope shorter. -/
theorem length_upTo_lt {name : String} {pos : Nat} {value : Expr}
    (h : s.lookup? name s.endPos = some (pos, value)) : (s.upTo pos).length < s.length := by
  rw [lookup?_endPos] at h
  have hlt := lastFrom_lt h
  rw [upTo, List.length_take]
  omega

/-- Assigned parameters make the body of a closure no heavier. -/
theorem weight_body_lt (params : List String) (body : Expr) (types : List Ty) :
    (s.bindParams params types).weight body < s.weight (.closure params body) := by
  have hbody := Expr.weight_link body [] params [] (Env.bind [] params types)
    (s.meaning_bindParams params types)
  have hclosure : s.weight (.closure params body) =
      1 + (body.link s.definitions (params ++ [])).weight := rfl
  rw [hclosure, List.append_nil, ← hbody]
  exact Nat.lt_one_add_iff.2 le_rfl

end Scope

/-! ## Weights of arguments -/

/-- The weight of the heaviest argument. -/
def heaviest : List Operand → Nat
  | [] => 0
  | o :: rest => max (o.scope.weight o.expr) (heaviest rest)

theorem le_heaviest {o : Operand} {ops : List Operand} (h : o ∈ ops) :
    o.scope.weight o.expr ≤ heaviest ops := by
  induction ops with
  | nil => exact absurd h List.not_mem_nil
  | cons p rest ih =>
    rw [heaviest]
    rcases List.mem_cons.1 h with rfl | h
    · exact le_max_left _ _
    · exact (ih h).trans (le_max_right _ _)

theorem heaviest_le {ops : List Operand} {n : Nat}
    (h : ∀ o ∈ ops, o.scope.weight o.expr ≤ n) : heaviest ops ≤ n := by
  induction ops with
  | nil => exact Nat.zero_le n
  | cons o rest ih =>
    obtain ⟨ho, hrest⟩ := List.forall_mem_cons.1 h
    exact max_le ho (ih hrest)

theorem heaviest_le_weightList {s : Scope} {args : List Expr} {ops : List Operand}
    (h : ∀ o ∈ ops, o.scope = s ∧ o.expr ∈ args) :
    heaviest ops ≤ Term.weightList (args.map s.term) := by
  refine heaviest_le fun o ho => ?_
  obtain ⟨rfl, hexpr⟩ := h o ho
  exact Scope.weight_le_of_mem hexpr

/-- The arguments along a chain are lighter than the chain, with one to spare. -/
theorem Along.heaviest_lt {e : Expr} {s : Scope} {c : Call} (h : Along e s c) :
    1 + heaviest c.operands < s.weight e := by
  induction h with
  | @last receiver method args s ops h =>
    have hle : heaviest ops ≤ Term.weightList (args.map s.term) := heaviest_le_weightList h
    have hpos := s.weight_pos receiver
    rw [Scope.weight_call]
    show 1 + heaviest ops < _
    omega
  | @receiver receiver method args s c _ ih =>
    rw [Scope.weight_call]
    omega
  | @start entity method args s ops h =>
    have hle : heaviest ops ≤ Term.weightList (args.map s.term) := heaviest_le_weightList h
    rw [Scope.weight_staticCall]
    show 1 + heaviest ops < _
    omega
  | var hfound _ ih => rwa [Scope.weight_of_lookup? hfound] at ih

/-! ## The measure -/

namespace Question

/-- The weight of what a question is about. Queries and rows have none. -/
def weight : Question → Nat
  | .infer e s | .within e s _ | .chain e s _ | .walk e s | .type e s | .read e s | .returns e s =>
    s.weight e
  | .method _ _ args => 1 + heaviest args
  | .result _ | .queryRow _ | .wholeRow _ | .row .. | .relations .. => 0

/-- The length of the scope; for rows, the depth that is left. -/
def room (cx : Context) : Question → Nat
  | .infer _ s | .within _ s _ | .chain _ s _ | .walk _ s | .type _ s | .read _ s | .returns _ s =>
    s.length
  | .method .. => 0
  | .result _ | .queryRow _ => cx.config.maxDepth + 2
  | .wholeRow _ => cx.config.maxDepth + 1
  | .row _ depth | .relations _ depth _ _ => depth

/-- The order of questions about one expression in one scope. -/
def rank : Question → Nat
  | .type .. => 4
  | .infer .. => 3
  | .within .. => 2
  | .chain .. | .result _ => 1
  | _ => 0

/-- Weight first, then room, then rank. -/
def measure (cx : Context) (q : Question) : ℕ ×ₗ ℕ ×ₗ ℕ :=
  toLex (q.weight, toLex (q.room cx, q.rank))

variable {cx : Context} {p q : Question}

theorem measure_lt_of_weight (h : p.weight < q.weight) : p.measure cx < q.measure cx :=
  Prod.Lex.toLex_lt_toLex.2 (.inl h)

theorem measure_lt_of_room (hweight : p.weight = q.weight) (h : p.room cx < q.room cx) :
    p.measure cx < q.measure cx :=
  Prod.Lex.toLex_lt_toLex.2 (.inr ⟨hweight, Prod.Lex.toLex_lt_toLex.2 (.inl h)⟩)

theorem measure_lt_of_rank (hweight : p.weight = q.weight) (hroom : p.room cx = q.room cx)
    (h : p.rank < q.rank) : p.measure cx < q.measure cx :=
  Prod.Lex.toLex_lt_toLex.2 (.inr ⟨hweight, Prod.Lex.toLex_lt_toLex.2 (.inr ⟨hroom, h⟩)⟩)

end Question

/-- A question is smaller than the one that asks it. -/
theorem Asks.measure_lt {cx : Context} {caller callee : Question} (h : Asks cx caller callee) :
    callee.measure cx < caller.measure cx := by
  cases h with
  -- the same expression in the same scope
  | infer | within_chain | within_read | chain_walk | chain_read | type =>
    exact Question.measure_lt_of_rank rfl rfl (by simp [Question.rank])
  -- a variable, read where it was assigned
  | within_var _ hfound | walk_var hfound | read_var hfound | returns_var hfound =>
    exact Question.measure_lt_of_room (Scope.weight_of_lookup? hfound) (Scope.length_upTo_lt hfound)
  -- a part of the expression
  | within_arm _ _ harm => exact Question.measure_lt_of_weight (Scope.weight_lt_of_mem_arms harm)
  | chain_arg _ _ harg | walk_arg _ harg =>
    exact Question.measure_lt_of_weight (Scope.weight_lt_of_mem_args harg)
  | read_part _ hpart => exact Question.measure_lt_of_weight (Scope.weight_lt_of_mem_parts hpart)
  | chain_receiver receiver method args s | walk_receiver receiver method args s =>
    refine Question.measure_lt_of_weight ?_
    show s.weight receiver < s.weight (.call receiver method args)
    rw [Scope.weight_call]
    omega
  -- callbacks
  | chain_method _ _ halong => exact Question.measure_lt_of_weight halong.heaviest_lt
  | method _ _ hmem =>
    exact Question.measure_lt_of_weight (Nat.lt_one_add_iff.2 (le_heaviest hmem))
  | returns_body params body s types =>
    exact Question.measure_lt_of_weight (Scope.weight_body_lt params body types)
  -- queries and rows
  | chain_result e s => exact Question.measure_lt_of_weight (s.weight_pos e)
  | result_row => exact Question.measure_lt_of_rank rfl rfl (by simp [Question.rank])
  | result_column | queryRow_whole | queryRow_column | queryRow_relations | wholeRow | row
  | relations_row | relations_nested =>
    refine Question.measure_lt_of_room rfl ?_
    simp only [Question.room]
    omega

/-- There is no infinite chain of questions that are asked one by the other. -/
theorem wellFounded_asks (cx : Context) : WellFounded fun callee caller => Asks cx caller callee :=
  Subrelation.wf Asks.measure_lt (InvImage.wf (Question.measure cx) wellFounded_lt)

end QueryTypes
