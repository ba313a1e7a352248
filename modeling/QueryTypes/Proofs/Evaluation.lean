import Mathlib.Data.List.Induction
import QueryTypes.Proofs.Acceptance
import QueryTypes.Proofs.Numeral
import QueryTypes.Term

/-!
# The values of an expression

`Evaluates` relates an expression at the end of a scope to the values it can take: a variable takes
the values of its last assignment, read where that assignment stands; branches take the values of
every arm; an entry or a property is read from a record that has it. A key is an integer or a
string.

The rules are for expressions without entities, calls and functions (`Expr.Plain`). An array literal
has either no keys, and then its values stand under their positions, or a key for every value.

That a scope can be read from its end, assignment by assignment, is `Scope.term_var`.
-/

set_option autoImplicit false

namespace QueryTypes

/-! ## Literal values -/

mutual

/-- The value of a document. -/
def Value.ofJson : Json → Value
  | .null => .null
  | .bool b => .literal (.bool b)
  | .int n => .int (Int64.ofInt n)
  | .float x => .literal (.float x)
  | .str s => .str s
  | .arr xs => .list (Value.ofJsonList xs)
  | .obj ms => .record (Value.ofJsonMembers ms)

/-- The values of documents. -/
def Value.ofJsonList : List Json → List Value
  | [] => []
  | x :: xs => Value.ofJson x :: Value.ofJsonList xs

/-- The values of the members of an object. -/
def Value.ofJsonMembers : List (String × Json) → List (String × Value)
  | [] => []
  | (name, x) :: ms => (name, Value.ofJson x) :: Value.ofJsonMembers ms

end

/-- Documents whose integers have 64 bits and whose objects give no name twice. -/
inductive Json.IsValue : Json → Prop
  | null : IsValue .null
  | bool (b : Bool) : IsValue (.bool b)
  | int (n : Int) : Numeral.fitsInt64 n = true → IsValue (.int n)
  | float (x : Double) : IsValue (.float x)
  | str (s : String) : IsValue (.str s)
  | arr {xs : List Json} : (∀ x ∈ xs, IsValue x) → IsValue (.arr xs)
  | obj {ms : List (String × Json)} : Entries.Distinct ms → (∀ m ∈ ms, IsValue m.2) →
      IsValue (.obj ms)

/-! ## Evaluation -/

/-- An entry of an array literal with what its key and its value evaluate to. -/
structure EvaluatedEntry where
  key : Expr
  value : Expr
  keyValue : Value
  /-- The name that the key is. -/
  name : String
  result : Value

/-- An expression at the end of a scope can take a value. -/
inductive Evaluates (F : Facets) : Scope → Expr → Value → Prop
  | literal (s : Scope) (j : Json) : Evaluates F s (.literal j) (Value.ofJson j)
  | typed (s : Scope) {t : Ty} {v : Value} : t.Accepts F v → Evaluates F s (.typed t) v
  | bound {s : Scope} {x : String} {pos : Nat} {e : Expr} {v : Value} :
      s.lookup? x s.endPos = some (pos, e) → Evaluates F (s.upTo pos) e v → Evaluates F s (.var x) v
  | unbound {s : Scope} {x : String} (v : Value) :
      s.lookup? x s.endPos = none → Evaluates F s (.var x) v
  | branch {s : Scope} {arms : List Expr} {e : Expr} {v : Value} :
      e ∈ arms → Evaluates F s e v → Evaluates F s (.branches arms) v
  | property {s : Scope} {target : Expr} {es : List (String × Value)} {name : String} {v : Value} :
      Evaluates F s target (.record es) → Entries.get? es name = some v →
      Evaluates F s (.property target name) v
  | index {s : Scope} {target key : Expr} {es : List (String × Value)} {k : Value} {name : String}
      {v : Value} :
      Evaluates F s target (.record es) → Evaluates F s key k → k.key? = some name →
      Entries.get? es name = some v → Evaluates F s (.index target key) v
  | list {s : Scope} (items : List (Expr × Value)) :
      (∀ i ∈ items, Evaluates F s i.1 i.2) →
      Evaluates F s (.array (items.map fun i => .positional i.1)) (.list (items.map Prod.snd))
  | map {s : Scope} (entries : List EvaluatedEntry) :
      (∀ e ∈ entries, Evaluates F s e.key e.keyValue) →
      (∀ e ∈ entries, e.keyValue.key? = some e.name) →
      (∀ e ∈ entries, Evaluates F s e.value e.result) →
      Evaluates F s (.array (entries.map fun e => .keyed e.key e.value))
        (.record (Entries.ofList (entries.map fun e => (e.name, e.result))))

/-! ## Plain expressions -/

/-- The entries of an array literal have keys for all their values or for none; positions are
counted in 64 bits. -/
def Item.Uniform (items : List Item) : Prop :=
  (items.length ≤ Numeral.positionBound ∧ ∀ i ∈ items, ∃ value, i = .positional value) ∨
    ∀ i ∈ items, ∃ key value, i = .keyed key value

/-- Expressions without entities, calls and functions. -/
inductive Expr.Plain : Expr → Prop
  | literal {j : Json} : j.IsValue → Plain (.literal j)
  | typed {t : Ty} : t.WellKeyed → Plain (.typed t)
  | var (x : String) : Plain (.var x)
  | branches {arms : List Expr} : (∀ e ∈ arms, Plain e) → Plain (.branches arms)
  | property {target : Expr} (name : String) : Plain target → Plain (.property target name)
  | index {target key : Expr} : Plain target → Plain key → Plain (.index target key)
  | array {items : List Item} : Item.Uniform items → (∀ i ∈ items, ∀ e ∈ i.parts, Plain e) →
      Plain (.array items)

/-- Scopes of plain expressions. -/
def Scope.Plain (s : Scope) : Prop := ∀ a ∈ s, a.value.Plain

/-! ## Variables -/

namespace Scope

theorem lookup?_endPos (s : Scope) (x : String) : s.lookup? x s.endPos = lastFrom 0 x s := by
  rw [lookup?, upTo, endPos, List.take_length]

theorem lastFrom_lt {start : Nat} {x : String} {s : Scope} {pos : Nat} {e : Expr}
    (h : lastFrom start x s = some (pos, e)) : pos < start + s.length := by
  induction s generalizing start with
  | nil => simp [lastFrom] at h
  | cons a rest ih =>
    rw [lastFrom] at h
    rw [List.length_cons]
    cases hrest : lastFrom (start + 1) x rest with
    | some found =>
      rw [hrest, Option.some.injEq] at h
      have hlt := ih (h ▸ hrest)
      omega
    | none =>
      rw [hrest] at h
      by_cases hname : a.name = x
      · rw [if_pos hname, Option.some.injEq, Prod.mk.injEq] at h
        omega
      · rw [if_neg hname] at h
        exact absurd h (by simp)

theorem mem_of_lastFrom {start : Nat} {x : String} {s : Scope} {pos : Nat} {e : Expr}
    (h : lastFrom start x s = some (pos, e)) : ∃ a ∈ s, a.value = e := by
  induction s generalizing start with
  | nil => simp [lastFrom] at h
  | cons a rest ih =>
    rw [lastFrom] at h
    cases hrest : lastFrom (start + 1) x rest with
    | some found =>
      rw [hrest, Option.some.injEq] at h
      obtain ⟨b, hb, hvalue⟩ := ih (h ▸ hrest)
      exact ⟨b, List.mem_cons_of_mem _ hb, hvalue⟩
    | none =>
      rw [hrest] at h
      by_cases hname : a.name = x
      · rw [if_pos hname, Option.some.injEq, Prod.mk.injEq] at h
        exact ⟨a, List.mem_cons_self, h.2⟩
      · rw [if_neg hname] at h
        exact absurd h (by simp)

/-- A variable is the expression of its last assignment, read where that assignment stands. -/
theorem term_var (s : Scope) (x : String) :
    s.term (.var x) = match s.lookup? x s.endPos with
      | some (pos, e) => (s.upTo pos).term e
      | none => .unknown := by
  rw [lookup?_endPos]
  induction s using List.reverseRecOn with
  | nil => rfl
  | append_singleton s a ih =>
    have hassign : s ++ [a] = assign s a.name a.value := rfl
    rw [hassign, lastFrom_assign, term, definitions_assign, Expr.link, if_neg List.not_mem_nil,
      List.lookup_cons]
    by_cases hname : a.name = x
    · -- the last assignment is the one, and everything before it is its scope
      subst hname
      rw [if_pos rfl, beq_self_eq_true, Nat.zero_add]
      show term s a.value = term (upTo (assign s a.name a.value) s.length) a.value
      rw [assign, upTo, List.take_left]
    · rw [if_neg hname, beq_eq_false_iff_ne.2 fun h => hname h.symm]
      have hlink : (List.lookup x (definitions s)).getD Term.unknown = term s (.var x) := by
        rw [term, Expr.link, if_neg List.not_mem_nil]
      show (List.lookup x (definitions s)).getD Term.unknown = _
      rw [hlink, ih]
      cases hfound : lastFrom 0 x s with
      | none => rfl
      | some found =>
        obtain ⟨pos, e⟩ := found
        -- the scope is cut before the last assignment, which thus makes no difference
        have hlt := lastFrom_lt hfound
        show term (upTo s pos) e = term (upTo (assign s a.name a.value) pos) e
        rw [assign, upTo, upTo, List.take_append_of_le_length (by omega)]

theorem Plain.of_lookup? {s : Scope} (h : s.Plain) {x : String} {pos : Nat} {e : Expr}
    (hfound : s.lookup? x s.endPos = some (pos, e)) : (s.upTo pos).Plain ∧ e.Plain := by
  rw [lookup?_endPos] at hfound
  obtain ⟨a, ha, rfl⟩ := mem_of_lastFrom hfound
  exact ⟨fun b hb => h b (List.mem_of_mem_take hb), h a ha⟩

end Scope

end QueryTypes
