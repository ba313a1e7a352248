import Mathlib.Data.List.Forall2
import Mathlib.Data.List.Pairwise

/-!
# Lists, and what may fail along them

Facts about lists that the rest of the theory shares, with nothing of it in them: what a traversal
answers when its steps may fail (`mapM_eq_ok`, `mapM_eq_error_iff`), lists that match element by
element, and lists from which repeated neighbours are dropped (`List.eraseReps`).
-/

set_option autoImplicit false

namespace QueryTypes

variable {α β ε : Type}

/-! ## Outcomes -/

theorem eq_ok_of_mapError {ε' : Type} {x : Except ε α} {f : ε → ε'} {a : α}
    (h : x.mapError f = .ok a) : x = .ok a := by
  cases x with
  | error e => cases h
  | ok b =>
    cases h
    rfl

theorem exists_of_map_eq_ok {x : Except ε α} {f : α → β} {b : β} (h : x.map f = .ok b) :
    ∃ a, x = .ok a ∧ f a = b := by
  cases x with
  | error e => cases h
  | ok a =>
    cases h
    exact ⟨a, rfl, rfl⟩

theorem exists_of_bind_eq_ok {x : Except ε α} {f : α → Except ε β} {b : β} (h : x >>= f = .ok b) :
    ∃ a, x = .ok a ∧ f a = .ok b := by
  cases x with
  | error e => cases h
  | ok a => exact ⟨a, rfl, h⟩

theorem map_eq_error_iff {f : α → β} {x : Except ε α} {e : ε} :
    f <$> x = .error e ↔ x = .error e := by
  cases x with
  | error e' =>
    constructor
    · rintro ⟨⟩
      rfl
    · rintro ⟨⟩
      rfl
  | ok a =>
    constructor
    · rintro ⟨⟩
    · rintro ⟨⟩

/-! ## Traversals -/

section Monads

variable {m : Type → Type} [Monad m]

theorem mapM_congr [LawfulMonad m] {f g : α → m β} {xs : List α} (h : ∀ a ∈ xs, f a = g a) :
    xs.mapM f = xs.mapM g := by
  induction xs with
  | nil => rw [List.mapM_nil, List.mapM_nil]
  | cons a rest ih =>
    obtain ⟨ha, hrest⟩ := List.forall_mem_cons.1 h
    rw [List.mapM_cons, List.mapM_cons, ha, ih hrest]

theorem foldlM_congr {f g : β → α → m β} {xs : List α} (h : ∀ b, ∀ a ∈ xs, f b a = g b a) (b : β) :
    xs.foldlM f b = xs.foldlM g b := by
  induction xs generalizing b with
  | nil => rfl
  | cons a rest ih =>
    rw [List.foldlM_cons, List.foldlM_cons, h b a List.mem_cons_self]
    exact bind_congr fun c => ih (fun b a ha => h b a (List.mem_cons_of_mem _ ha)) c

end Monads

/-- A map that may have no answer gives the answers for the elements, one by one. -/
theorem mapM_eq_some {f : α → Option β} {xs : List α} {ys : List β} :
    xs.mapM f = some ys ↔ List.Forall₂ (fun x y => f x = some y) xs ys := by
  induction xs generalizing ys with
  | nil =>
    rw [List.forall₂_nil_left_iff]
    exact ⟨fun h => (Option.some.inj h).symm, fun h => h ▸ rfl⟩
  | cons x xs ih =>
    rw [List.mapM_cons, List.forall₂_cons_left_iff]
    constructor
    · intro h
      obtain ⟨y, hx, h⟩ := Option.bind_eq_some_iff.1 h
      obtain ⟨ys', hxs, h⟩ := Option.bind_eq_some_iff.1 h
      exact ⟨y, ys', hx, ih.1 hxs, (Option.some.inj h).symm⟩
    · rintro ⟨y, ys', hx, hxs, rfl⟩
      rw [hx, ih.2 hxs]
      rfl

/-- A map that may fail gives the answers for the elements, one by one. -/
theorem mapM_eq_ok {f : α → Except ε β} {xs : List α} {ys : List β} :
    xs.mapM f = .ok ys ↔ List.Forall₂ (fun x y => f x = .ok y) xs ys := by
  induction xs generalizing ys with
  | nil =>
    rw [List.forall₂_nil_left_iff]
    exact ⟨fun h => (Except.ok.inj h).symm, fun h => h ▸ rfl⟩
  | cons x xs ih =>
    rw [List.mapM_cons, List.forall₂_cons_left_iff]
    constructor
    · intro h
      obtain ⟨y, hx, h⟩ := exists_of_bind_eq_ok h
      obtain ⟨ys', hxs, h⟩ := exists_of_bind_eq_ok h
      exact ⟨y, ys', hx, ih.1 hxs, (Except.ok.inj h).symm⟩
    · rintro ⟨y, ys', hx, hxs, rfl⟩
      rw [hx, ih.2 hxs]
      rfl

/-- A traversal fails with the first element that does. -/
theorem mapM_eq_error_iff {f : α → Except ε β} {xs : List α} {e : ε} :
    xs.mapM f = .error e ↔
      ∃ before x after, xs = before ++ x :: after ∧ (∀ y ∈ before, ∃ b, f y = .ok b) ∧
        f x = .error e := by
  induction xs with
  | nil =>
    constructor
    · rintro ⟨⟩
    · rintro ⟨before, x, after, h, -⟩
      simp at h
  | cons x rest ih =>
    rw [List.mapM_cons]
    cases hx : f x with
    | error e' =>
      constructor
      · rintro ⟨⟩
        exact ⟨[], x, rest, rfl, by simp, hx⟩
      · rintro ⟨before, y, after, hcons, hbefore, hy⟩
        cases before with
        | nil =>
          obtain ⟨rfl, rfl⟩ := List.cons.inj hcons
          rw [hx] at hy
          cases hy
          rfl
        | cons z before =>
          -- nothing stands before the first element
          obtain ⟨rfl, rfl⟩ := List.cons.inj hcons
          obtain ⟨b, hb⟩ := hbefore x List.mem_cons_self
          rw [hx] at hb
          cases hb
    | ok b =>
      have hrest : (do
            let b ← (Except.ok b : Except ε β)
            let bs ← rest.mapM f
            pure (b :: bs)) = (b :: ·) <$> rest.mapM f := by
        cases rest.mapM f <;> rfl
      rw [hrest, map_eq_error_iff, ih]
      constructor
      · rintro ⟨before, y, after, rfl, hbefore, hy⟩
        refine ⟨x :: before, y, after, rfl, ?_, hy⟩
        exact List.forall_mem_cons.2 ⟨⟨b, hx⟩, hbefore⟩
      · rintro ⟨before, y, after, hcons, hbefore, hy⟩
        cases before with
        | nil =>
          obtain ⟨rfl, rfl⟩ := List.cons.inj hcons
          rw [hx] at hy
          cases hy
        | cons z before =>
          obtain ⟨rfl, rfl⟩ := List.cons.inj hcons
          exact ⟨before, y, after, rfl, (List.forall_mem_cons.1 hbefore).2, hy⟩

/-- So it fails only where an element does. -/
theorem exists_of_mapM_error {f : α → Except ε β} {xs : List α} {e : ε} (h : xs.mapM f = .error e) :
    ∃ x ∈ xs, f x = .error e := by
  obtain ⟨before, x, after, rfl, -, hx⟩ := mapM_eq_error_iff.1 h
  exact ⟨x, List.mem_append_right _ List.mem_cons_self, hx⟩

/-- If a property of the state comes about in the steps with certain elements and is never lost, it
holds after a fold if it held before or there is such an element. -/
theorem foldl_collects {f : β → α → β} {P : β → Prop} {Q : α → Prop}
    (h : ∀ s x, P (f s x) ↔ P s ∨ Q x) (xs : List α) (s : β) :
    P (xs.foldl f s) ↔ P s ∨ ∃ x ∈ xs, Q x := by
  induction xs generalizing s with
  | nil => simp
  | cons x rest ih =>
    rw [List.foldl_cons, ih, h]
    simp [or_assoc]

/-! ## Matching lists -/

section Matching

variable {R S : α → β → Prop} {xs : List α} {ys : List β}

/-- Every element on the right of two matching lists has a partner on the left. -/
theorem exists_of_forall₂ (h : List.Forall₂ R xs ys) {y : β} (hy : y ∈ ys) : ∃ x ∈ xs, R x y := by
  induction h with
  | nil => exact absurd hy List.not_mem_nil
  | @cons x y' xs ys hxy _ ih =>
    rcases List.mem_cons.1 hy with rfl | hy
    · exact ⟨x, List.mem_cons_self, hxy⟩
    · obtain ⟨x', hx', hxy'⟩ := ih hy
      exact ⟨x', List.mem_cons_of_mem _ hx', hxy'⟩

theorem forall₂_iff_getElem? :
    List.Forall₂ R xs ys ↔
      xs.length = ys.length ∧ ∀ (i : Nat) x y, xs[i]? = some x → ys[i]? = some y → R x y := by
  rw [List.forall₂_iff_get]
  refine and_congr_right fun _ => forall_congr' fun i => ?_
  constructor
  · intro h x y hx hy
    obtain ⟨hi, rfl⟩ := List.getElem?_eq_some_iff.1 hx
    obtain ⟨hi', rfl⟩ := List.getElem?_eq_some_iff.1 hy
    exact h hi hi'
  · intro h hi hi'
    exact h _ _ (List.getElem?_eq_getElem hi) (List.getElem?_eq_getElem hi')

theorem forall₂_congr_of_mem (h : ∀ x ∈ xs, ∀ y, R x y ↔ S x y) (ys : List β) :
    List.Forall₂ R xs ys ↔ List.Forall₂ S xs ys := by
  induction xs generalizing ys with
  | nil => rw [List.forall₂_nil_left_iff, List.forall₂_nil_left_iff]
  | cons x rest ih =>
    rw [List.forall_mem_cons] at h
    simp only [List.forall₂_cons_left_iff, h.1, ih h.2]

end Matching

theorem forall_mem_zip_map_self {P : β × α → Prop} (f : α → β) (xs : List α) :
    (∀ p ∈ (xs.map f).zip xs, P p) ↔ ∀ x ∈ xs, P (f x, x) := by
  induction xs with
  | nil => simp
  | cons x rest ih =>
    rw [List.map_cons, List.zip_cons_cons, List.forall_mem_cons, List.forall_mem_cons, ih]

/-! ## Properties of elements -/

/-- What is taken from the front ends where the first other element stands. -/
theorem span_append {p : α → Bool} {xs rest : List α} (h : ∀ x ∈ xs, p x = true)
    (hrest : ∀ x ∈ rest.head?, p x = false) :
    (xs ++ rest).takeWhile p = xs ∧ (xs ++ rest).dropWhile p = rest := by
  rw [List.takeWhile_append_of_pos h, List.dropWhile_append_of_pos h]
  cases rest with
  | nil => exact ⟨List.append_nil xs, rfl⟩
  | cons x rest => simp [hrest x rfl]

/-- One element has the property: some does, and no two do. -/
theorem countP_eq_one_iff {p : α → Bool} {l : List α} :
    l.countP p = 1 ↔ (∃ a ∈ l, p a = true) ∧ l.Pairwise fun a b => ¬ (p a = true ∧ p b = true) := by
  induction l with
  | nil => simp
  | cons a rest ih =>
    cases ha : p a with
    | true =>
      -- then no other element may have the property
      have hrest : rest.countP p = 0 ↔ ∀ b ∈ rest, ¬ p b = true := List.countP_eq_zero
      rw [List.countP_cons_of_pos ha, Nat.add_eq_right, hrest, List.pairwise_cons]
      constructor
      · intro h
        refine ⟨⟨a, List.mem_cons_self, ha⟩, fun b hb hab => h b hb hab.2, ?_⟩
        exact List.pairwise_of_forall_mem_list fun b hb c _ hbc => h b hb hbc.1
      · rintro ⟨-, h, -⟩ b hb hpb
        exact h b hb ⟨ha, hpb⟩
    | false => simp [ha, ih]

/-! ## Repeated neighbours -/

section Neighbours

variable [BEq α]

/-- The loop returns what it has collected and goes on as if it had just begun. -/
theorem eraseReps_loop (a : α) (rest collected : List α) :
    List.eraseRepsBy.loop (· == ·) a rest collected =
      collected.reverse ++ (a :: rest).eraseReps := by
  have hstart (a : α) (rest : List α) :
      (a :: rest).eraseReps = List.eraseRepsBy.loop (· == ·) a rest [] := rfl
  induction rest generalizing a collected with
  | nil => simp [hstart, List.eraseRepsBy.loop]
  | cons b rest ih =>
    rw [hstart, List.eraseRepsBy.loop, List.eraseRepsBy.loop]
    split
    · rw [ih, ih a []]
      rfl
    · rw [ih, ih b [a], List.reverse_cons, List.append_assoc]
      rfl

variable [LawfulBEq α]

theorem eraseReps_cons_self (a : α) (rest : List α) :
    (a :: a :: rest).eraseReps = (a :: rest).eraseReps := by
  show List.eraseRepsBy.loop (· == ·) a (a :: rest) [] = _
  rw [List.eraseRepsBy.loop]
  simp only [beq_self_eq_true]
  exact eraseReps_loop a rest []

theorem eraseReps_cons_of_ne {a b : α} (h : a ≠ b) (rest : List α) :
    (a :: b :: rest).eraseReps = a :: (b :: rest).eraseReps := by
  show List.eraseRepsBy.loop (· == ·) a (b :: rest) [] = _
  rw [List.eraseRepsBy.loop, beq_eq_false_iff_ne.2 h]
  exact eraseReps_loop b rest [a]

/-- The first element stays. -/
theorem exists_eraseReps_eq_cons (a : α) (rest : List α) :
    ∃ others, (a :: rest).eraseReps = a :: others := by
  induction rest with
  | nil => exact ⟨[], rfl⟩
  | cons b rest ih =>
    by_cases hab : a = b
    · subst hab
      rw [eraseReps_cons_self]
      exact ih
    · exact ⟨_, eraseReps_cons_of_ne hab rest⟩

/-- Doing it again changes nothing. -/
theorem eraseReps_eraseReps (xs : List α) : xs.eraseReps.eraseReps = xs.eraseReps := by
  induction xs with
  | nil => rfl
  | cons a rest ih =>
    cases rest with
    | nil => rfl
    | cons b rest =>
      by_cases hab : a = b
      · subst hab
        rw [eraseReps_cons_self, ih]
      · -- the neighbour of the first element stays its neighbour
        obtain ⟨others, hothers⟩ := exists_eraseReps_eq_cons b rest
        rw [hothers] at ih
        rw [eraseReps_cons_of_ne hab, hothers, eraseReps_cons_of_ne hab, ih]

theorem mem_eraseReps {xs : List α} {a : α} : a ∈ xs.eraseReps ↔ a ∈ xs := by
  induction xs with
  | nil => rfl
  | cons b rest ih =>
    cases rest with
    | nil => rfl
    | cons c rest =>
      by_cases hbc : b = c
      · subst hbc
        rw [eraseReps_cons_self, ih]
        simp
      · rw [eraseReps_cons_of_ne hbc, List.mem_cons, ih, ← List.mem_cons]

theorem eraseReps_ne_nil_iff {xs : List α} : xs.eraseReps ≠ [] ↔ xs ≠ [] := by
  rw [Ne, Ne, List.eq_nil_iff_forall_not_mem, List.eq_nil_iff_forall_not_mem]
  simp only [mem_eraseReps]

end Neighbours

end QueryTypes
