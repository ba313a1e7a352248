import QueryTypes.Proofs.Lists
import QueryTypes.Query.Projection
import QueryTypes.Ty.Union

/-!
# Thinning

A list is thinned by leaving out elements that stand earlier in it as well (`Thins`). The ways in
which repetitions are dropped all thin: neighbours that repeat each other (`thins_eraseReps`), and
variants that were added before (`thins_foldl_addNew`). Thinning goes through everything that is
done with variants and rows: each element is replaced by several (`Thins.flatMap`) or by the result
of an inference, which fails at the same element (`Thins.mapM`).

In the end it cannot be seen. Variants that are added one by one are the same
(`Thins.foldl_addNew`), and so is the union of types that equal themselves (`Thins.union`).
-/

set_option autoImplicit false

namespace QueryTypes

variable {α β : Type}

/-- The second list is the first one without some elements that were seen before or stand earlier in
it. -/
inductive ThinsAfter : (α → Prop) → List α → List α → Prop
  | nil (seen : α → Prop) : ThinsAfter seen [] []
  | keep (a : α) {seen : α → Prop} {xs ys : List α}
      (rest : ThinsAfter (fun b => b = a ∨ seen b) xs ys) :
      ThinsAfter seen (a :: xs) (a :: ys)
  | drop {a : α} {seen : α → Prop} {xs ys : List α} (repeated : seen a)
      (rest : ThinsAfter seen xs ys) :
      ThinsAfter seen (a :: xs) ys

/-- The second list is the first one without some elements that stand earlier in it. -/
abbrev Thins (xs ys : List α) : Prop := ThinsAfter (fun _ => False) xs ys

namespace ThinsAfter

variable {seen seen' : α → Prop} {xs ys xs' ys' : List α}

theorem mono (h : ThinsAfter seen xs ys) (hseen : ∀ a, seen a → seen' a) :
    ThinsAfter seen' xs ys := by
  induction h generalizing seen' with
  | nil seen => exact .nil seen'
  | keep a _ ih =>
    apply ThinsAfter.keep
    apply ih
    rintro b (rfl | hb)
    · exact .inl rfl
    · exact .inr (hseen b hb)
  | drop ha _ ih => exact .drop (hseen _ ha) (ih hseen)

theorem refl (seen : α → Prop) (xs : List α) : ThinsAfter seen xs xs := by
  induction xs generalizing seen with
  | nil => exact .nil seen
  | cons a rest ih => exact .keep a (ih _)

/-- What was seen before can be left out altogether. -/
theorem drop_all (h : ∀ a ∈ xs, seen a) : ThinsAfter seen xs [] := by
  induction xs with
  | nil => exact .nil seen
  | cons a rest ih =>
    rw [List.forall_mem_cons] at h
    exact .drop h.1 (ih h.2)

theorem mem_of_mem (h : ThinsAfter seen xs ys) : ∀ a ∈ ys, a ∈ xs := by
  induction h with
  | nil => exact fun a ha => ha
  | keep a _ ih =>
    rw [List.forall_mem_cons]
    exact ⟨List.mem_cons_self, fun b hb => List.mem_cons_of_mem _ (ih b hb)⟩
  | drop _ _ ih => exact fun a ha => List.mem_cons_of_mem _ (ih a ha)

theorem seen_or_mem (h : ThinsAfter seen xs ys) : ∀ a ∈ xs, seen a ∨ a ∈ ys := by
  induction h with
  | nil => exact fun a ha => .inr ha
  | keep a _ ih =>
    rw [List.forall_mem_cons]
    refine ⟨.inr List.mem_cons_self, ?_⟩
    intro b hb
    rcases ih b hb with (rfl | hb) | hb
    · exact .inr List.mem_cons_self
    · exact .inl hb
    · exact .inr (List.mem_cons_of_mem _ hb)
  | drop ha _ ih =>
    rw [List.forall_mem_cons]
    exact ⟨.inl ha, ih⟩

theorem append (h : ThinsAfter seen xs ys) (h' : ThinsAfter (fun a => a ∈ xs ∨ seen a) xs' ys') :
    ThinsAfter seen (xs ++ xs') (ys ++ ys') := by
  induction h with
  | nil seen =>
    apply h'.mono
    rintro a (ha | ha)
    · exact absurd ha List.not_mem_nil
    · exact ha
  | keep a _ ih =>
    -- what the first part holds counts as seen for the second part
    apply ThinsAfter.keep
    apply ih
    apply h'.mono
    rintro b (hb | hb)
    · rcases List.mem_cons.1 hb with rfl | hb
      · exact .inr (.inl rfl)
      · exact .inl hb
    · exact .inr (.inr hb)
  | drop ha _ ih =>
    apply ThinsAfter.drop ha
    apply ih
    apply h'.mono
    rintro b (hb | hb)
    · rcases List.mem_cons.1 hb with rfl | hb
      · exact .inr ha
      · exact .inl hb
    · exact .inr hb

/-- Elements are replaced by lists, which may be thinned themselves. -/
theorem flatMap {f g : α → List β} {seen' : β → Prop} (h : ThinsAfter seen xs ys)
    (hfg : ∀ a, Thins (f a) (g a)) (hseen : ∀ a, seen a → ∀ b ∈ f a, seen' b) :
    ThinsAfter seen' (xs.flatMap f) (ys.flatMap g) := by
  induction h generalizing seen' with
  | nil => exact .nil seen'
  | keep a _ ih =>
    rw [List.flatMap_cons, List.flatMap_cons]
    apply ((hfg a).mono fun b hb => hb.elim).append
    apply ih
    rintro c (rfl | hc) b hb
    · exact .inl hb
    · exact .inr (hseen c hc b hb)
  | drop ha _ ih =>
    -- all that replaces the element has been seen with its first occurrence
    rw [List.flatMap_cons]
    apply (drop_all (hseen _ ha)).append
    apply ih
    exact fun c hc b hb => .inr (hseen c hc b hb)

theorem map {seen' : β → Prop} (f : α → β) (h : ThinsAfter seen xs ys)
    (hseen : ∀ a, seen a → seen' (f a)) : ThinsAfter seen' (xs.map f) (ys.map f) := by
  rw [List.map_eq_flatMap, List.map_eq_flatMap]
  apply h.flatMap fun a => refl _ _
  intro a ha b hb
  rw [List.mem_singleton.1 hb]
  exact hseen a ha

/-- An inference for each element. On both lists it succeeds, or it fails for the same reason. -/
theorem mapM {ε : Type} {f : α → Except ε β} {seen' : β → Prop} (h : ThinsAfter seen xs ys)
    (hseen : ∀ a, seen a → ∃ b, f a = .ok b ∧ seen' b) :
    (∃ us vs, xs.mapM f = .ok us ∧ ys.mapM f = .ok vs ∧ ThinsAfter seen' us vs) ∨
      ∃ e, xs.mapM f = .error e ∧ ys.mapM f = .error e := by
  induction h generalizing seen' with
  | nil => exact .inl ⟨[], [], rfl, rfl, .nil seen'⟩
  | @keep a seen xs ys _ ih =>
    rw [List.mapM_cons, List.mapM_cons]
    cases hfa : f a with
    | error e => exact .inr ⟨e, rfl, rfl⟩
    | ok b =>
      have hkept : ∀ c, c = a ∨ seen c → ∃ d, f c = .ok d ∧ (d = b ∨ seen' d) := by
        rintro c (rfl | hc)
        · exact ⟨b, hfa, .inl rfl⟩
        · obtain ⟨d, hd, hseend⟩ := hseen c hc
          exact ⟨d, hd, .inr hseend⟩
      rcases ih hkept with ⟨us, vs, hus, hvs, hthins⟩ | ⟨e, hxs, hys⟩
      · rw [hus, hvs]
        exact .inl ⟨b :: us, b :: vs, rfl, rfl, .keep b hthins⟩
      · rw [hxs, hys]
        exact .inr ⟨e, rfl, rfl⟩
  | drop ha _ ih =>
    -- the element has had a result before
    obtain ⟨b, hfa, hb⟩ := hseen _ ha
    rw [List.mapM_cons, hfa]
    rcases ih hseen with ⟨us, vs, hus, hvs, hthins⟩ | ⟨e, hxs, hys⟩
    · rw [hus]
      exact .inl ⟨b :: us, vs, rfl, hvs, .drop hb hthins⟩
    · rw [hxs]
      exact .inr ⟨e, rfl, hys⟩

end ThinsAfter

namespace Thins

variable {xs ys : List α} (h : Thins xs ys)
include h

/-- Thinning leaves every element somewhere. -/
theorem mem_iff {a : α} : a ∈ ys ↔ a ∈ xs :=
  ⟨h.mem_of_mem a, fun ha => (h.seen_or_mem a ha).resolve_left id⟩

theorem flatMap {f g : α → List β} (hfg : ∀ a, Thins (f a) (g a)) :
    Thins (xs.flatMap f) (ys.flatMap g) := ThinsAfter.flatMap h hfg fun _ ha => ha.elim

theorem map (f : α → β) : Thins (xs.map f) (ys.map f) := ThinsAfter.map f h fun _ ha => ha.elim

theorem mapM {ε : Type} (f : α → Except ε β) :
    (∃ us vs, xs.mapM f = .ok us ∧ ys.mapM f = .ok vs ∧ Thins us vs) ∨
      ∃ e, xs.mapM f = .error e ∧ ys.mapM f = .error e := ThinsAfter.mapM h fun _ ha => ha.elim

end Thins

/-! ## Repeated neighbours -/

section Neighbours

variable [BEq α] [LawfulBEq α]

/-- The first element stays, and of the others those that repeat their neighbour are left out. -/
theorem exists_eraseReps_cons (a : α) (rest : List α) :
    ∃ others, (a :: rest).eraseReps = a :: others ∧
      ThinsAfter (fun b => b = a ∨ False) rest others := by
  induction rest generalizing a with
  | nil => exact ⟨[], rfl, .nil _⟩
  | cons b rest ih =>
    obtain ⟨others, hothers, hthins⟩ := ih b
    by_cases hab : a = b
    · subst hab
      rw [eraseReps_cons_self]
      exact ⟨others, hothers, .drop (.inl rfl) hthins⟩
    · refine ⟨b :: others, ?_, .keep b (hthins.mono ?_)⟩
      · rw [eraseReps_cons_of_ne hab, hothers]
      · rintro c (rfl | hc)
        · exact .inl rfl
        · exact hc.elim

theorem thins_eraseReps (xs : List α) : Thins xs xs.eraseReps := by
  cases xs with
  | nil => exact .nil _
  | cons a rest =>
    obtain ⟨others, hothers, hthins⟩ := exists_eraseReps_cons a rest
    rw [hothers]
    exact .keep a hthins

end Neighbours

/-! ## Repeated variants -/

theorem Projection.addNew_of_mem {out : List Projection} {p : Projection} (h : p ∈ out) :
    addNew out p = out := if_pos h

theorem Projection.mem_addNew (out : List Projection) (p : Projection) :
    ∀ q, q = p ∨ q ∈ out → q ∈ addNew out p := by
  intro q hq
  by_cases hp : p ∈ out
  · rw [addNew_of_mem hp]
    rcases hq with rfl | hq
    · exact hp
    · exact hq
  · rw [addNew, if_neg hp]
    rcases hq with rfl | hq
    · exact List.mem_append_right _ List.mem_cons_self
    · exact List.mem_append_left _ hq

/-- Variants that have been added before are not added again. -/
theorem ThinsAfter.foldl_addNew {seen : Projection → Prop} {ps qs out : List Projection}
    (h : ThinsAfter seen ps qs) (hseen : ∀ p, seen p → p ∈ out) :
    ps.foldl Projection.addNew out = qs.foldl Projection.addNew out := by
  induction h generalizing out with
  | nil => rfl
  | keep p _ ih =>
    rw [List.foldl_cons, List.foldl_cons]
    apply ih
    rintro q (rfl | hq)
    · exact Projection.mem_addNew out q q (.inl rfl)
    · exact Projection.mem_addNew out p q (.inr (hseen q hq))
  | drop hp _ ih =>
    rw [List.foldl_cons, Projection.addNew_of_mem (hseen _ hp)]
    exact ih hseen

/-- Variants that are added one by one do not show how often they are repeated. -/
theorem Thins.foldl_addNew {ps qs : List Projection} (h : Thins ps qs) :
    ps.foldl Projection.addNew [] = qs.foldl Projection.addNew [] :=
  ThinsAfter.foldl_addNew h fun _ hp => hp.elim

/-- Adding variants one by one thins them. -/
theorem exists_foldl_addNew (ps out : List Projection) :
    ∃ added, ps.foldl Projection.addNew out = out ++ added ∧
      ThinsAfter (fun p => p ∈ out) ps added := by
  induction ps generalizing out with
  | nil => exact ⟨[], (List.append_nil out).symm, .nil _⟩
  | cons p rest ih =>
    rw [List.foldl_cons]
    by_cases hp : p ∈ out
    · rw [Projection.addNew_of_mem hp]
      obtain ⟨added, hadded, hthins⟩ := ih out
      exact ⟨added, hadded, .drop hp hthins⟩
    · rw [Projection.addNew, if_neg hp]
      obtain ⟨added, hadded, hthins⟩ := ih (out ++ [p])
      refine ⟨p :: added, ?_, .keep p (hthins.mono ?_)⟩
      · rw [hadded, List.append_assoc]
        rfl
      · intro q hq
        rcases List.mem_append.1 hq with hq | hq
        · exact .inr hq
        · exact .inl (List.mem_singleton.1 hq)

theorem thins_foldl_addNew (ps : List Projection) : Thins ps (ps.foldl Projection.addNew []) := by
  obtain ⟨added, hadded, hthins⟩ := exists_foldl_addNew ps []
  rw [hadded]
  exact hthins.mono fun p hp => absurd hp List.not_mem_nil

/-! ## Unions -/

/-- A type that equals itself is dropped where it is repeated. -/
theorem ThinsAfter.foldl_addDistinct {seen : Ty → Prop} {ts us out : List Ty}
    (h : ThinsAfter seen ts us) (hself : ∀ t ∈ ts, t.same t = true)
    (hseen : ∀ t, seen t → out.any (·.same t) = true) :
    ts.foldl Ty.addDistinct out = us.foldl Ty.addDistinct out := by
  induction h generalizing out with
  | nil => rfl
  | keep t _ ih =>
    rw [List.forall_mem_cons] at hself
    rw [List.foldl_cons, List.foldl_cons]
    apply ih hself.2
    -- added or not, the type has an equal in the output from here on
    cases hany : out.any (·.same t) with
    | true =>
      rw [Ty.addDistinct_of_any hany]
      rintro u (rfl | hu)
      · exact hany
      · exact hseen u hu
    | false =>
      rw [Ty.addDistinct_of_not_any hany]
      rintro u (rfl | hu)
      · rw [List.any_append, List.any_cons, hself.1, Bool.true_or, Bool.or_true]
      · rw [List.any_append, hseen u hu, Bool.true_or]
  | drop ht _ ih =>
    rw [List.forall_mem_cons] at hself
    rw [List.foldl_cons, Ty.addDistinct_of_any (hseen _ ht)]
    exact ih hself.2 hseen

/-- A union does not show how often its types are repeated. -/
theorem Thins.union {ts us : List Ty} (h : Thins ts us)
    (hself : ∀ t ∈ ts, ∀ m ∈ t.members, m.same m = true) : Ty.union ts = Ty.union us := by
  have hmembers : Thins (ts.flatMap Ty.members) (us.flatMap Ty.members) :=
    h.flatMap fun t => .refl _ _
  rw [Ty.union, Ty.union, Ty.distinct, Ty.distinct,
    hmembers.foldl_addDistinct ?_ fun t ht => ht.elim]
  intro m hm
  obtain ⟨t, ht, hmt⟩ := List.mem_flatMap.1 hm
  exact hself t ht m hmt

end QueryTypes
