import QueryTypes.Proofs.Lists
import QueryTypes.Query.Result

/-!
# Two runs in step

Two inferences of the same thing can start from different states or under different policies. A
*discipline* says when their states are still *joined*, so that the runs go on alike, and when they
have *parted* for good. Two inferences are alike (`Discipline.Alike`) when from joined states they
return the same value in joined states, or part.

Being alike is kept by every way in which inferences are put together, and that is what this module
proves: sequencing, folds, maps and the step that turns a failure into a note. What has been
recorded is never taken back (`Progress.Grows`), and this is part of being alike: runs that have
parted cannot meet again.
-/

set_option autoImplicit false

namespace QueryTypes

variable {α β γ : Type}

/-! ## Runs -/

/-- The run of an inference from a state: its result and the state after it. -/
def runFrom (x : Infer α) (p : Progress) : Except InferError α × Progress := x.run.run p

@[simp] theorem runFrom_pure (a : α) (p : Progress) : runFrom (pure a) p = (.ok a, p) := rfl

@[simp] theorem runFrom_lift (x : Tracked α) (p : Progress) :
    runFrom (liftM x) p = (.ok (x.run p).1, (x.run p).2) := rfl

theorem runFrom_bind (x : Infer α) (f : α → Infer β) (p : Progress) :
    runFrom (x >>= f) p = match runFrom x p with
      | (.ok a, q) => runFrom (f a) q
      | (.error e, q) => (.error e, q) := by
  have key : runFrom (x >>= f) p = (ExceptT.bindCont f (runFrom x p).1).run (runFrom x p).2 := rfl
  rw [key]
  rcases runFrom x p with ⟨r, q⟩
  cases r with
  | ok a => rfl
  | error e => rfl

theorem runFrom_bind_ok {x : Infer α} {f : α → Infer β} {p q : Progress} {a : α}
    (h : runFrom x p = (.ok a, q)) : runFrom (x >>= f) p = runFrom (f a) q := by
  rw [runFrom_bind, h]

theorem runFrom_bind_error {x : Infer α} {f : α → Infer β} {p q : Progress} {e : InferError}
    (h : runFrom x p = (.error e, q)) : runFrom (x >>= f) p = (.error e, q) := by
  rw [runFrom_bind, h]

/-! ## Growing states -/

/-- The state with one more note. -/
def Progress.noted (p : Progress) (n : Note) : Progress := { p with notes := p.notes ++ [n] }

/-- Rows and notes have only been added at the end. -/
structure Progress.Grows (p q : Progress) : Prop where
  rows : p.rows <+: q.rows
  notes : p.notes <+: q.notes

theorem Progress.Grows.refl (p : Progress) : p.Grows p := ⟨List.prefix_refl _, List.prefix_refl _⟩

theorem Progress.Grows.trans {p q r : Progress} (hpq : p.Grows q) (hqr : q.Grows r) : p.Grows r :=
  ⟨hpq.rows.trans hqr.rows, hpq.notes.trans hqr.notes⟩

theorem Progress.grows_noted (p : Progress) (n : Note) : p.Grows (p.noted n) :=
  ⟨List.prefix_refl _, List.prefix_append _ _⟩

/-! ## Exits -/

/-- How a run ends, apart from its value: the failure, if it failed, and the state. -/
abbrev Exit := Option InferError × Progress

/-- The exit of a run. -/
def exitOf : Except InferError α × Progress → Exit
  | (.ok _, p) => (none, p)
  | (.error e, p) => (some e, p)

@[simp] theorem exitOf_ok (a : α) (p : Progress) : exitOf (.ok a, p) = (none, p) := rfl
@[simp] theorem exitOf_error (e : InferError) (p : Progress) :
    exitOf ((.error e, p) : Except InferError α × Progress) = (some e, p) := rfl

/-- The state when a failure has become a note. -/
def Exit.settle : Exit → Progress
  | (none, p) => p
  | (some e, p) => p.noted ⟨none, .failure e⟩

/-- The exits that a run can have when it goes on: none but its own after a failure, otherwise any
with a grown state. -/
def Exit.Extends : Exit → Exit → Prop
  | (none, p), (_, q) => p.Grows q
  | (some e, p), b => b = (some e, p)

theorem Exit.extends_exitOf {p : Progress} {r : Except InferError α × Progress} (h : p.Grows r.2) :
    Exit.Extends (none, p) (exitOf r) := by
  obtain ⟨r, q⟩ := r
  cases r with
  | ok a => exact h
  | error e => exact h

/-- A run and whatever follows it. -/
theorem extends_runFrom_bind {x : Infer α} {f : α → Infer β}
    (hf : ∀ a q, Progress.Grows q (runFrom (f a) q).2) (p : Progress) :
    Exit.Extends (exitOf (runFrom x p)) (exitOf (runFrom (x >>= f) p)) := by
  rcases h : runFrom x p with ⟨r, q⟩
  cases r with
  | ok a =>
    rw [runFrom_bind_ok h, exitOf_ok]
    exact Exit.extends_exitOf (hf a q)
  | error e =>
    -- nothing follows a failure
    rw [runFrom_bind_error h, exitOf_error, exitOf_error]
    exact rfl

/-! ## Disciplines -/

/-- A way to compare two runs: when their states are joined, and which pairs of exits have
parted. -/
structure Discipline where
  joined : Progress → Progress → Prop
  parted : Exit → Exit → Prop
  /-- Runs that have parted do not meet again. -/
  parted_extend : ∀ {a b a' b' : Exit}, parted a b → a.Extends a' → b.Extends b' → parted a' b'
  /-- Runs that fail for the same reason part. -/
  parted_fail : ∀ {p q : Progress} (e : InferError), joined p q → parted (some e, p) (some e, q)
  /-- A note on both sides keeps states joined or parts the runs. -/
  joined_noted : ∀ {p q : Progress} (n : Note), joined p q →
    joined (p.noted n) (q.noted n) ∨ parted (none, p.noted n) (none, q.noted n)
  /-- When failures become notes, the runs either both failed and are joined again, or stay
  parted. -/
  parted_settle : ∀ {a b : Exit}, parted a b →
    (a.1.isSome = true ∧ b.1.isSome = true ∧ joined a.settle b.settle) ∨
      parted (none, a.settle) (none, b.settle)

namespace Discipline

variable (D : Discipline)

/-- Two runs end alike: with the same value in joined states, or parted. -/
inductive Matches : Except InferError α × Progress → Except InferError α × Progress → Prop
  | ok {a : α} {p q : Progress} : D.joined p q → Matches (.ok a, p) (.ok a, q)
  | parted {r r' : Except InferError α × Progress} :
      D.parted (exitOf r) (exitOf r') → Matches r r'

/-- Two inferences are alike: both let the state grow, and from joined states they end alike. -/
structure Alike (x y : Infer α) : Prop where
  grows_left : ∀ p : Progress, p.Grows (runFrom x p).2
  grows_right : ∀ q : Progress, q.Grows (runFrom y q).2
  ends : ∀ {p q : Progress}, D.joined p q → D.Matches (runFrom x p) (runFrom y q)

/-- Inferences that cannot fail are alike when they are alike as inferences. -/
abbrev AlikeTracked (x y : Tracked α) : Prop := D.Alike (liftM x : Infer α) (liftM y)

variable {D}

theorem Alike.pure (a : α) : D.Alike (pure a) (pure a) where
  grows_left p := .refl p
  grows_right q := .refl q
  ends h := .ok h

theorem Alike.throw (e : InferError) : D.Alike (throw e : Infer α) (throw e) where
  grows_left p := .refl p
  grows_right q := .refl q
  ends h := .parted (D.parted_fail e h)

theorem grows_bind {x : Infer α} {f : α → Infer β} {p : Progress} (hx : p.Grows (runFrom x p).2)
    (hf : ∀ a q, Progress.Grows q (runFrom (f a) q).2) : p.Grows (runFrom (x >>= f) p).2 := by
  rcases h : runFrom x p with ⟨r, q⟩
  rw [h] at hx
  cases r with
  | ok a => rw [runFrom_bind_ok h]; exact hx.trans (hf a q)
  | error e => rw [runFrom_bind_error h]; exact hx

/-- Alike inferences followed by alike inferences are alike. -/
theorem Alike.bind {x y : Infer α} {f g : α → Infer β} (hx : D.Alike x y)
    (hf : ∀ a, D.Alike (f a) (g a)) : D.Alike (x >>= f) (y >>= g) where
  grows_left p := grows_bind (hx.grows_left p) fun a => (hf a).grows_left
  grows_right q := grows_bind (hx.grows_right q) fun a => (hf a).grows_right
  ends := by
    intro p q hpq
    have hxy := hx.ends hpq
    generalize hp : runFrom x p = r at hxy
    generalize hq : runFrom y q = r' at hxy
    cases hxy with
    | ok hjoined =>
      -- one value on both sides, so the same continuation is taken
      rw [runFrom_bind_ok hp, runFrom_bind_ok hq]
      exact (hf _).ends hjoined
    | parted hparted =>
      -- the values may differ here, so only the growth of what follows is used
      have hl := extends_runFrom_bind (x := x) (fun a => (hf a).grows_left) p
      have hr := extends_runFrom_bind (x := y) (fun a => (hf a).grows_right) q
      rw [hp] at hl
      rw [hq] at hr
      exact .parted (D.parted_extend hparted hl hr)

theorem AlikeTracked.bind {x y : Tracked α} {f g : α → Tracked β} (hx : D.AlikeTracked x y)
    (hf : ∀ a, D.AlikeTracked (f a) (g a)) : D.AlikeTracked (x >>= f) (y >>= g) :=
  Alike.bind hx hf

theorem AlikeTracked.pure (a : α) : D.AlikeTracked (Pure.pure a) (Pure.pure a) := Alike.pure a

/-- What is made of one value on both sides may differ, as long as what follows is alike. -/
theorem AlikeTracked.bind_map {x y : Tracked α} {u v : α → γ} {f g : γ → Infer β}
    (hx : D.AlikeTracked x y) (hf : ∀ a, D.Alike (f (u a)) (g (v a))) :
    D.Alike ((liftM (u <$> x) : Infer γ) >>= f) (liftM (v <$> y) >>= g) := by
  show D.Alike ((liftM x : Infer α) >>= fun a => f (u a)) (liftM y >>= fun a => g (v a))
  exact Alike.bind hx hf

/-- Folds over related lists are alike when their steps are. -/
theorem Alike.foldlM₂ {R : α → γ → Prop} {f : β → α → Infer β} {g : β → γ → Infer β} {xs : List α}
    {ys : List γ} (hxs : List.Forall₂ R xs ys) (h : ∀ b a c, R a c → D.Alike (f b a) (g b c))
    (b : β) : D.Alike (xs.foldlM f b) (ys.foldlM g b) := by
  induction hxs generalizing b with
  | nil => exact Alike.pure b
  | cons hac _ ih =>
    rw [List.foldlM_cons, List.foldlM_cons]
    exact (h b _ _ hac).bind ih

/-- Folds are alike when their steps are. -/
theorem Alike.foldlM {f g : β → α → Infer β} (xs : List α) (h : ∀ b a, D.Alike (f b a) (g b a))
    (b : β) : D.Alike (xs.foldlM f b) (xs.foldlM g b) :=
  Alike.foldlM₂ (List.forall₂_same.2 fun _ _ => rfl) (fun b a _ hac => hac ▸ h b a) b

/-- Inferences for each element of a list are alike when they are for every element. -/
theorem Alike.mapM {f g : α → Infer β} (xs : List α) (h : ∀ a ∈ xs, D.Alike (f a) (g a)) :
    D.Alike (xs.mapM f) (xs.mapM g) := by
  induction xs with
  | nil =>
    rw [List.mapM_nil, List.mapM_nil]
    exact Alike.pure []
  | cons a rest ih =>
    rw [List.mapM_cons, List.mapM_cons]
    refine (h a List.mem_cons_self).bind fun b => ?_
    exact (ih fun a ha => h a (List.mem_cons_of_mem _ ha)).bind fun bs => Alike.pure (b :: bs)

theorem AlikeTracked.mapM {f g : α → Tracked β} (xs : List α)
    (h : ∀ a ∈ xs, D.AlikeTracked (f a) (g a)) : D.AlikeTracked (xs.mapM f) (xs.mapM g) := by
  induction xs with
  | nil =>
    rw [List.mapM_nil, List.mapM_nil]
    exact AlikeTracked.pure []
  | cons a rest ih =>
    rw [List.mapM_cons, List.mapM_cons]
    refine (h a List.mem_cons_self).bind fun b => ?_
    exact (ih fun a ha => h a (List.mem_cons_of_mem _ ha)).bind fun bs =>
      AlikeTracked.pure (b :: bs)

/-- The same note on both sides. -/
theorem alikeTracked_note (entity : Option String) (cause : Cause) :
    D.AlikeTracked (note entity cause) (note entity cause) where
  grows_left p := p.grows_noted ⟨entity, cause⟩
  grows_right q := q.grows_noted ⟨entity, cause⟩
  ends h := by
    rcases D.joined_noted ⟨entity, cause⟩ h with hjoined | hparted
    · exact .ok hjoined
    · exact .parted hparted

end Discipline

/-! ## Runs that fail together -/

/-- Runs whose states stay related, whatever is recorded on both sides, and that fail for the same
reason or not at all. -/
def Discipline.together (R : Progress → Progress → Prop)
    (noted : ∀ (p q : Progress) (n : Note), R p q → R (p.noted n) (q.noted n)) : Discipline where
  joined := R
  parted a b := a.1 = b.1 ∧ a.1.isSome = true ∧ R a.2 b.2
  parted_extend := by
    rintro ⟨e, p⟩ ⟨e', q⟩ a' b' ⟨rfl, hsome, hR⟩ ha hb
    cases e with
    | none => exact absurd hsome (by simp)
    | some e =>
      have ha : a' = (some e, p) := ha
      have hb : b' = (some e, q) := hb
      rw [ha, hb]
      exact ⟨rfl, rfl, hR⟩
  parted_fail _ h := ⟨rfl, rfl, h⟩
  joined_noted n h := .inl (noted _ _ n h)
  parted_settle := by
    rintro ⟨e, p⟩ ⟨e', q⟩ ⟨rfl, hsome, hR⟩
    cases e with
    | none => exact absurd hsome (by simp)
    | some e => exact .inl ⟨rfl, rfl, noted _ _ _ hR⟩

theorem Discipline.matches_together_iff {R : Progress → Progress → Prop}
    {noted : ∀ (p q : Progress) (n : Note), R p q → R (p.noted n) (q.noted n)}
    {r r' : Except InferError α × Progress} :
    (Discipline.together R noted).Matches r r' ↔ r.1 = r'.1 ∧ R r.2 r'.2 := by
  obtain ⟨r, p⟩ := r
  obtain ⟨r', q⟩ := r'
  constructor
  · intro h
    cases h with
    | ok hjoined => exact ⟨rfl, hjoined⟩
    | parted hparted =>
      obtain ⟨hfailure, hsome, hR⟩ := hparted
      cases r with
      | ok a => exact absurd hsome (by simp)
      | error e => cases r' with
        | ok b => exact absurd hfailure (by simp)
        | error e' => exact ⟨congrArg Except.error (Option.some.inj hfailure), hR⟩
  · rintro ⟨rfl, hR⟩
    cases r with
    | ok a => exact .ok hR
    | error e => exact .parted ⟨rfl, rfl, hR⟩

/-- A run whose failure becomes a note. -/
theorem run_degrade (x : Infer Ty) (p : Progress) :
    (degrade x).run p = match runFrom x p with
      | (.ok t, q) => (t, q)
      | (.error e, q) => (.unknown, q.noted ⟨none, .failure e⟩) := by
  rcases h : runFrom x p with ⟨r, q⟩
  have hrun : StateT.run (ExceptT.run x) p = (r, q) := h
  rw [degrade, StateT.run_bind, hrun]
  cases r with
  | ok t => rfl
  | error e => rfl

namespace Discipline

variable {D : Discipline}

/-- Alike inferences whose failures become notes are alike. -/
theorem Alike.degrade {x y : Infer Ty} (h : D.Alike x y) :
    D.AlikeTracked (degrade x) (degrade y) := by
  have hgrows : ∀ (z : Infer Ty) (p : Progress), p.Grows (runFrom z p).2 →
      p.Grows ((QueryTypes.degrade z).run p).2 := by
    intro z p hz
    rw [run_degrade]
    rcases hr : runFrom z p with ⟨r, q⟩
    rw [hr] at hz
    cases r with
    | ok t => exact hz
    | error e => exact hz.trans (q.grows_noted _)
  refine ⟨fun p => hgrows x p (h.grows_left p), fun q => hgrows y q (h.grows_right q), ?_⟩
  intro p q hpq
  have hxy := h.ends hpq
  rw [runFrom_lift, runFrom_lift, run_degrade, run_degrade]
  generalize runFrom x p = r at hxy
  generalize runFrom y q = r' at hxy
  cases hxy with
  | ok hjoined => exact .ok hjoined
  | parted hparted =>
    obtain ⟨r, p'⟩ := r
    obtain ⟨r', q'⟩ := r'
    rcases D.parted_settle hparted with ⟨hl, hr, hjoined⟩ | hparted
    · -- both runs failed, so both answer `unknown`
      cases r with
      | ok t => simp at hl
      | error e =>
        cases r' with
        | ok t => simp at hr
        | error e' => exact .ok hjoined
    · -- parted runs stay parted, whatever the values are
      refine .parted ?_
      cases r with
      | ok t => cases r' with
        | ok t' => exact hparted
        | error e' => exact hparted
      | error e => cases r' with
        | ok t' => exact hparted
        | error e' => exact hparted

end Discipline

end QueryTypes
