import QueryTypes.Proofs.Lockstep.Query

/-!
# What a run may do

A *conduct* (`Conduct`) says what is asked of the runs of an inference: in which states they start
and end, how the state may change on the way, and with which failures they may end. An inference
*ensures* a property under a conduct (`Conduct.Ensures`) if all its runs keep to the conduct and
every value that is returned has the property.

Every way in which inferences are put together passes this on, and that is what this module proves:
sequencing, folds, maps, giving up, and the step that turns a failure into a note. What is special
about a conduct only shows where something is recorded (`Conduct.Records`), given up
(`Conduct.GivesUp`) or kept.
-/

set_option autoImplicit false

namespace QueryTypes

variable {α β γ : Type}

/-- What is asked of runs. -/
structure Conduct where
  /-- The states in which runs start and end. -/
  Sound : Progress → Prop
  /-- How the state may change in a run. -/
  Leads : Progress → Progress → Prop
  /-- The failures with which a run may end. -/
  Fails : InferError → Prop
  refl : ∀ p, Leads p p
  trans : ∀ {p q r}, Leads p q → Leads q r → Leads p r

namespace Conduct

/-- What is asked of failures alone. -/
def failing (Q : InferError → Prop) : Conduct where
  Sound _ := True
  Leads _ _ := True
  Fails := Q
  refl _ := trivial
  trans _ _ := trivial

/-- No failure is allowed. -/
abbrev total : Conduct := failing fun _ => False

/-- What is asked of the notes that are added, and of failures. -/
def noting (N : Note → Prop) (Q : InferError → Prop) : Conduct where
  Sound _ := True
  Leads p q := ∃ notes, q.notes = p.notes ++ notes ∧ ∀ n ∈ notes, N n
  Fails := Q
  refl _ := ⟨[], by simp, nofun⟩
  trans := by
    rintro p q r ⟨notes, hnotes, hN⟩ ⟨more, hmore, hN'⟩
    refine ⟨notes ++ more, ?_, List.forall_mem_append.2 ⟨hN, hN'⟩⟩
    rw [hmore, hnotes, List.append_assoc]

variable (C : Conduct)

/-- A result is a value with the property, or one of the failures. -/
def Outcome (P : α → Prop) : Except InferError α → Prop
  | .ok a => P a
  | .error e => C.Fails e

/-- All runs of the inference keep to the conduct, and the values they return have the property. -/
def Ensures (x : Infer α) (P : α → Prop) : Prop :=
  ∀ p, C.Sound p →
    C.Sound (runFrom x p).2 ∧ C.Leads p (runFrom x p).2 ∧ C.Outcome P (runFrom x p).1

/-- An inference that cannot fail ensures a property if it does as an inference. -/
abbrev EnsuresTracked (x : Tracked α) (P : α → Prop) : Prop := C.Ensures (liftM x : Infer α) P

/-- The cause may be recorded. -/
def Records (cause : Cause) : Prop :=
  ∀ entity p, C.Sound p →
    C.Sound (p.noted ⟨entity, cause⟩) ∧ C.Leads p (p.noted ⟨entity, cause⟩)

/-- Something may be given up, with a failure under a strict policy and with a note otherwise. -/
structure GivesUp (cx : Context) (error : InferError) (cause : Cause) : Prop where
  fails : cx.config.strict = true → C.Fails error
  records : cx.config.strict = false → C.Records cause

/-- It may be given up to resolve something, on whatever entity. -/
abbrev GivesUpOn (cx : Context) (what : Subject) : Prop :=
  ∀ entity, C.GivesUp cx (.unresolvable what entity) (.unresolved what)

variable {C} {P : α → Prop} {Q : β → Prop}

namespace Ensures

/-! ## Results -/

/-- A value that is returned has the property. -/
theorem value {x : Infer α} (h : C.Ensures x P) {p : Progress} (hp : C.Sound p) {a : α}
    (ha : (runFrom x p).1 = .ok a) : P a := by
  have houtcome := (h p hp).2.2
  rw [ha] at houtcome
  exact houtcome

theorem failure {x : Infer α} (h : C.Ensures x P) {p : Progress} (hp : C.Sound p) {e : InferError}
    (he : (runFrom x p).1 = .error e) : C.Fails e := by
  have houtcome := (h p hp).2.2
  rw [he] at houtcome
  exact houtcome

/-- Where no failure is allowed there is a value. -/
theorem exists_value {x : Infer α} (h : C.Ensures x P) (hfails : ∀ e, ¬ C.Fails e) {p : Progress}
    (hp : C.Sound p) : ∃ a, (runFrom x p).1 = .ok a ∧ P a := by
  cases hresult : (runFrom x p).1 with
  | ok a => exact ⟨a, rfl, h.value hp hresult⟩
  | error e => exact absurd (h.failure hp hresult) (hfails e)

theorem exists_ok {x : Infer α} (h : Conduct.total.Ensures x P) (p : Progress) :
    ∃ a, (runFrom x p).1 = .ok a := by
  obtain ⟨a, ha, -⟩ := h.exists_value (fun _ => id) (p := p) trivial
  exact ⟨a, ha⟩

/-! ## Putting inferences together -/

theorem mono {P' : α → Prop} {x : Infer α} (h : C.Ensures x P) (hP : ∀ a, P a → P' a) :
    C.Ensures x P' := by
  intro p hp
  obtain ⟨hsound, hleads, houtcome⟩ := h p hp
  refine ⟨hsound, hleads, ?_⟩
  cases hresult : (runFrom x p).1 with
  | ok a =>
    rw [hresult] at houtcome
    exact hP a houtcome
  | error e =>
    rw [hresult] at houtcome
    exact houtcome

theorem pure {a : α} (h : P a) : C.Ensures (pure a) P := fun p hp => ⟨hp, C.refl p, h⟩

theorem throw {e : InferError} (h : C.Fails e) : C.Ensures (throw e : Infer α) P :=
  fun p hp => ⟨hp, C.refl p, h⟩

theorem bind {x : Infer α} {f : α → Infer β} (hx : C.Ensures x P)
    (hf : ∀ a, P a → C.Ensures (f a) Q) : C.Ensures (x >>= f) Q := by
  intro p hp
  obtain ⟨hsound, hleads, houtcome⟩ := hx p hp
  rcases hrun : runFrom x p with ⟨r, q⟩
  rw [hrun] at hsound hleads houtcome
  cases r with
  | error e =>
    rw [runFrom_bind_error hrun]
    exact ⟨hsound, hleads, houtcome⟩
  | ok a =>
    rw [runFrom_bind_ok hrun]
    obtain ⟨hsound', hleads', houtcome'⟩ := hf a houtcome q hsound
    exact ⟨hsound', C.trans hleads hleads', houtcome'⟩

/-- After a value that is known only what follows it counts. -/
theorem bind_eq {x : Infer α} {f : α → Infer β} {a : α} (hx : C.Ensures x (· = a))
    (hf : C.Ensures (f a) Q) : C.Ensures (x >>= f) Q := by
  apply hx.bind
  rintro _ rfl
  exact hf

/-- A fold ensures what relates its states to those of another fold, if each of its steps does. -/
theorem foldlM_along {R : γ → β → Prop} {f : β → α → Infer β} {g : γ → α → γ} {xs : List α}
    (h : ∀ c b, R c b → ∀ a ∈ xs, C.Ensures (f b a) (R (g c a))) {c : γ} {b : β} (hb : R c b) :
    C.Ensures (xs.foldlM f b) (R (xs.foldl g c)) := by
  induction xs generalizing c b with
  | nil => exact .pure hb
  | cons a rest ih =>
    rw [List.foldlM_cons, List.foldl_cons]
    apply (h c b hb a List.mem_cons_self).bind
    intro b' hb'
    exact ih (fun c b hb a ha => h c b hb a (List.mem_cons_of_mem _ ha)) hb'

/-- A fold ensures what each of its steps keeps. -/
theorem foldlM {f : β → α → Infer β} {xs : List α}
    (h : ∀ b, Q b → ∀ a ∈ xs, C.Ensures (f b a) Q) {b : β} (hb : Q b) :
    C.Ensures (xs.foldlM f b) Q :=
  foldlM_along (R := fun _ : Unit => Q) (g := fun _ _ => ()) (c := ()) (fun _ => h) hb

theorem mapM {R : α → β → Prop} {f : α → Infer β} {xs : List α}
    (h : ∀ a ∈ xs, C.Ensures (f a) (R a)) : C.Ensures (xs.mapM f) (List.Forall₂ R xs) := by
  induction xs with
  | nil =>
    rw [List.mapM_nil]
    exact .pure .nil
  | cons a rest ih =>
    rw [List.forall_mem_cons] at h
    rw [List.mapM_cons]
    apply h.1.bind
    intro b hb
    apply (ih h.2).bind
    intro bs hbs
    exact .pure (.cons hb hbs)

theorem mapM_eq {f : α → Infer β} {g : α → β} (xs : List α)
    (h : ∀ a ∈ xs, C.Ensures (f a) (· = g a)) : C.Ensures (xs.mapM f) (· = xs.map g) := by
  apply (mapM h).mono
  intro ys hys
  -- lists that match by an equation are equal
  rw [eq_comm, ← List.forall₂_eq_eq_eq, List.forall₂_map_left_iff]
  exact hys.imp fun _ _ h => h.symm

/-! ## Notes and failures -/

theorem note {cause : Cause} (h : C.Records cause) (entity : Option String) :
    C.EnsuresTracked (note entity cause) fun _ => True := by
  intro p hp
  obtain ⟨hsound, hleads⟩ := h entity p hp
  exact ⟨hsound, hleads, trivial⟩

/-- Giving up fails or goes on with the default. -/
theorem giveUp {cx : Context} {error : InferError} {cause : Cause} (h : C.GivesUp cx error cause)
    (entity : Option String) {a : α} (ha : P a) : C.Ensures (giveUp cx error entity cause a) P := by
  rw [QueryTypes.giveUp]
  split
  · next hstrict => exact .throw (h.fails hstrict)
  · next hlenient =>
    apply Ensures.bind (note (h.records (Bool.eq_false_iff.2 hlenient)) entity)
    exact fun _ _ => .pure ha

theorem unresolved {cx : Context} {what : Subject} (h : C.GivesUpOn cx what)
    (entity : Option String) :
    C.Ensures (unresolved cx entity what : Infer (Option α)) (· = none) := by
  rw [unresolved_eq_giveUp]
  exact .giveUp (h entity) entity rfl

/-- A failure that becomes a note leaves an unknown type. -/
theorem degrade {T : Ty → Prop} {x : Infer Ty} (h : C.Ensures x T)
    (hfailure : ∀ e, C.Fails e → C.Records (.failure e)) (hunknown : T .unknown) :
    C.EnsuresTracked (degrade x) T := by
  intro p hp
  obtain ⟨hsound, hleads, houtcome⟩ := h p hp
  rw [runFrom_lift, run_degrade]
  rcases hrun : runFrom x p with ⟨r, q⟩
  rw [hrun] at hsound hleads houtcome
  cases r with
  | ok t => exact ⟨hsound, hleads, houtcome⟩
  | error e =>
    -- the note is added where the failure left the run
    obtain ⟨hsound', hleads'⟩ := hfailure e houtcome none q hsound
    exact ⟨hsound', C.trans hleads hleads', hunknown⟩

end Ensures

theorem EnsuresTracked.pure {a : α} (h : P a) : C.EnsuresTracked (Pure.pure a) P := Ensures.pure h

theorem EnsuresTracked.bind {x : Tracked α} {f : α → Tracked β} (hx : C.EnsuresTracked x P)
    (hf : ∀ a, P a → C.EnsuresTracked (f a) Q) : C.EnsuresTracked (x >>= f) Q :=
  Ensures.bind hx hf

/-! ## Giving up -/

/-- Under a lenient policy it is enough that notes are allowed. -/
theorem GivesUp.of_lenient {cx : Context} (hlenient : cx.config.strict = false) (error : InferError)
    {cause : Cause} (h : C.Records cause) : C.GivesUp cx error cause where
  fails hstrict := by
    rw [hlenient] at hstrict
    cases hstrict
  records _ := h

/-- An inference that cannot fail is total, whatever it does. -/
theorem EnsuresTracked.total (x : Tracked α) : Conduct.total.EnsuresTracked x fun _ => True :=
  fun _ _ => ⟨trivial, trivial, trivial⟩

/-- Where nothing is asked of the state everything may be recorded. -/
theorem records_failing (Q : InferError → Prop) (cause : Cause) : (failing Q).Records cause :=
  fun _ _ _ => ⟨trivial, trivial⟩

theorem records_noting {N : Note → Prop} (Q : InferError → Prop) {cause : Cause}
    (h : ∀ entity, N ⟨entity, cause⟩) : (noting N Q).Records cause := by
  intro entity p _
  exact ⟨trivial, [⟨entity, cause⟩], rfl, List.forall_mem_singleton.2 (h entity)⟩

end Conduct

end QueryTypes
