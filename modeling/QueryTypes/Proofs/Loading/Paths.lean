import QueryTypes.Proofs.Projections.Variants
import QueryTypes.Proofs.Rows.Visibility

/-!
# Paths of relations

The relations to load are a tree of names. What counts of a tree are its paths
(`RelationTree.HasPath`): a path that is inserted adds itself and its beginnings
(`RelationTree.hasPath_insert`), in whatever order paths are inserted. So the tree of a chain has
the paths that its calls name and their beginnings (`Selection.hasPath_relations_ofSteps`), and
chains that name the same paths, with the same other calls, select the same columns and are queries
alike (`SameLoads`).

A tree that is made by insertion has each name once (`RelationTree.Distinct`), so that its paths
determine what is loaded below a name.
-/

set_option autoImplicit false

namespace QueryTypes

namespace RelationTree

/-! ## Paths of a tree -/

/-- A path of names leads into the tree. -/
def HasPath : List String → RelationTree → Prop
  | [], _ => True
  | name :: rest, t => ∃ nested, (name, nested) ∈ t.children ∧ HasPath rest nested

/-- No name occurs twice at one place. -/
inductive Distinct : RelationTree → Prop where
  | node {children : List (String × RelationTree)} (distinct : Entries.Distinct children)
      (nested : ∀ child ∈ children, Distinct child.2) : Distinct (.node children)

@[simp] theorem hasPath_nil (t : RelationTree) : HasPath [] t := trivial

theorem hasPath_cons {name : String} {rest : List String} {t : RelationTree} :
    HasPath (name :: rest) t ↔ ∃ nested, (name, nested) ∈ t.children ∧ HasPath rest nested :=
  Iff.rfl

theorem hasPath_empty {path : List String} : HasPath path empty ↔ path = [] := by
  cases path with
  | nil => simp
  | cons name rest => simp [hasPath_cons, empty, children]

theorem distinct_empty : Distinct empty := .node List.nodup_nil fun _ h => absurd h List.not_mem_nil

theorem Distinct.children {t : RelationTree} (h : t.Distinct) : Entries.Distinct t.children := by
  cases h with
  | node distinct _ => exact distinct

theorem Distinct.nested {t : RelationTree} (h : t.Distinct) {child : String × RelationTree}
    (hmem : child ∈ t.children) : child.2.Distinct := by
  cases h with
  | node _ nested => exact nested child hmem

/-- In such a tree the paths below a name are those of its one subtree. -/
theorem Distinct.hasPath_cons_iff {t : RelationTree} (h : t.Distinct) {name : String}
    {nested : RelationTree} (hmem : (name, nested) ∈ t.children) {rest : List String} :
    HasPath (name :: rest) t ↔ HasPath rest nested := by
  rw [hasPath_cons]
  constructor
  · rintro ⟨other, hother, hrest⟩
    have heq := (h.children.get?_eq_some hmem).symm.trans (h.children.get?_eq_some hother)
    rw [Option.some.inj heq]
    exact hrest
  · intro hrest
    exact ⟨nested, hmem, hrest⟩

/-! ## Insertion -/

section Change

variable {name other : String} {f : RelationTree → RelationTree}

theorem mem_change_of_ne (h : other ≠ name) {u : RelationTree} (es : List (String × RelationTree)) :
    (other, u) ∈ change name f es ↔ (other, u) ∈ es := by
  induction es with
  | nil => simp [change, h]
  | cons e rest ih =>
    obtain ⟨key, t⟩ := e
    by_cases hkey : key = name
    · subst hkey
      simp [change, h]
    · simp [change, hkey, ih]

/-- What holds of a subtree under the name after a change, if the change adds one more way to
hold. -/
theorem exists_mem_change {P : RelationTree → Prop} {Q : Prop} (hf : ∀ t, P (f t) ↔ P t ∨ Q)
    (hempty : P empty → Q) (es : List (String × RelationTree)) :
    (∃ u, (name, u) ∈ change name f es ∧ P u) ↔ (∃ u, (name, u) ∈ es ∧ P u) ∨ Q := by
  induction es with
  | nil => simpa [change, hf] using hempty
  | cons e rest ih =>
    obtain ⟨key, t⟩ := e
    by_cases hkey : key = name
    · subst hkey
      -- the first subtree of the name is changed, further ones stay
      simp only [change, if_true, List.mem_cons, Prod.mk.injEq, true_and, or_and_right, exists_or,
        exists_eq_left, hf]
      exact or_right_comm
    · have hne : name ≠ key := fun heq => hkey heq.symm
      simpa [change, hkey, hne] using ih

/-- A change puts the changed subtree under its name. -/
theorem change_eq_put (es : List (String × RelationTree)) :
    change name f es = Entries.put es name (f ((Entries.get? es name).getD empty)) := by
  induction es with
  | nil => rfl
  | cons e rest ih =>
    obtain ⟨key, t⟩ := e
    by_cases hkey : key = name
    · simp [change, Entries.put, Entries.get?, hkey]
    · simp [change, Entries.put, Entries.get?, hkey, ih]

end Change

/-- Inserting a path adds its beginnings, and nothing else. -/
theorem hasPath_insert (names path : List String) (t : RelationTree) :
    HasPath path (t.insert names) ↔ HasPath path t ∨ path <+: names := by
  induction names generalizing path t with
  | nil =>
    cases path with
    | nil => simp
    | cons name rest => simp [insert]
  | cons name names ih =>
    cases path with
    | nil => simp
    | cons first rest =>
      rw [insert, hasPath_cons, hasPath_cons, List.cons_prefix_cons, children]
      by_cases hfirst : first = name
      · subst hfirst
        have hempty : HasPath rest empty → rest <+: names := by
          rw [hasPath_empty]
          rintro rfl
          exact List.nil_prefix
        simpa using exists_mem_change (fun t => ih rest t) hempty t.children
      · simp [mem_change_of_ne hfirst, hfirst]

theorem Distinct.insert {t : RelationTree} (h : t.Distinct) (names : List String) :
    (t.insert names).Distinct := by
  induction names generalizing t with
  | nil => exact h
  | cons name names ih =>
    have hsubtree : ((Entries.get? t.children name).getD empty).Distinct := by
      cases hget : Entries.get? t.children name with
      | none => exact distinct_empty
      | some u => exact h.nested (Entries.mem_of_get?_eq_some hget)
    rw [RelationTree.insert, change_eq_put]
    refine .node (h.children.put _ _) ?_
    intro child hchild
    rcases Entries.mem_put hchild with hold | rfl
    · exact h.nested hold
    · exact ih hsubtree

/-! ## Trees with the same paths -/

/-- The same paths lead into both trees. -/
def SamePaths (t t' : RelationTree) : Prop := ∀ path, HasPath path t ↔ HasPath path t'

theorem SamePaths.symm {t t' : RelationTree} (h : SamePaths t t') : SamePaths t' t :=
  fun path => (h path).symm

theorem hasPath_singleton {name : String} {t : RelationTree} :
    HasPath [name] t ↔ name ∈ Entries.keys t.children := by
  simp [hasPath_cons, Entries.keys]

theorem SamePaths.mem_keys_iff {t t' : RelationTree} (h : SamePaths t t') (name : String) :
    name ∈ Entries.keys t.children ↔ name ∈ Entries.keys t'.children := by
  rw [← hasPath_singleton, ← hasPath_singleton, h]

theorem SamePaths.nested {t t' : RelationTree} (h : SamePaths t t') (ht : t.Distinct)
    (ht' : t'.Distinct) {name : String} {u u' : RelationTree} (hu : (name, u) ∈ t.children)
    (hu' : (name, u') ∈ t'.children) : SamePaths u u' := by
  intro path
  rw [← ht.hasPath_cons_iff hu, ← ht'.hasPath_cons_iff hu', h]

end RelationTree

/-! ## Chains -/

/-- The call names a path of relations, or a path that goes on from it. -/
def Step.LoadsPath (call : Step) (path : List String) : Prop :=
  call.name = "with" ∧ ∃ text ∈ call.argTypes.flatMap RelationTree.argumentPaths,
    path <+: RelationTree.pathNames text

/-- The paths of relations that calls name, as they are written out. -/
def Step.namedPaths (steps : List Step) : List (List String) :=
  (steps.filter fun call => call.name == "with").flatMap fun call =>
    (call.argTypes.flatMap RelationTree.argumentPaths).map RelationTree.pathNames

theorem Step.exists_loadsPath_iff {steps : List Step} {path : List String} :
    (∃ call ∈ steps, call.LoadsPath path) ↔ ∃ named ∈ namedPaths steps, path <+: named := by
  simp only [LoadsPath, namedPaths, List.mem_flatMap, List.mem_filter, List.mem_map, beq_iff_eq]
  constructor
  · rintro ⟨call, hcall, hwith, text, htext, hpath⟩
    exact ⟨_, ⟨call, ⟨hcall, hwith⟩, text, htext, rfl⟩, hpath⟩
  · rintro ⟨_, ⟨call, ⟨hcall, hwith⟩, text, htext, rfl⟩, hpath⟩
    exact ⟨call, hcall, hwith, text, htext, hpath⟩

/-- Where each path that some calls name is the beginning of one that others name, these load what
those do. -/
theorem Step.loadsPath_of_longer {steps steps' : List Step}
    (h : ∀ named ∈ namedPaths steps, ∃ longer ∈ namedPaths steps', named <+: longer)
    {path : List String} (hpath : ∃ call ∈ steps, call.LoadsPath path) :
    ∃ call ∈ steps', call.LoadsPath path := by
  rw [exists_loadsPath_iff] at hpath ⊢
  obtain ⟨named, hnamed, hbegins⟩ := hpath
  obtain ⟨longer, hlonger, hnext⟩ := h named hnamed
  exact ⟨longer, hlonger, hbegins.trans hnext⟩

/-- The calls that do not load relations. -/
def Step.others (steps : List Step) : List Step := steps.filter fun call => call.name != "with"

namespace Selection

open RelationTree (HasPath)

theorem hasPath_relations_step {path : List String} (s : Selection) (call : Step) :
    HasPath path (s.step call).relations ↔ HasPath path s.relations ∨ call.LoadsPath path := by
  rcases s.step_cases call with ⟨hwith, hstep⟩ | ⟨hwith, variants, hstep, -⟩
  · have hinsert (t : RelationTree) (text : String) :
        HasPath path (t.insertPath text) ↔ HasPath path t ∨ path <+: RelationTree.pathNames text :=
      RelationTree.hasPath_insert _ path t
    rw [hstep, RelationTree.addArguments, foldl_collects hinsert, Step.LoadsPath]
    simp [hwith]
  · simp [hstep, Step.LoadsPath, hwith]

/-- The tree of a chain has the paths that its calls name. -/
theorem hasPath_relations_ofSteps {path : List String} (steps : List Step) :
    HasPath path (ofSteps steps).relations ↔ path = [] ∨ ∃ call ∈ steps, call.LoadsPath path := by
  rw [ofSteps, foldl_collects (P := fun s => HasPath path (Selection.relations s))
    hasPath_relations_step]
  exact or_congr_left RelationTree.hasPath_empty

theorem distinct_relations_ofSteps (steps : List Step) : (ofSteps steps).relations.Distinct := by
  apply List.foldlRecOn (motive := fun s : Selection => s.relations.Distinct) steps Selection.step
  · exact RelationTree.distinct_empty
  · intro s hs call _
    rcases s.step_cases call with ⟨-, hstep⟩ | ⟨-, variants, hstep, -⟩
    · rw [hstep]
      exact List.foldlRecOn (motive := RelationTree.Distinct) _ _ hs fun t ht text _ => ht.insert _
    · rw [hstep]
      exact hs

/-- The variants depend on the calls that do not load relations. -/
theorem variants_foldl_others (steps : List Step) {s t : Selection} (h : s.variants = t.variants) :
    (steps.foldl Selection.step s).variants =
      ((Step.others steps).foldl Selection.step t).variants := by
  induction steps generalizing s t with
  | nil => exact h
  | cons call rest ih =>
    by_cases hwith : call.name = "with"
    · have hothers : Step.others (call :: rest) = Step.others rest := by simp [Step.others, hwith]
      rw [hothers]
      apply ih
      rcases s.step_cases call with ⟨-, hstep⟩ | ⟨hne, -⟩
      · rw [hstep]
        exact h
      · exact absurd hwith hne
    · have hothers : Step.others (call :: rest) = call :: Step.others rest := by
        simp [Step.others, hwith]
      rw [hothers]
      apply ih
      rcases step_uniform call with ⟨variants, hstep⟩ | ⟨args, hstep⟩ | ⟨args, hstep⟩ | hstep
      · rw [hstep, hstep]
      · rw [hstep, hstep, h]
      · rw [hstep, hstep]
        exact h
      · rw [hstep, hstep]
        exact h

end Selection

/-- Chains of calls with the same calls but for those that load relations, with the same last call,
and with the same paths of relations. -/
structure SameLoads (steps steps' : List Step) : Prop where
  others : Step.others steps = Step.others steps'
  last : steps.getLast? = steps'.getLast?
  paths : ∀ path, path ≠ [] →
    ((∃ call ∈ steps, call.LoadsPath path) ↔ ∃ call ∈ steps', call.LoadsPath path)

namespace SameLoads

variable {steps steps' : List Step}

/-- Each path that one chain names is the beginning of one that the other names. -/
theorem of_namedPaths (hothers : Step.others steps = Step.others steps')
    (hlast : steps.getLast? = steps'.getLast?)
    (hleft : ∀ named ∈ Step.namedPaths steps, ∃ longer ∈ Step.namedPaths steps', named <+: longer)
    (hright : ∀ named ∈ Step.namedPaths steps', ∃ longer ∈ Step.namedPaths steps,
      named <+: longer) :
    SameLoads steps steps' := by
  refine ⟨hothers, hlast, ?_⟩
  intro path _
  exact ⟨Step.loadsPath_of_longer hleft, Step.loadsPath_of_longer hright⟩

theorem samePaths (h : SameLoads steps steps') :
    (Selection.ofSteps steps).relations.SamePaths (Selection.ofSteps steps').relations := by
  intro path
  rw [Selection.hasPath_relations_ofSteps, Selection.hasPath_relations_ofSteps]
  by_cases hpath : path = []
  · simp [hpath]
  · simp [hpath, h.paths path hpath]

theorem variants_eq (h : SameLoads steps steps') :
    (Selection.ofSteps steps).variants = (Selection.ofSteps steps').variants := by
  rw [Selection.ofSteps, Selection.ofSteps, Selection.variants_foldl_others steps rfl,
    Selection.variants_foldl_others steps' rfl, h.others]

/-- What is looked for among calls, and is never a call that loads relations, is looked for among
the others. -/
theorem find?_eq_find?_others {p : Step → Bool}
    (hp : ∀ call : Step, call.name = "with" → p call = false) (steps : List Step) :
    steps.find? p = (Step.others steps).find? p := by
  rw [Step.others, List.find?_filter]
  congr 1
  funext call
  by_cases hwith : call.name = "with"
  · simp [hp call hwith, hwith]
  · simp [hwith]

theorem others_dropLast (h : SameLoads steps steps') :
    Step.others steps.dropLast = Step.others steps'.dropLast := by
  rcases List.eq_nil_or_concat' steps with rfl | ⟨front, last, rfl⟩
  · have hnil := h.last
    rw [List.getLast?_nil, eq_comm, List.getLast?_eq_none_iff] at hnil
    rw [hnil]
  · obtain ⟨front', rfl⟩ : ∃ front', steps' = front' ++ [last] := by
      have hlast := h.last
      rw [List.getLast?_concat, eq_comm, List.getLast?_eq_some_iff] at hlast
      exact hlast
    have hothers := h.others
    simp only [Step.others, List.filter_append] at hothers
    rw [List.dropLast_concat, List.dropLast_concat]
    exact List.append_cancel_right hothers

theorem misuse?_eq (h : SameLoads steps steps') (cx : Context) :
    misuse? cx steps = misuse? cx steps' := by
  have hfinisher (call : Step) (hwith : call.name = "with") : isFinisher call.name = false := by
    rw [hwith]
    decide
  have hdeclared (call : Step) (hwith : call.name = "with") :
      (!Contract.anyHas call.name) = false := by
    rw [hwith]
    decide
  rw [misuse?, misuse?, find?_eq_find?_others hfinisher steps.dropLast,
    find?_eq_find?_others hfinisher steps'.dropLast, find?_eq_find?_others hdeclared steps,
    find?_eq_find?_others hdeclared steps', h.others_dropLast, h.others]

end SameLoads

end QueryTypes
