import Mathlib.Data.List.Perm.Basic
import QueryTypes.Proofs.Forms.Growth
import QueryTypes.Proofs.Forms.Path
import QueryTypes.Proofs.Lockstep.Basic
import QueryTypes.Rules.Map

/-!
# The leaves of a rule map

Every entry of a rule map gives the leaf of its path and, for a field that has to be confirmed, an
equal leaf for the field that confirms it (`formLeaves`). What rules say about a field does not
depend on the rows and notes that have been gathered before (`Stateless`), so the leaves of an entry
are the same wherever it stands, and the form is what the leaves of all entries make
(`runFrom_formType`).
-/

set_option autoImplicit false

namespace QueryTypes.Rules

variable {α β : Type}

/-! ## Inferences that do not read the state -/

/-- The result does not depend on the state in which the inference starts. -/
def Stateless (x : Infer α) : Prop := ∀ p q, (runFrom x p).1 = (runFrom x q).1

theorem stateless_pure (a : α) : Stateless (pure a : Infer α) := fun _ _ => rfl

theorem stateless_throw (e : InferError) : Stateless (throw e : Infer α) := fun _ _ => rfl

theorem stateless_note (entity : Option String) (cause : Cause) :
    Stateless (liftM (note entity cause) : Infer Unit) := fun _ _ => rfl

theorem Stateless.bind {x : Infer α} {f : α → Infer β} (hx : Stateless x)
    (hf : ∀ a, Stateless (f a)) : Stateless (x >>= f) := by
  intro p q
  have hresult := hx p q
  rw [runFrom_bind, runFrom_bind]
  rcases hp : runFrom x p with ⟨r, p'⟩
  rcases hq : runFrom x q with ⟨r', q'⟩
  rw [hp, hq] at hresult
  have hresult : r = r' := hresult
  subst hresult
  cases r with
  | ok a => exact hf a p' q'
  | error e => rfl

theorem stateless_foldlM {f : β → α → Infer β} (hf : ∀ b a, Stateless (f b a)) (l : List α)
    (b : β) : Stateless (l.foldlM f b) := by
  induction l generalizing b with
  | nil => exact stateless_pure b
  | cons a rest ih =>
    rw [List.foldlM_cons]
    exact (hf b a).bind ih

theorem stateless_token (cx : Context) (key : String) (f : Facts) (token : RuleToken) :
    Stateless (f.token cx key token) := by
  cases token with
  | text s => exact stateless_pure _
  | object o =>
    show Stateless (f.object cx key o)
    unfold Facts.object
    split
    · split
      · exact stateless_pure _
      · exact (stateless_note none _).bind fun _ => stateless_pure f
    · split
      · exact stateless_pure _
      · split
        · exact stateless_throw _
        · exact (stateless_note (some _) _).bind fun _ => stateless_pure f
    · exact stateless_pure _

theorem stateless_leafType (cx : Context) (key : String) (rules : RuleSet) :
    Stateless (leafType cx key rules) :=
  (stateless_foldlM (stateless_token cx key) rules.tokens {}).bind fun _ => stateless_pure _

/-! ## The leaves of an entry -/

/-- The type of a field and whether it has to be confirmed. -/
def leafOf (cx : Context) (key : String) (rules : RuleSet) : Except InferError (Ty × Bool) :=
  (runFrom (leafType cx key rules) {}).1

/-- The path to the field that confirms a field: its neighbour with a longer name. -/
def siblingOf? (path : List Segment) : Option (List Segment) :=
  match path.getLast? with
  | some (.field name) => some (path.dropLast ++ [.field (name ++ "_confirmation")])
  | _ => none

/-- The leaves of a field at a path: its own, after that of the field that confirms it. -/
def leavesAt (path : List Segment) (leaf : Ty) (confirmed : Bool) : List Leaf :=
  (if confirmed then (siblingOf? path).toList else []).map (⟨·, leaf⟩) ++ [⟨path, leaf⟩]

/-- The leaves of an entry of a rule map. -/
def entryLeaves (cx : Context) (entry : String × RuleSet) : Except InferError (List Leaf) := do
  let path ← parsePath entry.1
  let (leaf, confirmed) ← leafOf cx entry.1 entry.2
  return leavesAt path leaf confirmed

/-- The leaves of a rule map. -/
def formLeaves (cx : Context) (rules : Entries RuleSet) : Except InferError (List Leaf) :=
  List.flatten <$> rules.mapM (entryLeaves cx)

theorem confirmationPath?_eq_siblingOf? (path : List Segment) :
    confirmationPath? path = siblingOf? path := by
  induction path with
  | nil => rfl
  | cons segment rest ih =>
    cases rest with
    | nil =>
      cases segment with
      | field name => rfl
      | wildcard => rfl
    | cons next rest =>
      have hstep : confirmationPath? (segment :: next :: rest) =
          (confirmationPath? (next :: rest)).map (segment :: ·) := by
        cases segment with
        | field name => rfl
        | wildcard => rfl
      rw [hstep, ih, siblingOf?, siblingOf?, List.getLast?_cons_cons]
      rcases (next :: rest).getLast? with _ | (name | _)
      · rfl
      · rfl
      · rfl

/-- A field and the field that confirms it are put into the form one after the other. -/
theorem insertLeaf_eq (root : Ty) (path : List Segment) (leaf : Ty) (confirmed : Bool) :
    insertLeaf root path leaf confirmed = (leavesAt path leaf confirmed).foldl place root := by
  unfold insertLeaf leavesAt
  rw [confirmationPath?_eq_siblingOf?]
  cases confirmed with
  | false => rfl
  | true => cases siblingOf? path <;> rfl

theorem runFrom_addEntry (cx : Context) (root : Ty) (entry : String × RuleSet) (p : Progress) :
    (runFrom (addEntry cx root entry) p).1 =
      (fun leaves => leaves.foldl place root) <$> entryLeaves cx entry := by
  unfold addEntry entryLeaves
  cases hpath : parsePath entry.1 with
  | error e => rfl
  | ok path =>
    have hleaf : leafOf cx entry.1 entry.2 = (runFrom (leafType cx entry.1 entry.2) p).1 :=
      stateless_leafType cx entry.1 entry.2 {} p
    have hrun : runFrom (do
          let path ← liftM (Except.ok path : Except InferError (List Segment))
          let (leaf, confirmed) ← leafType cx entry.1 entry.2
          return insertLeaf root path leaf confirmed) p =
        runFrom (do
          let (leaf, confirmed) ← leafType cx entry.1 entry.2
          return insertLeaf root path leaf confirmed) p := rfl
    rw [hrun, runFrom_bind, hleaf]
    rcases runFrom (leafType cx entry.1 entry.2) p with ⟨r, q⟩
    cases r with
    | error e => rfl
    | ok result =>
      obtain ⟨leaf, confirmed⟩ := result
      exact congrArg Except.ok (insertLeaf_eq root path leaf confirmed)

/-- A form is made of the leaves of its rules. -/
theorem runFrom_formType (cx : Context) (rules : Entries RuleSet) (p : Progress) :
    (runFrom (formType cx rules) p).1 = plant <$> formLeaves cx rules := by
  -- entries are added to a tree that has grown from those before them, in a state that these have
  -- left
  have key : ∀ (root : Ty) (p : Progress), (runFrom (rules.foldlM (addEntry cx) root) p).1 =
      (fun leaves => leaves.foldl place root) <$> formLeaves cx rules := by
    unfold formLeaves
    induction rules with
    | nil => exact fun root p => rfl
    | cons entry rest ih =>
      intro root p
      have hentry := runFrom_addEntry cx root entry p
      rw [List.foldlM_cons, runFrom_bind, List.mapM_cons]
      rcases hrun : runFrom (addEntry cx root entry) p with ⟨r, q⟩
      rw [hrun] at hentry
      cases hleaves : entryLeaves cx entry with
      | error e =>
        rw [hleaves] at hentry
        have hr : r = .error e := hentry
        subst hr
        rfl
      | ok leaves =>
        rw [hleaves] at hentry
        have hr : r = .ok (leaves.foldl place root) := hentry
        subst hr
        have hrest := ih (leaves.foldl place root) q
        refine hrest.trans ?_
        cases rest.mapM (entryLeaves cx) with
        | error e => rfl
        | ok more => exact congrArg Except.ok List.foldl_append.symm
  exact key (.object [] none) p

/-- A form that has a type has leaves, which make it. -/
theorem exists_leaves_of_formType {cx : Context} {rules : Entries RuleSet} {p q : Progress} {t : Ty}
    (h : runFrom (formType cx rules) p = (.ok t, q)) :
    ∃ leaves, formLeaves cx rules = .ok leaves ∧ plant leaves = t := by
  have hrun := runFrom_formType cx rules p
  rw [h] at hrun
  cases hleaves : formLeaves cx rules with
  | error e =>
    rw [hleaves] at hrun
    cases hrun
  | ok leaves =>
    rw [hleaves] at hrun
    exact ⟨leaves, rfl, (Except.ok.inj hrun).symm⟩

/-- A form that has leaves has a type, which they make. -/
theorem formType_of_leaves {cx : Context} {rules : Entries RuleSet} {leaves : List Leaf}
    (h : formLeaves cx rules = .ok leaves) (p : Progress) :
    ∃ q, runFrom (formType cx rules) p = (.ok (plant leaves), q) := by
  have hrun := runFrom_formType cx rules p
  rw [h] at hrun
  exact ⟨_, Prod.ext hrun rfl⟩

/-! ## The order of the entries -/

/-- The leaves of a rule map are gathered entry by entry. -/
theorem formLeaves_eq_ok {cx : Context} {rules : Entries RuleSet} {leaves : List Leaf} :
    formLeaves cx rules = .ok leaves ↔
      ∃ parts, List.Forall₂ (fun entry part => entryLeaves cx entry = .ok part) rules parts ∧
        parts.flatten = leaves := by
  unfold formLeaves
  constructor
  · intro h
    cases hparts : rules.mapM (entryLeaves cx) with
    | error e =>
      rw [hparts] at h
      cases h
    | ok parts =>
      rw [hparts] at h
      exact ⟨parts, mapM_eq_ok.1 hparts, Except.ok.inj h⟩
  · rintro ⟨parts, hparts, rfl⟩
    rw [mapM_eq_ok.2 hparts]
    rfl

/-- Entries in another order give the same leaves in another order. -/
theorem formLeaves_perm {cx : Context} {rules rules' : Entries RuleSet} {leaves : List Leaf}
    (hperm : rules.Perm rules') (h : formLeaves cx rules = .ok leaves) :
    ∃ leaves', formLeaves cx rules' = .ok leaves' ∧ leaves.Perm leaves' := by
  obtain ⟨parts, hparts, rfl⟩ := formLeaves_eq_ok.1 h
  obtain ⟨parts', hparts', hperm'⟩ := List.perm_comp_forall₂ hperm.symm hparts
  exact ⟨parts'.flatten, formLeaves_eq_ok.2 ⟨parts', hparts', rfl⟩, hperm'.symm.flatten⟩

/-- Every leaf of a rule map belongs to an entry. -/
theorem exists_entry_of_mem {cx : Context} {rules : Entries RuleSet} {leaves : List Leaf}
    {leaf : Leaf} (h : formLeaves cx rules = .ok leaves) (hleaf : leaf ∈ leaves) :
    ∃ entry ∈ rules, ∃ part, entryLeaves cx entry = .ok part ∧ leaf ∈ part := by
  obtain ⟨parts, hparts, rfl⟩ := formLeaves_eq_ok.1 h
  obtain ⟨part, hpart, hleaf⟩ := List.mem_flatten.1 hleaf
  obtain ⟨entry, hentry, hpart⟩ := exists_of_forall₂ hparts hpart
  exact ⟨entry, hentry, part, hpart, hleaf⟩

/-- A rule map without leaves has an entry without leaves, and fails as that does. -/
theorem exists_entry_of_error {cx : Context} {rules : Entries RuleSet} {e : InferError}
    (h : formLeaves cx rules = .error e) : ∃ entry ∈ rules, entryLeaves cx entry = .error e := by
  have hmapM : rules.mapM (entryLeaves cx) = .error e := by
    rw [formLeaves] at h
    cases hparts : rules.mapM (entryLeaves cx) with
    | error e' =>
      rw [hparts] at h
      cases h
      rfl
    | ok parts =>
      rw [hparts] at h
      cases h
  exact exists_of_mapM_error hmapM

/-- A field that is not the root is confirmed by one that is not the root. -/
theorem path_ne_nil_of_mem_leavesAt {path : List Segment} {type : Ty} {confirmed : Bool}
    {leaf : Leaf} (hpath : path ≠ []) (h : leaf ∈ leavesAt path type confirmed) :
    leaf.path ≠ [] := by
  rcases List.mem_append.1 h with hsibling | hown
  · obtain ⟨sibling, hmem, rfl⟩ := List.mem_map.1 hsibling
    have hsome : siblingOf? path = some sibling := by
      cases confirmed with
      | false => exact absurd hmem List.not_mem_nil
      | true => exact Option.mem_toList.1 hmem
    rw [siblingOf?] at hsome
    split at hsome
    · cases hsome
      simp
    · cases hsome
  · rw [List.mem_singleton.1 hown]
    exact hpath

/-- The leaf of an entry stands at the path of its key. -/
theorem entryLeaves_eq_ok {cx : Context} {entry : String × RuleSet} {leaves : List Leaf}
    (h : entryLeaves cx entry = .ok leaves) :
    ∃ path leaf confirmed, parsePath entry.1 = .ok path ∧
      leafOf cx entry.1 entry.2 = .ok (leaf, confirmed) ∧
        leaves = leavesAt path leaf confirmed := by
  rw [entryLeaves] at h
  cases hpath : parsePath entry.1 with
  | error e =>
    rw [hpath] at h
    cases h
  | ok path =>
    rw [hpath] at h
    cases hleaf : leafOf cx entry.1 entry.2 with
    | error e =>
      rw [hleaf] at h
      cases h
    | ok result =>
      obtain ⟨leaf, confirmed⟩ := result
      rw [hleaf] at h
      exact ⟨path, leaf, confirmed, rfl, rfl, (Except.ok.inj h).symm⟩

end QueryTypes.Rules
