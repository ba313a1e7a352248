import Mathlib.Data.List.Pairwise
import QueryTypes.Proofs.Forms.Leaves

/-!
# A form is the trie of its leaves

`Ty.follow` walks along a path into a type. A type is the trie of leaves (`IsTrie`) if every path of
a leaf leads to the type of that leaf, and every path on the way to one leads to a plain object or a
plain list that goes on as the leaves do, and not further.

Leaves of which none stands above another make their trie, in whatever order they are declared
(`formType_isTrie`).
-/

set_option autoImplicit false

namespace QueryTypes

open Rules (Segment)

/-- What a path leads to in a type: fields to properties of objects, wildcards to items of lists. -/
def Ty.follow : List Segment → Ty → Option Ty
  | [], t => some t
  | .field name :: rest, t =>
    match t.kind with
    | .object properties _ => (Entries.get? properties name).bind (follow rest)
    | _ => none
  | .wildcard :: rest, t =>
    match t.kind with
    | .array (some item) none none none => follow rest item
    | _ => none

theorem Ty.follow_field_object {properties : Entries Ty} {name : String} {t : Ty}
    (h : properties.get? name = some t) (rest : List Segment) :
    (Ty.object properties none).follow (.field name :: rest) = t.follow rest := by
  simp [Ty.follow, Ty.object, Ty.ofKind, h]

namespace Rules

/-- Neither leaf stands above the other or in its place. -/
def Leaf.Apart (a b : Leaf) : Prop := ¬ a.path <+: b.path ∧ ¬ b.path <+: a.path

instance : Std.Symm Leaf.Apart := ⟨fun _ _ h => ⟨h.2, h.1⟩⟩

/-- No leaf stands above another one or in its place, and no node is reached both by a field and by
a wildcard. -/
structure Separate (leaves : List Leaf) : Prop where
  apart : leaves.Pairwise Leaf.Apart
  unclashed : Unclashed leaves

instance (a b : Leaf) : Decidable (a.Apart b) :=
  inferInstanceAs (Decidable (¬ a.path <+: b.path ∧ ¬ b.path <+: a.path))

instance (leaves : List Leaf) : Decidable (Separate leaves) :=
  decidable_of_iff (leaves.Pairwise Leaf.Apart ∧ Unclashed leaves)
    ⟨fun h => ⟨h.1, h.2⟩, fun h => ⟨h.apart, h.unclashed⟩⟩

/-- The path leads to a node above a leaf. The root is one even in a form without leaves. -/
def Inner (leaves : List Leaf) (path : List Segment) : Prop :=
  path = [] ∨ ∃ leaf ∈ leaves, path <+: leaf.path ∧ path ≠ leaf.path

/-- A node above leaves: an object in no special place and without origin, with a property for each
field that leads on to a leaf, or a list whose items lead on to one. -/
def IsNode (leaves : List Leaf) (path : List Segment) (node : Ty) : Prop :=
  (∃ properties : Entries Ty, node = .object properties none ∧ properties.Distinct ∧
    ∀ name, name ∈ properties.keys ↔ Reaches leaves (path ++ [.field name])) ∨
  ∃ item, node = .list item ∧ Reaches leaves (path ++ [.wildcard])

theorem IsNode.of_under {leaves : List Leaf} {segment : Segment} {path : List Segment} {node : Ty}
    (h : IsNode (under segment leaves) path node) : IsNode leaves (segment :: path) node := by
  rcases h with ⟨properties, hnode, hdistinct, hkeys⟩ | ⟨item, hnode, hreaches⟩
  · exact .inl ⟨properties, hnode, hdistinct, fun name => (hkeys name).trans reaches_under⟩
  · exact .inr ⟨item, hnode, reaches_under.1 hreaches⟩

/-- The type is the trie of the leaves. -/
structure IsTrie (leaves : List Leaf) (t : Ty) : Prop where
  leaf : ∀ leaf ∈ leaves, t.follow leaf.path = some leaf.type
  inner : ∀ path, Inner leaves path → ∃ node, t.follow path = some node ∧ IsNode leaves path node

namespace Separate

variable {leaves : List Leaf}

/-- A leaf is above no other one. -/
theorem eq_of_isPrefix (h : Separate leaves) {a b : Leaf} (ha : a ∈ leaves) (hb : b ∈ leaves)
    (habove : a.path <+: b.path) : a = b := by
  by_contra hne
  exact (h.apart.forall ha hb hne).1 habove

theorem under (h : Separate leaves) (segment : Segment) : Separate (under segment leaves) where
  apart := by
    refine h.apart.filterMap _ fun a b hab a' ha' b' hb' => ?_
    rw [Leaf.behind?_eq_some] at ha' hb'
    subst ha' hb'
    simpa [Leaf.Apart, List.cons_prefix_cons] using hab
  unclashed path name hfield hwild :=
    h.unclashed (segment :: path) name (reaches_under.1 hfield) (reaches_under.1 hwild)

/-- Leaves of which none stands above another can be put into a form in any order. -/
theorem agree (h : Separate leaves) : Agree leaves where
  nodup := by
    refine List.pairwise_map.2 (h.apart.imp fun {a b} hab hpath => hab.1 ?_)
    exact hpath ▸ List.prefix_refl a.path
  unclashed := h.unclashed
  bare a ha b hb habove hne := absurd (congrArg Leaf.path (h.eq_of_isPrefix ha hb habove)) hne
  known a ha b hb hpath := by
    have heq := h.eq_of_isPrefix ha hb ⟨_, hpath.symm⟩
    rw [heq] at hpath
    simp at hpath

/-- Where a leaf stands below a node, there is none at the node. -/
theorem path_ne_nil (h : Separate leaves) {segment : Segment}
    (hreaches : Reaches leaves [segment]) : ∀ leaf ∈ leaves, leaf.path ≠ [] := by
  obtain ⟨a, ha, rest, hpath⟩ := hreaches
  intro b hb hnil
  have heq := h.eq_of_isPrefix hb ha (hnil ▸ List.nil_prefix)
  rw [← heq, hnil] at hpath
  exact List.cons_ne_nil _ _ hpath

end Separate

namespace Grown

variable {leaves : List Leaf} {t : Ty}

/-- Below a field that leads on to a leaf there is a property. -/
theorem exists_property {properties : Entries Ty}
    (hkeys : ∀ name, name ∈ properties.keys ↔ Reaches leaves [.field name]) {name : String}
    {rest : List Segment} (h : Reaches leaves (.field name :: rest)) :
    ∃ child, properties.get? name = some child := by
  obtain ⟨leaf, hleaf, habove⟩ := h
  have hname : name ∈ properties.keys :=
    (hkeys name).2 ⟨leaf, hleaf, List.IsPrefix.trans ⟨rest, rfl⟩ habove⟩
  exact Option.isSome_iff_exists.1 ((Entries.isSome_get?_iff properties name).2 hname)

/-- Every path of a leaf leads to the type of that leaf. -/
theorem follow_leaf (h : Grown leaves t) (hsep : Separate leaves) :
    ∀ leaf ∈ leaves, t.follow leaf.path = some leaf.type := by
  induction h with
  | unknown => exact fun leaf hleaf => absurd hleaf List.not_mem_nil
  | empty => exact fun leaf hleaf => absurd hleaf List.not_mem_nil
  | leaf t =>
    intro leaf hleaf
    rw [List.mem_singleton.1 hleaf]
    rfl
  | @object leaves properties hpath hprops hdistinct hkeys hgrown ih =>
    rintro ⟨path, type⟩ hleaf
    obtain ⟨name, hfield⟩ := exists_field hprops hkeys
    have hne := hsep.path_ne_nil hfield
    rw [own?_eq_none hne]
    rcases hpath _ hleaf with hnil | ⟨name, rest, hrest⟩
    · exact absurd hnil (hne _ hleaf)
    · have hrest : .field name :: rest = path := hrest
      subst hrest
      obtain ⟨child, hchild⟩ := exists_property hkeys ⟨_, hleaf, List.prefix_refl _⟩
      exact (Ty.follow_field_object hchild rest).trans
        (ih name child hchild (hsep.under _) ⟨rest, type⟩ (mem_under.2 hleaf))
  | @list leaves item hpath hwild hgrown ih =>
    rintro ⟨path, type⟩ hleaf
    have hne := hsep.path_ne_nil hwild
    rw [own?_eq_none hne]
    rcases hpath _ hleaf with hnil | ⟨rest, hrest⟩
    · exact absurd hnil (hne _ hleaf)
    · have hrest : .wildcard :: rest = path := hrest
      subst hrest
      exact ih (hsep.under _) ⟨rest, type⟩ (mem_under.2 hleaf)

/-- Every path on the way to a leaf leads to a node that goes on as the leaves do. -/
theorem follow_inner (h : Grown leaves t) (hsep : Separate leaves) :
    ∀ path, (∃ leaf ∈ leaves, path <+: leaf.path ∧ path ≠ leaf.path) →
      ∃ node, t.follow path = some node ∧ IsNode leaves path node := by
  induction h with
  | unknown =>
    rintro path ⟨leaf, hleaf, -⟩
    exact absurd hleaf List.not_mem_nil
  | empty =>
    rintro path ⟨leaf, hleaf, -⟩
    exact absurd hleaf List.not_mem_nil
  | leaf t =>
    rintro path ⟨leaf, hleaf, habove, hne⟩
    rw [List.mem_singleton.1 hleaf] at habove hne
    exact absurd (List.prefix_nil.1 habove) hne
  | @object leaves properties hpath hprops hdistinct hkeys hgrown ih =>
    obtain ⟨name, hfield⟩ := exists_field hprops hkeys
    rw [own?_eq_none (hsep.path_ne_nil hfield)]
    rintro path ⟨⟨leafPath, type⟩, hleaf, habove, hne⟩
    cases path with
    | nil => exact ⟨_, rfl, .inl ⟨properties, rfl, hdistinct, hkeys⟩⟩
    | cons segment rest =>
      obtain ⟨tail, htail⟩ := habove
      have htail : leafPath = segment :: (rest ++ tail) := htail.symm
      subst htail
      rcases hpath _ hleaf with hnil | ⟨name, _, hhead⟩
      · exact absurd hnil (List.cons_ne_nil _ _)
      · obtain ⟨rfl, -⟩ := List.cons.inj hhead
        obtain ⟨child, hchild⟩ := exists_property hkeys ⟨_, hleaf, List.prefix_refl _⟩
        obtain ⟨node, hnode, hshape⟩ := ih name child hchild (hsep.under _) rest
          ⟨⟨rest ++ tail, type⟩, mem_under.2 hleaf, List.prefix_append _ _,
            fun heq => hne (congrArg _ heq)⟩
        exact ⟨node, (Ty.follow_field_object hchild rest).trans hnode, hshape.of_under⟩
  | @list leaves item hpath hwild hgrown ih =>
    rw [own?_eq_none (hsep.path_ne_nil hwild)]
    rintro path ⟨⟨leafPath, type⟩, hleaf, habove, hne⟩
    cases path with
    | nil => exact ⟨_, rfl, .inr ⟨item, rfl, hwild⟩⟩
    | cons segment rest =>
      obtain ⟨tail, htail⟩ := habove
      have htail : leafPath = segment :: (rest ++ tail) := htail.symm
      subst htail
      rcases hpath _ hleaf with hnil | ⟨_, hhead⟩
      · exact absurd hnil (List.cons_ne_nil _ _)
      · obtain ⟨rfl, -⟩ := List.cons.inj hhead
        obtain ⟨node, hnode, hshape⟩ := ih (hsep.under _) rest
          ⟨⟨rest ++ tail, type⟩, mem_under.2 hleaf, List.prefix_append _ _,
            fun heq => hne (congrArg _ heq)⟩
        exact ⟨node, hnode, hshape.of_under⟩

end Grown

/-- Leaves of which none stands above another make their trie. -/
theorem isTrie_plant {leaves : List Leaf} (hsep : Separate leaves)
    (hpaths : ∀ leaf ∈ leaves, leaf.path ≠ []) : IsTrie leaves (plant leaves) where
  leaf := (grown_plant hsep.agree).follow_leaf hsep
  inner := by
    have hinner := (grown_plant hsep.agree).follow_inner hsep
    rintro path (rfl | hpath)
    · cases leaves with
      | nil => exact ⟨_, rfl, .inl ⟨[], rfl, List.nodup_nil, by simp [Entries.keys, Reaches]⟩⟩
      | cons leaf rest =>
        exact hinner [] ⟨leaf, List.mem_cons_self, List.nil_prefix,
          (hpaths leaf List.mem_cons_self).symm⟩
    · exact hinner path hpath

/-- The leaves of a rule map are not at the root. -/
theorem path_ne_nil_of_formLeaves {cx : Context} {rules : Entries RuleSet} {leaves : List Leaf}
    (h : formLeaves cx rules = .ok leaves) : ∀ leaf ∈ leaves, leaf.path ≠ [] := by
  intro leaf hleaf
  obtain ⟨entry, -, part, hentry, hpart⟩ := exists_entry_of_mem h hleaf
  obtain ⟨path, type, confirmed, hpath, -, rfl⟩ := entryLeaves_eq_ok hentry
  exact path_ne_nil_of_mem_leavesAt (ne_nil_of_parsePath hpath) hpart

/-- A rule map that has a type has the trie of its leaves, if none of these stands above another and
no node is reached both by a field and by a wildcard. Its entries in another order have the same
type but for the order of properties. -/
theorem formType_isTrie (cx : Context) (rules : Entries RuleSet) (p q : Progress) (t : Ty)
    (h : runFrom (formType cx rules) p = (.ok t, q)) :
    ∃ leaves, formLeaves cx rules = .ok leaves ∧
      (Separate leaves → IsTrie leaves t ∧
        ∀ rules', rules.Perm rules' → ∀ p', ∃ t' q',
          runFrom (formType cx rules') p' = (.ok t', q') ∧ t.Reordered t') := by
  obtain ⟨leaves, hleaves, rfl⟩ := exists_leaves_of_formType h
  refine ⟨leaves, hleaves, fun hsep => ⟨?_, ?_⟩⟩
  · exact isTrie_plant hsep (path_ne_nil_of_formLeaves hleaves)
  · intro rules' hperm p'
    obtain ⟨leaves', hleaves', hperm'⟩ := formLeaves_perm hperm hleaves
    obtain ⟨q', hrun⟩ := formType_of_leaves hleaves' p'
    exact ⟨plant leaves', q', hrun, reordered_plant hsep.agree hperm'⟩

/-- A form with a list of objects, one field of which may be null, and a field to be confirmed. -/
def orderForm : Entries RuleSet :=
  [("items.*.sku", { tokens := [.text "required|string"] }),
    ("login.password", { tokens := [.text "required|string|confirmed"] }),
    ("items.*.quantity", { tokens := [.text "nullable|integer"] })]

theorem formType_isTrie_orderForm : ∃ leaves t q,
    runFrom (formType ⟨{}, {}⟩ orderForm) {} = (.ok t, q) ∧
      formLeaves ⟨{}, {}⟩ orderForm = .ok leaves ∧ leaves.length = 4 ∧ Separate leaves ∧
      IsTrie leaves t := by
  obtain ⟨leaves, hleaves⟩ : ∃ leaves, formLeaves ⟨{}, {}⟩ orderForm = .ok leaves := ⟨_, rfl⟩
  have hlength : leaves.length = 4 := by
    cases hleaves
    decide +kernel
  have hsep : Separate leaves := by
    cases hleaves
    decide +kernel
  obtain ⟨q, hrun⟩ := formType_of_leaves hleaves {}
  obtain ⟨leaves', hleaves', htrie⟩ := formType_isTrie _ _ _ _ _ hrun
  cases hleaves.symm.trans hleaves'
  exact ⟨leaves, plant leaves, q, hrun, hleaves, hlength, hsep, (htrie hsep).1⟩

end Rules

end QueryTypes
