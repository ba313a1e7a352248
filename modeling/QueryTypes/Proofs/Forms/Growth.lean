import Mathlib.Data.List.Nodup
import QueryTypes.Proofs.Reading
import QueryTypes.Proofs.Reordering
import QueryTypes.Rules.Tree

/-!
# What a tree of fields has grown from

A form is planted leaf by leaf (`plant`). `Grown` says, without reference to an order of insertion,
which tree a collection of leaves makes: a node with leaves below it is a container of what has
grown from those, in the place of the leaf that arrived at the node itself, if one did; a node with
nothing below it is its leaf.

One insertion extends the collection by one leaf (`Grown.insert`), so a form has grown from its
leaves (`grown_plant`), and leaves in another order make the same tree up to the order of properties
(`Grown.reordered`). This is so for leaves that agree (`Agree`): no path occurs twice, no node is
both an object and a list, and where a leaf stands above another, neither order loses a part of it.
-/

set_option autoImplicit false

namespace QueryTypes.Rules

/-! ## Leaves -/

/-- A leaf of a form: the type of a field, and the path to it. -/
structure Leaf where
  path : List Segment
  type : Ty

/-- Put a leaf into a tree. -/
def place (root : Ty) (leaf : Leaf) : Ty := insert leaf.type leaf.path root

/-- The form with the given leaves, put into it one after the other. -/
def plant (leaves : List Leaf) : Ty := leaves.foldl place (.object [] none)

/-- The leaf behind a segment, if its path starts with that. -/
def Leaf.behind? (segment : Segment) (leaf : Leaf) : Option Leaf :=
  match leaf.path with
  | [] => none
  | first :: rest => if first = segment then some ⟨rest, leaf.type⟩ else none

/-- The leaves below a segment, with the rest of their paths. -/
def under (segment : Segment) (leaves : List Leaf) : List Leaf :=
  leaves.filterMap (Leaf.behind? segment)

/-- A leaf stands at the end of the path or below it. -/
def Reaches (leaves : List Leaf) (path : List Segment) : Prop := ∃ leaf ∈ leaves, path <+: leaf.path

/-- The leaf that arrived at the node itself. -/
def own? (leaves : List Leaf) : Option Ty :=
  (leaves.find? fun leaf => leaf.path.isEmpty).map Leaf.type

theorem Leaf.behind?_eq_some {segment : Segment} {a b : Leaf} :
    a.behind? segment = some b ↔ a = ⟨segment :: b.path, b.type⟩ := by
  obtain ⟨path, type⟩ := a
  obtain ⟨path', type'⟩ := b
  cases path with
  | nil => simp [behind?]
  | cons first rest =>
    by_cases h : first = segment
    · simp [behind?, h]
    · simp [behind?, h]

theorem mem_under {segment : Segment} {leaves : List Leaf} {leaf : Leaf} :
    leaf ∈ under segment leaves ↔ ⟨segment :: leaf.path, leaf.type⟩ ∈ leaves := by
  constructor
  · intro h
    obtain ⟨a, ha, hbehind⟩ := List.mem_filterMap.1 h
    rw [Leaf.behind?_eq_some] at hbehind
    exact hbehind ▸ ha
  · intro h
    exact List.mem_filterMap.2 ⟨_, h, Leaf.behind?_eq_some.2 rfl⟩

theorem under_append (segment : Segment) (leaves more : List Leaf) :
    under segment (leaves ++ more) = under segment leaves ++ under segment more :=
  List.filterMap_append

theorem under_nil_path (segment : Segment) (t : Ty) : under segment [⟨[], t⟩] = [] := rfl

theorem under_cons_path (segment : Segment) (rest : List Segment) (t : Ty) :
    under segment [⟨segment :: rest, t⟩] = [⟨rest, t⟩] := by
  simp [under, Leaf.behind?]

theorem under_of_ne {segment first : Segment} (h : first ≠ segment) (rest : List Segment) (t : Ty) :
    under segment [⟨first :: rest, t⟩] = [] := by
  simp [under, Leaf.behind?, h]

/-- The paths below a segment, taken from it again, are among the paths of the leaves. -/
theorem map_path_under (segment : Segment) (leaves : List Leaf) :
    ((under segment leaves).map Leaf.path).map (segment :: ·) =
      (leaves.filter fun leaf => (leaf.behind? segment).isSome).map Leaf.path := by
  induction leaves with
  | nil => rfl
  | cons leaf rest ih =>
    simp only [under] at ih ⊢
    cases hleaf : leaf.behind? segment with
    | none => simpa [List.filterMap_cons, hleaf] using ih
    | some b =>
      rw [List.filterMap_cons_some hleaf, List.map_cons, List.map_cons, ih,
        List.filter_cons_of_pos (by rw [hleaf, Option.isSome_some]), List.map_cons,
        Leaf.behind?_eq_some.1 hleaf]

/-- Leaves below a segment are reached through it. -/
theorem reaches_under {segment : Segment} {leaves : List Leaf} {path : List Segment} :
    Reaches (under segment leaves) path ↔ Reaches leaves (segment :: path) := by
  constructor
  · rintro ⟨leaf, hleaf, habove⟩
    exact ⟨_, mem_under.1 hleaf, List.cons_prefix_cons.2 ⟨rfl, habove⟩⟩
  · rintro ⟨⟨path', t⟩, hmem, rest, hpath⟩
    have hpath : path' = segment :: (path ++ rest) := hpath.symm
    subst hpath
    exact ⟨⟨path ++ rest, t⟩, mem_under.2 hmem, List.prefix_append path rest⟩

theorem under_ne_nil {segment : Segment} {leaves : List Leaf} :
    under segment leaves ≠ [] ↔ Reaches leaves [segment] := by
  rw [← reaches_under]
  constructor
  · intro h
    obtain ⟨leaf, hleaf⟩ := List.exists_mem_of_ne_nil _ h
    exact ⟨leaf, hleaf, List.nil_prefix⟩
  · rintro ⟨leaf, hleaf, -⟩
    exact List.ne_nil_of_mem hleaf

theorem Reaches.mono {leaves leaves' : List Leaf} {path : List Segment} (h : Reaches leaves path)
    (hsub : leaves ⊆ leaves') : Reaches leaves' path := by
  obtain ⟨leaf, hleaf, habove⟩ := h
  exact ⟨leaf, hsub hleaf, habove⟩

theorem own?_append_cons_path (leaves : List Leaf) (segment : Segment) (rest : List Segment)
    (t : Ty) : own? (leaves ++ [⟨segment :: rest, t⟩]) = own? leaves := by
  simp [own?, List.find?_append]

theorem own?_eq_none {leaves : List Leaf} (h : ∀ leaf ∈ leaves, leaf.path ≠ []) :
    own? leaves = none := by
  rw [own?, Option.map_eq_none_iff, List.find?_eq_none]
  intro leaf hleaf hempty
  exact h leaf hleaf (List.isEmpty_iff.1 hempty)

theorem own?_append_nil_path {leaves : List Leaf} (h : ∀ leaf ∈ leaves, leaf.path ≠ []) (t : Ty)
    (more : List Leaf) : own? (leaves ++ ⟨[], t⟩ :: more) = some t := by
  have hnone := own?_eq_none h
  rw [own?, Option.map_eq_none_iff] at hnone
  simp [own?, List.find?_append, hnone]

/-- The leaf at the node is found wherever it stands, if no other one has its path. -/
theorem own?_of_mem {leaves : List Leaf} (hnodup : (leaves.map Leaf.path).Nodup) {t : Ty}
    (h : ⟨[], t⟩ ∈ leaves) : own? leaves = some t := by
  obtain ⟨front, back, rfl⟩ := List.append_of_mem h
  rw [List.map_append, List.nodup_append] at hnodup
  apply own?_append_nil_path
  intro leaf hleaf hempty
  exact hnodup.2.2 [] (hempty ▸ List.mem_map_of_mem hleaf) [] List.mem_cons_self rfl

/-- The leaf at the node does not depend on the order of the leaves, if there is at most one. -/
theorem own?_perm {leaves leaves' : List Leaf} (hnodup : (leaves.map Leaf.path).Nodup)
    (h : leaves.Perm leaves') : own? leaves = own? leaves' := by
  by_cases hown : ∃ leaf ∈ leaves, leaf.path = []
  · obtain ⟨⟨path, t⟩, hmem, hpath⟩ := hown
    have hpath : path = [] := hpath
    subst hpath
    have hnodup' : (leaves'.map Leaf.path).Nodup := (h.map _).nodup_iff.1 hnodup
    rw [own?_of_mem hnodup hmem, own?_of_mem hnodup' (h.mem_iff.1 hmem)]
  · have hnone : ∀ leaf ∈ leaves, leaf.path ≠ [] :=
      fun leaf hleaf hpath => hown ⟨leaf, hleaf, hpath⟩
    rw [own?_eq_none hnone, own?_eq_none fun leaf hleaf => hnone leaf (h.mem_iff.2 hleaf)]

/-! ## Containers -/

/-- A container in the place of a leaf, if one arrived there; with null beside it if the leaf allows
null. -/
def container (own : Option Ty) (kind : Kind) : Ty :=
  match own with
  | none => .mk kind {}
  | some leaf =>
    if allowsNull leaf then .mk (.union [.mk kind {}, .null]) leaf.slot else .mk kind leaf.slot

/-- The kind of a list of items. -/
def listKind (item : Ty) : Kind := .array (some item) none none none

theorem isContainer_cases {kind : Kind} {slot : Slot} (h : isContainer (.mk kind slot) = true) :
    (∃ item key shape origin, kind = .array item key shape origin) ∨
      ∃ props origin, kind = .object props origin := by
  cases kind with
  | array item key shape origin => exact .inl ⟨_, _, _, _, rfl⟩
  | object props origin => exact .inr ⟨_, _, rfl⟩
  | unknown => simp [isContainer] at h
  | scalar s => simp [isContainer] at h
  | union members => simp [isContainer] at h

/-- The kinds of a type from which nothing is taken over when a segment is inserted into it. -/
inductive Blank : Kind → Prop
  | unknown : Blank .unknown
  | scalar (s : Scalar) : Blank (.scalar s)
  | list : Blank (listKind .unknown)
  | object : Blank (.object [] none)

/-- The leaves that can stand above others: a blank type without null, or an empty container beside
null. -/
inductive Bare : Ty → Prop
  | plain {kind : Kind} (slot : Slot) : Blank kind → allowsNull (.mk kind slot) = false →
      Bare (.mk kind slot)
  | nullable {kind : Kind} (slot : Slot) : Blank kind → isContainer (.mk kind {}) = true →
      Bare (.mk (.union [.mk kind {}, .null]) slot)

/-- The kind of a node after a segment has been inserted into it. -/
def descendKind (segment : Segment) (change : Ty → Ty) (kind : Kind) : Kind :=
  (descend segment change (.mk kind {})).kind

theorem descend_mk (segment : Segment) (change : Ty → Ty) (kind : Kind) (slot : Slot) :
    descend segment change (.mk kind slot) = .mk (descendKind segment change kind) slot := by
  cases segment with
  | wildcard => rfl
  | field name => rfl

theorem descendKind_field_object (name : String) (change : Ty → Ty) (props : Entries Ty) :
    descendKind (.field name) change (.object props none) =
      .object (props.put name (change ((props.get? name).getD .unknown))) none := rfl

/-- Inserting into a blank node is inserting into an unknown one. -/
theorem Blank.descendKind_eq {kind : Kind} (h : Blank kind) (segment : Segment) (change : Ty → Ty) :
    descendKind segment change kind = descendKind segment change .unknown := by
  cases h with
  | unknown => rfl
  | scalar s => cases segment <;> rfl
  | list => cases segment <;> rfl
  | object => cases segment <;> rfl

theorem Blank.onContainer_eq {kind : Kind} (h : Blank kind) (change : Ty → Ty) (slot : Slot) :
    onContainer change (.mk kind slot) = change (.mk kind slot) := by
  cases h <;> rfl

theorem onContainer_nullable {kind : Kind} (h : isContainer (.mk kind {}) = true)
    (segment : Segment) (change : Ty → Ty) (slot : Slot) :
    onContainer (descend segment change) (.mk (.union [.mk kind {}, .null]) slot) =
      .mk (.union [.mk (descendKind segment change kind) {}, .null]) slot := by
  simp only [onContainer, Ty.kind_mk, changeFirst?, h, if_true, descend_mk]
  rfl

theorem allowsNull_nullable (t : Ty) (slot : Slot) :
    allowsNull (.mk (.union [t, .null]) slot) = true :=
  List.any_eq_true.2 ⟨.null, List.mem_cons_of_mem _ List.mem_cons_self, rfl⟩

/-- A bare leaf becomes the container that the nodes below it need. -/
theorem Bare.onContainer_eq {leaf : Ty} (h : Bare leaf) (segment : Segment) (change : Ty → Ty) :
    onContainer (descend segment change) leaf =
      container (some leaf) (descendKind segment change .unknown) := by
  cases h with
  | plain slot hblank hnull =>
    rw [hblank.onContainer_eq, descend_mk, hblank.descendKind_eq, container]
    simp [hnull]
  | @nullable kind slot hblank hcontainer =>
    rw [onContainer_nullable hcontainer, hblank.descendKind_eq, container]
    simp [allowsNull_nullable]

/-- A segment is inserted into the container of a node, wherever the leaf at the node has put it. -/
theorem onContainer_container {kind : Kind} (h : isContainer (.mk kind {}) = true) (own : Option Ty)
    (segment : Segment) (change : Ty → Ty) :
    onContainer (descend segment change) (container own kind) =
      container own (descendKind segment change kind) := by
  have hplain (slot : Slot) :
      onContainer (descend segment change) (.mk kind slot) =
        .mk (descendKind segment change kind) slot := by
    rw [← descend_mk]
    rcases isContainer_cases h with ⟨_, _, _, _, rfl⟩ | ⟨_, _, rfl⟩
    · rfl
    · rfl
  cases own with
  | none => exact hplain {}
  | some leaf =>
    simp only [container]
    split
    · exact onContainer_nullable h segment change leaf.slot
    · exact hplain leaf.slot

/-- A type that is not null is made nullable by putting null beside it. -/
theorem nullable_mk {kind : Kind} (hunion : ∀ ts, kind ≠ .union ts)
    (hnull : (Ty.mk kind {}).isNull = false) :
    (Ty.mk kind {}).nullable = .mk (.union [.mk kind {}, .null]) {} := by
  have hsame : (Ty.mk kind {}).same .null = false := by
    cases kind with
    | scalar s =>
      have hkind : (s.kind == .null) = false := hnull
      simp [Ty.null, Ty.scalar, Ty.ofKind, Ty.same, Kind.same, Scalar.same, Scalar.ofKind, hkind]
    | _ => simp [Ty.null, Ty.scalar, Ty.ofKind, Ty.same, Kind.same]
  have hmembers : (Ty.mk kind {}).members = [.mk kind {}] := by
    cases kind with
    | union ts => exact absurd rfl (hunion ts)
    | _ => rfl
  have hany : [Ty.mk kind {}].any (·.same .null) = false := by simp [hsame]
  have hdistinct : Ty.distinct [.mk kind {}, .null] = [.mk kind {}, .null] :=
    Ty.addDistinct_of_not_any hany
  have hflat : [(Ty.mk kind {}).withRequired false, .null].flatMap Ty.members =
      [.mk kind {}, .null] := by
    show (Ty.mk kind {}).members ++ _ = _
    rw [hmembers]
    rfl
  rw [Ty.nullable, hnull, Ty.union, hflat, hdistinct]
  rfl

theorem allowsNull_container {kind : Kind} {slot : Slot} (h : isContainer (.mk kind slot) = true) :
    allowsNull (.mk kind slot) = false := by
  rcases isContainer_cases h with ⟨_, _, _, _, rfl⟩ | ⟨_, _, rfl⟩
  · rfl
  · rfl

/-- A leaf that arrives at a container with children gives it its place. -/
theorem settleLeaf_container {kind : Kind} (h : isContainer (.mk kind {}) = true)
    (hchildren : hasChildren (.mk kind {}) = true) (leaf : Ty) :
    settleLeaf leaf (.mk kind {}) = container (some leaf) kind := by
  have hslot (t : Ty) (ht : t.slot = {}) : ({
      required := leaf.required
      description := leaf.description.or t.description
      examples := if leaf.examples.isEmpty then t.examples else leaf.examples } : Slot) =
        leaf.slot := by
    obtain ⟨k, required, description, examples⟩ := leaf
    simp only [Ty.description, Ty.examples, Ty.required, ht, Ty.slot_mk, Option.or_none]
    cases examples <;> rfl
  simp only [settleLeaf, hchildren, if_true, allowsNull_container h, Bool.not_false, Bool.and_true,
    container]
  split
  · have hnull : (Ty.mk kind {}).isNull = false ∧ ∀ ts, kind ≠ .union ts := by
      rcases isContainer_cases h with ⟨_, _, _, _, rfl⟩ | ⟨_, _, rfl⟩
      · exact ⟨rfl, fun ts => Kind.noConfusion⟩
      · exact ⟨rfl, fun ts => Kind.noConfusion⟩
    rw [nullable_mk hnull.2 hnull.1, hslot _ rfl]
    rfl
  · rw [hslot _ rfl]
    rfl

theorem not_isUnknown_container {kind : Kind} (h : isContainer (.mk kind {}) = true)
    (own : Option Ty) :
    (container own kind).isUnknown = false := by
  have hplain (slot : Slot) : (Ty.mk kind slot).isUnknown = false := by
    rcases isContainer_cases h with ⟨_, _, _, _, rfl⟩ | ⟨_, _, rfl⟩
    · rfl
    · rfl
  cases own with
  | none => exact hplain {}
  | some leaf =>
    simp only [container]
    split
    · rfl
    · exact hplain leaf.slot

/-- Containers that differ in the order of properties, in the same place. -/
theorem reordered_container {kind kind' : Kind}
    (h : ∀ slot, (Ty.mk kind slot).Reordered (.mk kind' slot)) (own : Option Ty) :
    (container own kind).Reordered (container own kind') := by
  cases own with
  | none => exact h {}
  | some leaf =>
    simp only [container]
    split
    · exact (h {}).pair .null leaf.slot
    · exact h leaf.slot

/-! ## Trees and the leaves they have grown from -/

/-- A tree has grown from leaves. Nothing has grown at a node that is unknown and in a form without
fields. -/
inductive Grown : List Leaf → Ty → Prop
  | unknown : Grown [] .unknown
  | empty : Grown [] (.object [] none)
  | leaf (t : Ty) : Grown [⟨[], t⟩] t
  | object {leaves : List Leaf} {props : Entries Ty} :
      (∀ leaf ∈ leaves, leaf.path = [] ∨ ∃ name, [.field name] <+: leaf.path) →
      props ≠ [] → props.Distinct →
      (∀ name, name ∈ props.keys ↔ Reaches leaves [.field name]) →
      (∀ name t, props.get? name = some t → Grown (under (.field name) leaves) t) →
      Grown leaves (container (own? leaves) (.object props none))
  | list {leaves : List Leaf} {item : Ty} :
      (∀ leaf ∈ leaves, leaf.path = [] ∨ [.wildcard] <+: leaf.path) →
      Reaches leaves [.wildcard] →
      Grown (under .wildcard leaves) item →
      Grown leaves (container (own? leaves) (listKind item))

/-- No node is reached both by a field and by a wildcard. -/
def Unclashed (leaves : List Leaf) : Prop :=
  ∀ path name, Reaches leaves (path ++ [.field name]) → ¬ Reaches leaves (path ++ [.wildcard])

/-- The paths part at a field of the first and a wildcard of the second. -/
def clash : List Segment → List Segment → Bool
  | .field _ :: _, .wildcard :: _ => true
  | a :: rest, b :: rest' => a == b && clash rest rest'
  | _, _ => false

theorem clash_iff {a b : List Segment} : clash a b = true ↔
    ∃ path name, path ++ [.field name] <+: a ∧ path ++ [.wildcard] <+: b := by
  induction a generalizing b with
  | nil => simp [clash]
  | cons x rest ih =>
    cases b with
    | nil => simp [clash]
    | cons y rest' =>
      have hstep : clash (x :: rest) (y :: rest') = true ↔
          (∃ name, x = .field name) ∧ y = .wildcard ∨ x = y ∧ clash rest rest' = true := by
        cases x <;> cases y <;> simp [clash]
      rw [hstep, ih]
      constructor
      · rintro (⟨⟨name, rfl⟩, rfl⟩ | ⟨rfl, path, name, hfield, hwild⟩)
        · exact ⟨[], name, ⟨rest, rfl⟩, ⟨rest', rfl⟩⟩
        · exact ⟨x :: path, name, List.cons_prefix_cons.2 ⟨rfl, hfield⟩,
            List.cons_prefix_cons.2 ⟨rfl, hwild⟩⟩
      · rintro ⟨path, name, hfield, hwild⟩
        cases path with
        | nil =>
          obtain ⟨hx, -⟩ := List.cons_prefix_cons.1 hfield
          obtain ⟨hy, -⟩ := List.cons_prefix_cons.1 hwild
          exact .inl ⟨⟨name, hx.symm⟩, hy.symm⟩
        | cons z path =>
          obtain ⟨hx, hfield'⟩ := List.cons_prefix_cons.1 hfield
          obtain ⟨hy, hwild'⟩ := List.cons_prefix_cons.1 hwild
          exact .inr ⟨hx.symm.trans hy, path, name, hfield', hwild'⟩

theorem unclashed_iff {leaves : List Leaf} :
    Unclashed leaves ↔ ∀ a ∈ leaves, ∀ b ∈ leaves, clash a.path b.path = false := by
  simp only [← Bool.not_eq_true, clash_iff]
  constructor
  · rintro h a ha b hb ⟨path, name, hfield, hwild⟩
    exact h path name ⟨a, ha, hfield⟩ ⟨b, hb, hwild⟩
  · rintro h path name ⟨a, ha, hfield⟩ ⟨b, hb, hwild⟩
    exact h a ha b hb ⟨path, name, hfield, hwild⟩

instance (leaves : List Leaf) : Decidable (Unclashed leaves) :=
  decidable_of_iff _ unclashed_iff.symm

/-- Leaves that can be put into a form in any order. -/
structure Agree (leaves : List Leaf) : Prop where
  /-- No path occurs twice. -/
  nodup : (leaves.map Leaf.path).Nodup
  /-- No node is both an object and a list. -/
  unclashed : Unclashed leaves
  /-- A leaf above another one has nothing to lose to the container it becomes. -/
  bare : ∀ a ∈ leaves, ∀ b ∈ leaves, a.path <+: b.path → a.path ≠ b.path → Bare a.type
  /-- The items of a list that has a leaf itself are known, so that it is seen to have them. -/
  known : ∀ a ∈ leaves, ∀ b ∈ leaves, b.path = a.path ++ [.wildcard] → b.type.isUnknown = false

namespace Agree

variable {leaves : List Leaf}

theorem under (h : Agree leaves) (segment : Segment) : Agree (under segment leaves) where
  nodup := by
    apply List.Nodup.of_map (segment :: ·)
    rw [map_path_under]
    exact h.nodup.sublist (List.filter_sublist.map _)
  unclashed := by
    intro path name hfield hwild
    exact h.unclashed (segment :: path) name (reaches_under.1 hfield) (reaches_under.1 hwild)
  bare := by
    intro a ha b hb habove hne
    have hne' : segment :: a.path ≠ segment :: b.path := fun heq => hne (List.cons.inj heq).2
    exact h.bare ⟨segment :: a.path, a.type⟩ (mem_under.1 ha) ⟨segment :: b.path, b.type⟩
      (mem_under.1 hb) (List.cons_prefix_cons.2 ⟨rfl, habove⟩) hne'
  known := by
    intro a ha b hb hpath
    exact h.known ⟨segment :: a.path, a.type⟩ (mem_under.1 ha) ⟨segment :: b.path, b.type⟩
      (mem_under.1 hb) (congrArg (segment :: ·) hpath)

theorem sublist {leaves' : List Leaf} (h : Agree leaves) (hsub : leaves'.Sublist leaves) :
    Agree leaves' where
  nodup := h.nodup.sublist (hsub.map _)
  unclashed path name hfield hwild :=
    h.unclashed path name (hfield.mono hsub.subset) (hwild.mono hsub.subset)
  bare a ha b hb := h.bare a (hsub.subset ha) b (hsub.subset hb)
  known a ha b hb := h.known a (hsub.subset ha) b (hsub.subset hb)

theorem perm {leaves' : List Leaf} (h : Agree leaves) (hperm : leaves.Perm leaves') :
    Agree leaves' where
  nodup := (hperm.map _).nodup_iff.1 h.nodup
  unclashed path name hfield hwild :=
    h.unclashed path name (hfield.mono hperm.symm.subset) (hwild.mono hperm.symm.subset)
  bare a ha b hb := h.bare a (hperm.mem_iff.2 ha) b (hperm.mem_iff.2 hb)
  known a ha b hb := h.known a (hperm.mem_iff.2 ha) b (hperm.mem_iff.2 hb)

theorem path_ne_nil {t : Ty} (h : Agree (leaves ++ [⟨[], t⟩])) :
    ∀ leaf ∈ leaves, leaf.path ≠ [] := by
  intro leaf hleaf hpath
  have hnodup := h.nodup
  rw [List.map_append, List.nodup_append] at hnodup
  exact hnodup.2.2 leaf.path (List.mem_map_of_mem hleaf) [] (by simp) hpath

end Agree

/-! ## One insertion -/

namespace Grown

variable {leaves : List Leaf}

theorem not_isUnknown {t : Ty} (h : Grown leaves t) (hne : leaves ≠ [])
    (hknown : ∀ leaf ∈ leaves, leaf.path = [] → leaf.type.isUnknown = false) :
    t.isUnknown = false := by
  cases h with
  | unknown => exact absurd rfl hne
  | empty => exact absurd rfl hne
  | leaf t => exact hknown _ List.mem_cons_self rfl
  | object => exact not_isUnknown_container rfl _
  | list => exact not_isUnknown_container rfl _

/-- A leaf arrives at the node itself. -/
theorem settle {t leaf : Ty} (h : Grown leaves t) (hagree : Agree (leaves ++ [⟨[], leaf⟩])) :
    Grown (leaves ++ [⟨[], leaf⟩]) (settleLeaf leaf t) := by
  have hpaths := hagree.path_ne_nil
  have hnone := own?_eq_none hpaths
  have hown := own?_append_nil_path hpaths leaf []
  have hunder (segment : Segment) :
      under segment (leaves ++ [⟨[], leaf⟩]) = under segment leaves := by
    rw [under_append, under_nil_path, List.append_nil]
  cases h with
  | unknown => exact .leaf leaf
  | empty => exact .leaf leaf
  | leaf t => exact absurd rfl (hpaths _ List.mem_cons_self)
  | @object _ props hpath hprops hdistinct hkeys hgrown =>
    have hchildren : hasChildren (.mk (.object props none) {}) = true := by
      cases props with
      | nil => exact absurd rfl hprops
      | cons e rest => simp [hasChildren]
    rw [hnone, container, settleLeaf_container rfl hchildren, ← hown]
    refine .object ?_ hprops hdistinct ?_ ?_
    · intro l hl
      rcases List.mem_append.1 hl with hl | hl
      · exact hpath l hl
      · exact .inl (by rw [List.mem_singleton.1 hl])
    · intro name
      rw [← under_ne_nil, hunder, under_ne_nil]
      exact hkeys name
    · intro name t ht
      rw [hunder]
      exact hgrown name t ht
  | @list _ item hpath hne hgrown =>
    -- a list has children only if its items are known
    have hknown : item.isUnknown = false := by
      refine hgrown.not_isUnknown (under_ne_nil.2 hne) fun l hl hnil => ?_
      have hmem : (⟨[.wildcard], l.type⟩ : Leaf) ∈ leaves := by
        have := mem_under.1 hl
        rwa [hnil] at this
      exact hagree.known ⟨[], leaf⟩ (by simp) ⟨[.wildcard], l.type⟩
        (List.mem_append_left _ hmem) rfl
    have hchildren : hasChildren (.mk (listKind item) {}) = true := by
      simp [listKind, hasChildren, hknown]
    rw [hnone, container, settleLeaf_container rfl hchildren, ← hown]
    refine .list ?_ ?_ ?_
    · intro l hl
      rcases List.mem_append.1 hl with hl | hl
      · exact hpath l hl
      · exact .inl (by rw [List.mem_singleton.1 hl])
    · exact hne.mono (List.subset_append_left _ _)
    · rw [hunder]
      exact hgrown

/-- An object that has a property has grown from a leaf below a field. -/
theorem exists_field {props : Entries Ty} (hprops : props ≠ [])
    (hkeys : ∀ name, name ∈ props.keys ↔ Reaches leaves [.field name]) :
    ∃ name, Reaches leaves [.field name] := by
  obtain ⟨⟨name, t⟩, rest, rfl⟩ := List.exists_cons_of_ne_nil hprops
  exact ⟨name, (hkeys name).1 List.mem_cons_self⟩

/-- A property is given what has grown below its name; the other properties stay as they are. -/
theorem put {name : String} {rest : List Segment} {leaf child : Ty} {props : Entries Ty}
    (hpath : ∀ leaf ∈ leaves, leaf.path = [] ∨ ∃ name, [.field name] <+: leaf.path)
    (hdistinct : props.Distinct) (hkeys : ∀ name, name ∈ props.keys ↔ Reaches leaves [.field name])
    (hgrown : ∀ name t, props.get? name = some t → Grown (under (.field name) leaves) t)
    (hchild : Grown (under (.field name) leaves ++ [⟨rest, leaf⟩]) child) :
    Grown (leaves ++ [⟨.field name :: rest, leaf⟩])
      (container (own? leaves) (.object (props.put name child) none)) := by
  have hself : under (.field name) (leaves ++ [⟨.field name :: rest, leaf⟩]) =
      under (.field name) leaves ++ [⟨rest, leaf⟩] := by
    rw [under_append, under_cons_path]
  have hother {other : String} (h : name ≠ other) :
      under (.field other) (leaves ++ [⟨.field name :: rest, leaf⟩]) =
        under (.field other) leaves := by
    have hne : Segment.field name ≠ .field other := fun heq => h (Segment.field.inj heq)
    rw [under_append, under_of_ne hne, List.append_nil]
  rw [← own?_append_cons_path leaves (.field name) rest leaf]
  refine .object ?_ ?_ (hdistinct.put name child) ?_ ?_
  · intro l hl
    rcases List.mem_append.1 hl with hl | hl
    · exact hpath l hl
    · rw [List.mem_singleton.1 hl]
      exact .inr ⟨name, rest, rfl⟩
  · intro hnil
    have hmem : name ∈ (props.put name child).keys := Entries.mem_keys_put.2 (.inr rfl)
    rw [hnil] at hmem
    exact List.not_mem_nil hmem
  · intro other
    rw [Entries.mem_keys_put]
    by_cases hname : name = other
    · subst hname
      rw [← under_ne_nil, hself]
      simp
    · rw [hkeys, ← under_ne_nil, ← under_ne_nil, hother hname]
      simp [Ne.symm hname]
  · intro other t ht
    by_cases hname : name = other
    · subst hname
      rw [Entries.get?_put_self] at ht
      cases ht
      rw [hself]
      exact hchild
    · rw [Entries.get?_put_of_ne _ _ hname] at ht
      rw [hother hname]
      exact hgrown other t ht

/-- The items of a list are what has grown below the wildcard. -/
theorem items {rest : List Segment} {leaf item : Ty}
    (hpath : ∀ leaf ∈ leaves, leaf.path = [] ∨ [.wildcard] <+: leaf.path)
    (hitem : Grown (under .wildcard leaves ++ [⟨rest, leaf⟩]) item) :
    Grown (leaves ++ [⟨.wildcard :: rest, leaf⟩]) (container (own? leaves) (listKind item)) := by
  have hself : under .wildcard (leaves ++ [⟨.wildcard :: rest, leaf⟩]) =
      under .wildcard leaves ++ [⟨rest, leaf⟩] := by
    rw [under_append, under_cons_path]
  rw [← own?_append_cons_path leaves .wildcard rest leaf]
  refine .list ?_ ?_ ?_
  · intro l hl
    rcases List.mem_append.1 hl with hl | hl
    · exact hpath l hl
    · rw [List.mem_singleton.1 hl]
      exact .inr ⟨rest, rfl⟩
  · exact ⟨_, List.mem_append_right _ List.mem_cons_self, rest, rfl⟩
  · rw [hself]
    exact hitem

variable {segment : Segment} {rest : List Segment} {leaf t : Ty}

/-- A container grows where there was none. -/
theorem sprout (hpath : ∀ leaf ∈ leaves, leaf.path = [])
    (hchild : ∀ node, Grown (under segment leaves) node →
      Grown (under segment leaves ++ [⟨rest, leaf⟩]) (insert leaf rest node)) :
    Grown (leaves ++ [⟨segment :: rest, leaf⟩])
      (container (own? leaves) (descendKind segment (insert leaf rest) .unknown)) := by
  have hnil (segment : Segment) : under segment leaves = [] := by
    refine List.eq_nil_iff_forall_not_mem.2 fun l hl => ?_
    exact List.cons_ne_nil _ _ (hpath _ (mem_under.1 hl))
  have hnew : Grown (under segment leaves ++ [⟨rest, leaf⟩]) (insert leaf rest .unknown) := by
    refine hchild .unknown ?_
    rw [hnil]
    exact .unknown
  cases segment with
  | wildcard => exact items (fun l hl => .inl (hpath l hl)) hnew
  | field name =>
    refine put (fun l hl => .inl (hpath l hl)) List.nodup_nil ?_ ?_ hnew
    · intro name
      rw [← under_ne_nil, hnil]
      simp [Entries.keys]
    · intro name t ht
      simp at ht

/-- A segment is inserted into a node: into its container, or into one that grows in its place. -/
theorem extend (h : Grown leaves t) (hagree : Agree (leaves ++ [⟨segment :: rest, leaf⟩]))
    (hchild : ∀ node, Grown (under segment leaves) node →
      Grown (under segment leaves ++ [⟨rest, leaf⟩]) (insert leaf rest node)) :
    Grown (leaves ++ [⟨segment :: rest, leaf⟩]) (insert leaf (segment :: rest) t) := by
  have hnew : (⟨segment :: rest, leaf⟩ : Leaf) ∈ leaves ++ [⟨segment :: rest, leaf⟩] := by simp
  rw [Rules.insert]
  cases h with
  | unknown =>
    rw [Ty.unknown, Ty.ofKind, Blank.unknown.onContainer_eq, descend_mk]
    exact sprout (by simp) hchild
  | empty =>
    rw [Ty.object, Ty.ofKind, Blank.object.onContainer_eq, descend_mk, Blank.object.descendKind_eq]
    exact sprout (by simp) hchild
  | leaf t =>
    have hbare : Bare t := by
      refine hagree.bare ⟨[], t⟩ (by simp) _ hnew List.nil_prefix ?_
      exact (List.cons_ne_nil _ _).symm
    rw [hbare.onContainer_eq]
    exact sprout (by simp) hchild
  | @object _ props hpath hprops hdistinct hkeys hgrown =>
    rw [onContainer_container rfl]
    cases segment with
    | wildcard =>
      -- a property and an item at one node would clash
      obtain ⟨name, hfield⟩ := exists_field hprops hkeys
      exact absurd ⟨_, hnew, rest, rfl⟩
        (hagree.unclashed [] name (hfield.mono (List.subset_append_left _ _)))
    | field name =>
      rw [descendKind_field_object]
      refine put hpath hdistinct hkeys hgrown (hchild _ ?_)
      cases hget : props.get? name with
      | some t => exact hgrown name t hget
      | none =>
        -- the first leaf below this name: it grows from nothing
        have hname : name ∉ props.keys := by
          rw [← Entries.isSome_get?_iff, hget]
          exact Bool.false_ne_true
        rw [hkeys, ← under_ne_nil, not_not] at hname
        rw [hname]
        exact .unknown
  | @list _ item hpath hne hgrown =>
    rw [onContainer_container rfl]
    cases segment with
    | wildcard => exact items hpath (hchild item hgrown)
    | field name =>
      exact absurd (hne.mono (List.subset_append_left _ _))
        (hagree.unclashed [] name ⟨_, hnew, rest, rfl⟩)

/-- An insertion extends the leaves by one. -/
theorem insert {path : List Segment} (h : Grown leaves t)
    (hagree : Agree (leaves ++ [⟨path, leaf⟩])) :
    Grown (leaves ++ [⟨path, leaf⟩]) (Rules.insert leaf path t) := by
  -- the path is walked down, with the leaves of each node on the way
  induction path generalizing leaves t with
  | nil => exact h.settle hagree
  | cons segment rest ih =>
    refine h.extend hagree fun node hnode => ih hnode ?_
    have hunder := hagree.under segment
    rwa [under_append, under_cons_path] at hunder

end Grown

/-- Leaves that agree make a form that has grown from them. -/
theorem grown_plant {leaves : List Leaf} (h : Agree leaves) : Grown leaves (plant leaves) := by
  induction leaves using List.reverseRecOn with
  | nil => exact .empty
  | append_singleton front last ih =>
    have hfront : Agree front := h.sublist (List.sublist_append_left front [last])
    rw [plant, List.foldl_append]
    exact (ih hfront).insert h

/-! ## The order of the leaves -/

theorem under_perm {leaves leaves' : List Leaf} (h : leaves.Perm leaves') (segment : Segment) :
    (under segment leaves).Perm (under segment leaves') :=
  h.filterMap _

namespace Grown

variable {leaves leaves' : List Leaf} {t t' : Ty}

theorem not_reaches_of_leaf (t : Ty) (segment : Segment) : ¬ Reaches [⟨[], t⟩] [segment] := by
  rintro ⟨l, hl, habove⟩
  rw [List.mem_singleton.1 hl, List.prefix_nil] at habove
  exact List.cons_ne_nil _ _ habove

/-- From one leaf at the node nothing but that leaf grows. -/
theorem eq_of_leaf (h : Grown [⟨[], t⟩] t') : t' = t := by
  generalize hleaves : [(⟨[], t⟩ : Leaf)] = leaves at h
  have hreaches (segment : Segment) : ¬ Reaches leaves [segment] := by
    rw [← hleaves]
    exact not_reaches_of_leaf t segment
  cases h with
  | unknown => simp at hleaves
  | empty => simp at hleaves
  | leaf u => simpa using hleaves.symm
  | object _ hprops _ hkeys _ =>
    obtain ⟨name, hfield⟩ := exists_field hprops hkeys
    exact absurd hfield (hreaches _)
  | list _ hne _ => exact absurd hne (hreaches _)

/-- What grows from leaves does not depend on their order, but for the order of properties. -/
theorem reordered (h : Grown leaves t) (h' : Grown leaves' t') (hperm : leaves.Perm leaves')
    (hagree : Agree leaves) (hne : leaves ≠ []) : t.Reordered t' := by
  -- the leaves decide what a node is: a leaf, or an object, or a list
  induction h generalizing leaves' t' with
  | unknown => exact absurd rfl hne
  | empty => exact absurd rfl hne
  | leaf t =>
    rw [← List.singleton_perm.1 hperm] at h'
    rw [h'.eq_of_leaf]
    exact .refl t
  | @object leaves props hpath hprops hdistinct hkeys hgrown ih =>
    obtain ⟨name, hfield⟩ := exists_field hprops hkeys
    cases h' with
    | unknown => exact absurd hperm.eq_nil hne
    | empty => exact absurd hperm.eq_nil hne
    | leaf t =>
      rw [List.perm_singleton.1 hperm] at hfield
      exact absurd hfield (not_reaches_of_leaf _ _)
    | @object _ props' hpath' hprops' hdistinct' hkeys' hgrown' =>
      rw [own?_perm hagree.nodup hperm]
      refine reordered_container (fun slot => .object none slot hdistinct ?_ ?_) _
      · refine (List.perm_ext_iff_of_nodup hdistinct hdistinct').2 fun name => ?_
        rw [hkeys, hkeys']
        exact ⟨fun h => h.mono hperm.subset, fun h => h.mono hperm.symm.subset⟩
      · intro name t t' ht ht'
        have hname : name ∈ props.keys := (Entries.isSome_get?_iff props name).1 (by rw [ht]; rfl)
        exact ih name t ht (hgrown' name t' ht') (under_perm hperm _) (hagree.under _)
          (under_ne_nil.2 ((hkeys name).1 hname))
    | list hpath' hwild hgrown' =>
      exact absurd (hwild.mono hperm.symm.subset) (hagree.unclashed [] name hfield)
  | @list leaves item hpath hwild hgrown ih =>
    cases h' with
    | unknown => exact absurd hperm.eq_nil hne
    | empty => exact absurd hperm.eq_nil hne
    | leaf t =>
      rw [List.perm_singleton.1 hperm] at hwild
      exact absurd hwild (not_reaches_of_leaf _ _)
    | object hpath' hprops' hdistinct' hkeys' hgrown' =>
      obtain ⟨name, hfield⟩ := exists_field hprops' hkeys'
      exact absurd hwild (hagree.unclashed [] name (hfield.mono hperm.symm.subset))
    | @list _ item' hpath' hwild' hgrown' =>
      rw [own?_perm hagree.nodup hperm]
      refine reordered_container (fun slot => .item none none slot ?_) _
      exact ih hgrown' (under_perm hperm _) (hagree.under _) (under_ne_nil.2 hwild)

end Grown

/-- Leaves that agree make the same form in any order, but for the order of properties. -/
theorem reordered_plant {leaves leaves' : List Leaf} (h : Agree leaves)
    (hperm : leaves.Perm leaves') :
    (plant leaves).Reordered (plant leaves') := by
  by_cases hne : leaves = []
  · subst hne
    rw [List.nil_perm.1 hperm]
    exact .refl _
  · exact (grown_plant h).reordered (grown_plant (h.perm hperm)) hperm h hne

end QueryTypes.Rules
