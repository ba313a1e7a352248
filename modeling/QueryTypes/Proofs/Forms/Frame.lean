import QueryTypes.Proofs.Forms.Unions

/-!
# What an insertion leaves alone

The address of a node is the path that leads to it (`Ty.at?`): a field leads to a property of an
object and a wildcard to the item of a list, and from a union both lead on through its first member
that is an object or a list (`Ty.branch`). An insertion walks along its path in the same way and
makes a node where there is none.

After a first part of the path an insertion goes on as an insertion of the rest into the node that
is found there (`at?_insert_append`). From this one equation follow what arrives at the end of the
path, that the nodes on the way keep their places, and that everything beside the path stays
(`insert_frame`).
-/

set_option autoImplicit false

namespace QueryTypes

open Rules

/-! ## Addresses -/

namespace Ty

/-- The type through which paths lead on from a node: in a union its first member that is a list or
an object, otherwise the node itself. -/
def branch (t : Ty) : Ty :=
  match t.kind with
  | .union members => (members.find? isContainer).getD t
  | _ => t

/-- What a segment leads to in a type that is no union. A type with a shape is no list: its entries
have names and no item stands for them all. -/
def child? (t : Ty) : Segment → Option Ty
  | .field name =>
    match t.kind with
    | .object properties _ => Entries.get? properties name
    | _ => none
  | .wildcard =>
    match t.kind with
    | .array (some item) _ none _ => some item
    | _ => none

/-- The node at an address. -/
def at? : List Segment → Ty → Option Ty
  | [], t => some t
  | segment :: rest, t => (t.branch.child? segment).bind (at? rest)

theorem at?_cons (segment : Segment) (rest : List Segment) (t : Ty) :
    t.at? (segment :: rest) = (t.branch.child? segment).bind (at? rest) := rfl

theorem at?_append (path rest : List Segment) (t : Ty) :
    t.at? (path ++ rest) = (t.at? path).bind (at? rest) := by
  induction path generalizing t with
  | nil => rfl
  | cons segment path ih =>
    rw [List.cons_append, at?_cons, at?_cons, Option.bind_assoc]
    exact Option.bind_congr fun child _ => ih child

/-- Nothing stands below an unknown type. -/
theorem at?_unknown_getD (path : List Segment) :
    (Ty.unknown.at? path).getD .unknown = .unknown := by
  cases path with
  | nil => rfl
  | cons segment rest => cases segment <;> rfl

theorem branch_of_isContainer {t : Ty} (h : isContainer t = true) : t.branch = t := by
  obtain ⟨kind, slot⟩ := t
  cases kind with
  | array | object => rfl
  | unknown | scalar | union => cases h

end Ty

namespace Rules

/-! ## One step of an insertion -/

section Step

variable {p : Ty → Bool} {change : Ty → Ty} {ms ms' : List Ty}

theorem find?_of_changeFirst? (h : changeFirst? p change ms = some ms')
    (hp : ∀ t, p (change t) = true) : ∃ m, ms.find? p = some m ∧ ms'.find? p = some (change m) := by
  induction ms generalizing ms' with
  | nil => cases h
  | cons t rest ih =>
    rw [changeFirst?] at h
    split at h
    · next ht =>
      cases h
      exact ⟨t, List.find?_cons_of_pos ht, List.find?_cons_of_pos (hp t)⟩
    · next ht =>
      obtain ⟨rest', hrest, rfl⟩ := Option.map_eq_some_iff.1 h
      obtain ⟨m, hm, hm'⟩ := ih hrest
      exact ⟨m, by rw [List.find?_cons_of_neg ht, hm], by rw [List.find?_cons_of_neg ht, hm']⟩

theorem find?_eq_none_of_changeFirst? (h : changeFirst? p change ms = none) :
    ms.find? p = none := by
  induction ms with
  | nil => rfl
  | cons t rest ih =>
    rw [changeFirst?] at h
    split at h
    · cases h
    · next ht =>
      rw [List.find?_cons_of_neg ht]
      exact ih (Option.map_eq_none_iff.1 h)

/-- A change that makes a list or an object of a node is a change of what leads on from it. -/
theorem branch_onContainer (hchange : ∀ t, isContainer (change t) = true) (node : Ty) :
    (onContainer change node).branch = change node.branch := by
  obtain ⟨kind, slot⟩ := node
  cases kind with
  | union members =>
    cases hfirst : changeFirst? isContainer change members with
    | some members' =>
      obtain ⟨m, hm, hm'⟩ := find?_of_changeFirst? hfirst hchange
      have hnode : onContainer change (.mk (.union members) slot) = .mk (.union members') slot := by
        simp [onContainer, hfirst, Ty.withKind]
      have hbranch : (Ty.mk (.union members) slot).branch = m := by simp [Ty.branch, hm]
      rw [hnode, hbranch]
      simp [Ty.branch, hm']
    | none =>
      -- no member leads on, so that the union itself is replaced
      have hnode : onContainer change (.mk (.union members) slot) =
          change (.mk (.union members) slot) := by
        simp [onContainer, hfirst]
      have hbranch : (Ty.mk (.union members) slot).branch = .mk (.union members) slot := by
        simp [Ty.branch, find?_eq_none_of_changeFirst? hfirst]
      rw [hnode, hbranch, Ty.branch_of_isContainer (hchange _)]
  | unknown | scalar | array | object => exact Ty.branch_of_isContainer (hchange _)

end Step

section Descend

variable (segment : Segment) (change : Ty → Ty) (t : Ty)

theorem slot_descend : (descend segment change t).slot = t.slot := by
  cases segment <;> rfl

/-- Where a segment leads to nothing, a change starts from an unknown type. -/
theorem child?_descend_self :
    (descend segment change t).child? segment =
      some (change ((t.child? segment).getD .unknown)) := by
  obtain ⟨kind, slot⟩ := t
  cases segment with
  | wildcard =>
    cases kind with
    | array item key shape origin => cases item <;> cases shape <;> rfl
    | unknown | scalar | object | union => rfl
  | field name =>
    cases kind with
    | object properties origin => exact Entries.get?_put_self _ name _
    | unknown | scalar | array | union => exact Entries.get?_put_self _ name _

/-- A field leaves the other fields alone; a type that was no object has none. -/
theorem child?_descend_field {name other : String} (h : name ≠ other) :
    (descend (.field name) change t).child? (.field other) = t.child? (.field other) := by
  obtain ⟨kind, slot⟩ := t
  cases kind with
  | object properties origin => exact Entries.get?_put_of_ne _ _ h
  | unknown | scalar | array | union => exact Entries.get?_put_of_ne _ _ h

theorem branch_onContainer_descend :
    (onContainer (descend segment change) t).branch = descend segment change t.branch :=
  branch_onContainer (isContainer_descend segment change) t

end Descend

/-! ## Along the path and beside it -/

section Insert

variable (leaf t : Ty)

theorem slot_insert_cons (segment : Segment) (rest : List Segment) :
    (insert leaf (segment :: rest) t).slot = t.slot := by
  rw [insert]
  refine onContainer_cases (motive := fun node => node.slot = t.slot) ?_ ?_
  · exact slot_descend segment (insert leaf rest) t
  · intro front m back _ _
    rfl

theorem branch_insert_cons (segment : Segment) (rest : List Segment) :
    (insert leaf (segment :: rest) t).branch = descend segment (insert leaf rest) t.branch :=
  branch_onContainer_descend segment (insert leaf rest) t

/-- At a node on the way, an insertion is the insertion of the rest of the path into that node. -/
theorem at?_insert_append (path rest : List Segment) :
    (insert leaf (path ++ rest) t).at? path =
      some (insert leaf rest ((t.at? path).getD .unknown)) := by
  induction path generalizing t with
  | nil => rfl
  | cons segment path ih =>
    rw [List.cons_append, Ty.at?_cons, branch_insert_cons, child?_descend_self, Option.bind_some,
      ih, Ty.at?_cons]
    cases t.branch.child? segment with
    | some child => rfl
    | none => rw [Option.getD_none, Ty.at?_unknown_getD, Option.bind_none, Option.getD_none]

/-- A path that starts with another field leads to what it led to. -/
theorem at?_insert_field {name other : String} (h : name ≠ other) (rest below : List Segment) :
    (insert leaf (.field name :: rest) t).at? (.field other :: below) =
      t.at? (.field other :: below) := by
  rw [Ty.at?_cons, branch_insert_cons, child?_descend_field _ _ h, Ty.at?_cons]

/-- An insertion settles its leaf at the end of the path. The nodes above it keep their places,
those in which a path leads on from a union as well; and what stands behind another field than the
one the path takes stays as it is, with all below it. -/
theorem insert_frame (path : List Segment) :
    (insert leaf path t).at? path = some (settleLeaf leaf ((t.at? path).getD .unknown)) ∧
    (∀ above node, above <+: path → above ≠ path → t.at? above = some node →
      ∃ node', (insert leaf path t).at? above = some node' ∧ node'.slot = node.slot ∧
        node'.branch.slot = node.branch.slot) ∧
    ∀ common name other rest below node, path = common ++ .field name :: rest → name ≠ other →
      t.at? (common ++ .field other :: below) = some node →
        (insert leaf path t).at? (common ++ .field other :: below) = some node := by
  refine ⟨?_, ?_, ?_⟩
  · have hend := at?_insert_append leaf t path []
    rwa [List.append_nil] at hend
  · rintro above node ⟨rest, rfl⟩ hne hnode
    cases rest with
    | nil => exact absurd (List.append_nil above).symm hne
    | cons segment rest =>
      refine ⟨insert leaf (segment :: rest) node, ?_, slot_insert_cons leaf node segment rest, ?_⟩
      · rw [at?_insert_append, hnode, Option.getD_some]
      · rw [branch_insert_cons, slot_descend]
  · rintro common name other rest below node rfl hne hnode
    rw [Ty.at?_append] at hnode
    obtain ⟨parting, hparting, hbelow⟩ := Option.bind_eq_some_iff.1 hnode
    rw [Ty.at?_append, at?_insert_append, hparting, Option.getD_some, Option.bind_some,
      at?_insert_field _ _ hne, hbelow]

end Insert

/-- An invoice that may come without lines. -/
def invoice : Ty :=
  .object [
    ("lines", .mk (.union [.list (.object [("price", Ty.float.withRequired true)] none), .null])
      { required := true, description := some "what was sold" }),
    ("number", .string)] none

/-- The invoice with a field for the amount in its lines. -/
def countedInvoice : Ty := insert .integer [.field "lines", .wildcard, .field "amount"] invoice

/-- The amount arrives through the union. The price, the number and the place of the lines stay. -/
theorem insert_frame_invoice :
    countedInvoice.at? [.field "lines", .wildcard, .field "amount"] = some .integer ∧
      (∃ node, countedInvoice.at? [.field "lines"] = some node ∧
        node.slot = { required := true, description := some "what was sold" }) ∧
      countedInvoice.at? [.field "lines", .wildcard, .field "price"] =
        some (Ty.float.withRequired true) ∧
      countedInvoice.at? [.field "number"] = some .string := by
  obtain ⟨hend, habove, hbeside⟩ :=
    insert_frame .integer invoice [.field "lines", .wildcard, .field "amount"]
  refine ⟨hend, ?_, ?_, ?_⟩
  · obtain ⟨node, hnode, hslot, -⟩ := habove [.field "lines"] _ (by decide) (by decide) rfl
    exact ⟨node, hnode, hslot⟩
  · exact hbeside [.field "lines", .wildcard] "amount" "price" [] [] _ rfl (by decide) rfl
  · exact hbeside [] "lines" "number" _ [] _ rfl (by decide) rfl

end Rules

end QueryTypes
