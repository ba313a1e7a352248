import QueryTypes.Proofs.Forms.DeclarationOrder
import QueryTypes.Proofs.Forms.Slots
import QueryTypes.Proofs.WellFormed.Types

/-!
# Unions in forms

Insertion into a form does not build unions anew. It goes into the first list or object among the
members of a union and changes it where it stands. The changed member is a list or an object again,
so that a union keeps the number of its members and none of them becomes a union (`Ty.Arranged` with
`Ty.Several`). But it may come to equal another member that is a list or an object, and then the
union holds one type twice (`formType_repeats`).

Two members can only become equal if a path leads through a union with two lists or objects
(`Ty.Along` with `OneContainer`). Such unions come from declared types alone, for rules give unions
of one type and null. Where no path of the map leads through one, the form is well-formed
(`formType_wellFormed`).
-/

set_option autoImplicit false

namespace QueryTypes

/-! ## Types with unions of a certain kind -/

/-- The types that a kind is made of. -/
def Kind.parts : Kind → List Ty
  | .unknown => []
  | .scalar _ => []
  | .array item key shape _ => item.toList ++ key.toList ++ (shape.getD []).map Prod.snd
  | .object properties _ => properties.map Prod.snd
  | .union members => members

/-- An array with a shape has neither item nor key. -/
def Kind.ShapeAlone : Kind → Prop
  | .array item key (some _) _ => item = none ∧ key = none
  | _ => True

namespace Ty

/-- At every depth the members of unions are as `U` says, and shapes stand alone. -/
inductive Arranged (U : List Ty → Prop) : Ty → Prop
  | mk {kind : Kind} {slot : Slot} (alone : kind.ShapeAlone) (members : ∀ ms,
      kind = .union ms → U ms) (parts : ∀ t ∈ kind.parts, Arranged U t) : Arranged U (.mk kind slot)

/-- At least two members, none of them a union. -/
def Several (ms : List Ty) : Prop := 2 ≤ ms.length ∧ ∀ m ∈ ms, m.isUnion = false

theorem Alternatives.several {ms : List Ty} (h : Alternatives ms) : Several ms := ⟨h.two_le, h.flat⟩

/-- Well-formed types are those whose unions have proper alternatives. -/
theorem wellFormed_iff_arranged {t : Ty} : t.WellFormed ↔ t.Arranged Alternatives := by
  constructor
  · intro h
    induction h with
    | unknown slot => exact .mk trivial nofun nofun
    | scalar s slot => exact .mk trivial nofun nofun
    | @array item key shape origin slot halone _ _ _ hitem hkey hentries =>
      refine .mk ?_ nofun ?_
      · cases shape with
        | none => trivial
        | some es => exact halone rfl
      · intro t ht
        rcases List.mem_append.1 ht with ht | ht
        · rcases List.mem_append.1 ht with ht | ht
          · exact hitem t (Option.mem_toList.1 ht)
          · exact hkey t (Option.mem_toList.1 ht)
        · obtain ⟨e, he, rfl⟩ := List.mem_map.1 ht
          cases shape with
          | none => exact absurd he List.not_mem_nil
          | some es => exact hentries es rfl e he
    | object origin slot _ ih => exact .mk trivial nofun (List.forall_mem_map.2 ih)
    | union slot halternatives _ ih =>
      refine .mk trivial ?_ ih
      rintro ms ⟨⟩
      exact halternatives
  · intro h
    induction h with
    | @mk kind slot halone hmembers _ ih =>
      cases kind with
      | unknown => exact .unknown slot
      | scalar s => exact .scalar s slot
      | array item key shape origin =>
        refine .array origin slot ?_ ?_ ?_ ?_
        · intro hshape
          cases shape with
          | none => cases hshape
          | some es => exact halone
        · rintro t rfl
          exact ih t (by simp [Kind.parts])
        · rintro t rfl
          exact ih t (by simp [Kind.parts])
        · rintro es rfl e he
          exact ih e.2 (List.mem_append_right _ (List.mem_map_of_mem he))
      | object properties origin =>
        exact .object origin slot fun e he => ih e.2 (List.mem_map_of_mem he)
      | union ms => exact .union slot (hmembers ms rfl) ih

namespace Arranged

variable {U V : List Ty → Prop} {t : Ty}

theorem mono (hUV : ∀ ms, U ms → V ms) (h : t.Arranged U) : t.Arranged V := by
  induction h with
  | mk halone hmembers _ ih => exact .mk halone (fun ms hms => hUV ms (hmembers ms hms)) ih

/-- The place does not matter. -/
theorem place (h : t.Arranged U) (slot : Slot) : Arranged U (.mk t.kind slot) := by
  cases h with
  | mk halone hmembers hparts => exact .mk halone hmembers hparts

theorem unknown : Ty.unknown.Arranged U := .mk trivial nofun nofun

theorem null : Ty.null.Arranged U := .mk trivial nofun nofun

/-- The members of a type, where those of a union are no unions. -/
theorem of_mem_members (hflat : ∀ ms, U ms → ∀ m ∈ ms, m.isUnion = false) (h : t.Arranged U) :
    ∀ m ∈ t.members, m.Arranged U ∧ m.isUnion = false := by
  intro m hm
  cases h with
  | @mk kind slot halone hmembers hparts =>
    cases kind with
    | union ms => exact ⟨hparts m hm, hflat ms (hmembers ms rfl) m hm⟩
    | unknown | scalar | array | object =>
      rw [List.mem_singleton.1 hm]
      exact ⟨.mk halone hmembers hparts, rfl⟩

theorem pairwise_members (h : t.Arranged Alternatives) :
    t.members.Pairwise fun a b => a.same b = false := by
  cases h with
  | @mk kind slot _ hmembers _ =>
    cases kind with
    | union ms => exact (hmembers ms rfl).unequal
    | unknown | scalar | array | object => exact List.pairwise_singleton _ _

/-- A union of types is arranged, for its members are proper alternatives. -/
theorem union (hU : ∀ ms, Alternatives ms → U ms) (hflat : ∀ ms, U ms → ∀ m ∈ ms, m.isUnion = false)
    {ts : List Ty} (h : ∀ t ∈ ts, t.Arranged U) : (Ty.union ts).Arranged U := by
  have hmembers : ∀ m ∈ distinct (ts.flatMap Ty.members), m.Arranged U ∧ m.isUnion = false := by
    intro m hm
    obtain ⟨t, ht, hmt⟩ := List.mem_flatMap.1 (mem_of_mem_distinct hm)
    exact (h t ht).of_mem_members hflat m hmt
  have hunequal := pairwise_distinct (ts.flatMap Ty.members)
  rw [Ty.union]
  generalize distinct (ts.flatMap Ty.members) = ms at hmembers hunequal
  rcases ms with _ | ⟨t, _ | ⟨u, rest⟩⟩
  · exact unknown
  · exact (hmembers t List.mem_cons_self).1
  · have hlength : 2 ≤ (t :: u :: rest).length := by simp
    refine .mk trivial ?_ fun m hm => (hmembers m hm).1
    rintro ms ⟨⟩
    exact hU _ ⟨hlength, fun m hm => (hmembers m hm).2, hunequal⟩

theorem nullable (hU : ∀ ms, Alternatives ms → U ms)
    (hflat : ∀ ms, U ms → ∀ m ∈ ms, m.isUnion = false) (h : t.Arranged U) :
    t.nullable.Arranged U := by
  rw [Ty.nullable]
  split
  · exact h
  · refine (union hU hflat ?_).place _
    exact List.forall_mem_cons.2 ⟨h.place _, List.forall_mem_singleton.2 null⟩

end Arranged

end Ty

/-! ## Along a path -/

open Rules

/-- What a segment of a path leads to in a type that is no union: an item or a property, unknown if
there is none. -/
def Ty.behind (t : Ty) : Segment → Ty
  | .wildcard => itemOf t
  | .field name => ((objectOf t).1.get? name).getD .unknown

/-- The unions that a path leads through are as `C` says. -/
def Ty.Along (C : List Ty → Prop) : List Segment → Ty → Prop
  | [], _ => True
  | segment :: rest, t =>
    (∀ ms, t.kind = .union ms → C ms) ∧ ∀ m ∈ t.members, (m.behind segment).Along C rest

namespace Ty

variable {C : List Ty → Prop} {t : Ty} {segment : Segment} {rest : List Segment}

theorem behind_unknown (segment : Segment) : Ty.unknown.behind segment = .unknown := by
  cases segment <;> rfl

theorem along_unknown (path : List Segment) : Ty.unknown.Along C path := by
  induction path with
  | nil => trivial
  | cons segment rest ih =>
    refine ⟨nofun, ?_⟩
    intro m hm
    rw [List.mem_singleton.1 hm, behind_unknown]
    exact ih

theorem along_of_forall (h : ∀ ms, C ms) (path : List Segment) (t : Ty) : t.Along C path := by
  induction path generalizing t with
  | nil => trivial
  | cons segment rest ih => exact ⟨fun ms _ => h ms, fun m _ => ih _⟩

/-- A path leads on below a type. Below a union itself there is nothing. -/
theorem Along.behind (h : t.Along C (segment :: rest)) : (t.behind segment).Along C rest := by
  obtain ⟨kind, slot⟩ := t
  cases kind with
  | union ms =>
    have hunknown : (Ty.mk (.union ms) slot).behind segment = .unknown := by cases segment <;> rfl
    rw [hunknown]
    exact along_unknown rest
  | unknown | scalar | array | object => exact h.2 _ List.mem_cons_self

theorem Along.place {path : List Segment} (h : t.Along C path) (slot : Slot) :
    (Ty.mk t.kind slot).Along C path := by
  obtain ⟨kind, place⟩ := t
  cases path with
  | nil => trivial
  | cons segment rest =>
    refine ⟨h.1, ?_⟩
    intro m hm
    cases kind with
    | union ms => exact h.2 m hm
    | unknown | scalar | array | object =>
      rw [List.mem_singleton.1 hm]
      cases segment <;> exact h.behind

end Ty

namespace Rules

/-! ## Insertion -/

theorem changeFirst?_eq_some {p : Ty → Bool} {change : Ty → Ty} {ms ms' : List Ty}
    (h : changeFirst? p change ms = some ms') :
    ∃ front m back, ms = front ++ m :: back ∧ p m = true ∧ ms' = front ++ change m :: back := by
  induction ms generalizing ms' with
  | nil => cases h
  | cons t rest ih =>
    rw [changeFirst?] at h
    split at h
    · next ht =>
      cases h
      exact ⟨[], t, rest, rfl, ht, rfl⟩
    · obtain ⟨rest', hrest, rfl⟩ := Option.map_eq_some_iff.1 h
      obtain ⟨front, m, back, rfl, hm, rfl⟩ := ih hrest
      exact ⟨t :: front, m, back, rfl, hm, rfl⟩

/-- What a node becomes when a path leads on from it: the node itself is changed, or one of the
lists and objects in a union. -/
@[elab_as_elim]
theorem onContainer_cases {motive : Ty → Prop} {change : Ty → Ty} {node : Ty}
    (self : motive (change node))
    (member : ∀ front m back, node.kind = .union (front ++ m :: back) → isContainer m = true →
      motive (.mk (.union (front ++ change m :: back)) node.slot)) :
    motive (onContainer change node) := by
  rw [onContainer]
  split
  · next members hkind =>
    split
    · next members' hchange =>
      obtain ⟨front, m, back, rfl, hm, rfl⟩ := changeFirst?_eq_some hchange
      exact member front m back hkind hm
    · exact self
  · exact self

/-- A segment leads on from a list or an object. -/
theorem isContainer_descend (segment : Segment) (change : Ty → Ty) (t : Ty) :
    isContainer (descend segment change t) = true := by
  cases segment <;> rfl

theorem behind_descend_self (segment : Segment) (change : Ty → Ty) (t : Ty) :
    (descend segment change t).behind segment = change (t.behind segment) := by
  cases segment with
  | wildcard => rfl
  | field name =>
    show (((objectOf t).1.put name _).get? name).getD .unknown = _
    rw [Entries.get?_put_self]
    rfl

theorem behind_descend_of_ne {segment other : Segment} (h : segment ≠ other) (change : Ty → Ty)
    (t : Ty) :
    (descend segment change t).behind other = t.behind other ∨
      (descend segment change t).behind other = .unknown := by
  cases segment with
  | wildcard =>
    cases other with
    | wildcard => exact absurd rfl h
    | field name => exact .inr rfl
  | field name =>
    cases other with
    | wildcard => exact .inr rfl
    | field name' =>
      have hname : name ≠ name' := fun heq => h (congrArg _ heq)
      refine .inl ?_
      show (((objectOf t).1.put name _).get? name').getD .unknown = _
      rw [Entries.get?_put_of_ne _ _ hname]
      rfl

section Arranged

variable {U C : List Ty → Prop} {leaf t : Ty}

/-- The properties of a type are arranged as the type is. -/
theorem arranged_objectOf (h : t.Arranged U) : ∀ e ∈ (objectOf t).1, e.2.Arranged U := by
  cases h with
  | @mk kind slot _ _ hparts =>
    cases kind with
    | object properties origin => exact fun e he => hparts e.2 (List.mem_map_of_mem he)
    | unknown | scalar | array | union => exact nofun

/-- The type behind a segment is arranged as the type is. -/
theorem arranged_behind (h : t.Arranged U) (segment : Segment) : (t.behind segment).Arranged U := by
  cases segment with
  | field name =>
    show (((objectOf t).1.get? name).getD .unknown).Arranged U
    cases hget : (objectOf t).1.get? name with
    | none => exact .unknown
    | some u => exact arranged_objectOf h (name, u) (Entries.mem_of_get?_eq_some hget)
  | wildcard =>
    show (itemOf t).Arranged U
    rw [itemOf]
    split
    · next item key origin hkind =>
      cases h with
      | mk _ _ hparts =>
        have hkind : _ = Kind.array (some item) key none origin := hkind
        subst hkind
        exact hparts item (by simp [Kind.parts])
    · exact .unknown

/-- A changed item or property keeps a type arranged. -/
theorem arranged_descend {segment : Segment} {change : Ty → Ty} (h : t.Arranged U)
    (hchange : (change (t.behind segment)).Arranged U) : (descend segment change t).Arranged U := by
  cases segment with
  | wildcard =>
    refine .mk trivial nofun ?_
    intro u hu
    rw [List.mem_singleton.1 hu]
    exact hchange
  | field name =>
    refine .mk trivial nofun (List.forall_mem_map.2 ?_)
    exact Entries.forall_mem_put (arranged_objectOf h) name hchange

/-- A leaf keeps the node it arrives at arranged. -/
theorem arranged_settleLeaf (hU : ∀ ms, Ty.Alternatives ms → U ms)
    (hflat : ∀ ms, U ms → ∀ m ∈ ms, m.isUnion = false) (hleaf : leaf.Arranged U)
    (h : t.Arranged U) :
    (settleLeaf leaf t).Arranged U := by
  rw [settleLeaf]
  split
  · dsimp only
    split
    · exact (h.nullable hU hflat).place _
    · exact h.place _
  · exact hleaf

/-- A leaf at the end of a path keeps a tree arranged, if the unions that the path leads through may
have one of their lists and objects changed. -/
theorem arranged_insert (hU : ∀ ms, Ty.Alternatives ms → U ms)
    (hflat : ∀ ms, U ms → ∀ m ∈ ms, m.isUnion = false)
    (hchange : ∀ front m m' back, U (front ++ m :: back) → C (front ++ m :: back) →
      isContainer m = true → isContainer m' = true → U (front ++ m' :: back))
    (hleaf : leaf.Arranged U) {path : List Segment} (h : t.Arranged U) (halong : t.Along C path) :
    (insert leaf path t).Arranged U := by
  induction path generalizing t with
  | nil => exact arranged_settleLeaf hU hflat hleaf h
  | cons segment rest ih =>
    rw [insert]
    refine onContainer_cases ?_ ?_
    · exact arranged_descend h (ih (arranged_behind h segment) halong.behind)
    · -- the first list or object of a union, in its place among the other members
      intro front m back hkind hm
      obtain ⟨kind, slot⟩ := t
      have hkind : kind = .union (front ++ m :: back) := hkind
      subst hkind
      cases h with
      | mk _ hmembers hparts =>
        have hmem : m ∈ front ++ m :: back := List.mem_append_right _ List.mem_cons_self
        refine .mk trivial ?_ ?_
        · rintro ms ⟨⟩
          exact hchange front m _ back (hmembers _ rfl) (halong.1 _ rfl) hm
            (isContainer_descend _ _ m)
        · intro u hu
          rcases List.mem_append.1 hu with hu | hu
          · exact hparts u (List.mem_append_left _ hu)
          · rcases List.mem_cons.1 hu with rfl | hu
            · exact arranged_descend (hparts m hmem)
                (ih (arranged_behind (hparts m hmem) segment) (halong.2 m hmem))
            · exact hparts u (List.mem_append_right _ (List.mem_cons_of_mem _ hu))

end Arranged

/-! ## Unions with one list or object -/

/-- At most one of the types is a list or an object. -/
def OneContainer (ms : List Ty) : Prop := ms.countP isContainer ≤ 1

/-- A list without repetitions is a part of the list. -/
theorem distinct_sublist (ts : List Ty) : (Ty.distinct ts).Sublist ts := by
  suffices key : ∀ seen : List Ty, (ts.foldl Ty.addDistinct seen).Sublist (seen ++ ts) from key []
  induction ts with
  | nil => simp
  | cons t rest ih =>
    intro seen
    refine (ih (Ty.addDistinct seen t)).trans ?_
    cases hany : seen.any (·.same t) with
    | true =>
      rw [Ty.addDistinct_of_any hany]
      exact (List.sublist_cons_self t rest).append_left seen
    | false =>
      rw [Ty.addDistinct_of_not_any hany, List.append_assoc]
      exact List.Sublist.refl _

section OneContainer

variable {leaf t : Ty} {path : List Segment}

/-- A changed list or object counts as before. -/
theorem OneContainer.change {front back : List Ty} {m m' : Ty}
    (h : OneContainer (front ++ m :: back)) (hm : isContainer m = true)
    (hm' : isContainer m' = true) : OneContainer (front ++ m' :: back) := by
  simpa [OneContainer, List.countP_append, List.countP_cons, hm, hm'] using h

/-- A path leads through the members of a type, of which at most one is a list or an object. -/
theorem along_cons_iff {segment : Segment} {rest : List Segment} :
    t.Along OneContainer (segment :: rest) ↔
      OneContainer t.members ∧ ∀ m ∈ t.members, (m.behind segment).Along OneContainer rest := by
  rw [Ty.Along]
  refine and_congr_left fun _ => ?_
  obtain ⟨kind, slot⟩ := t
  cases kind with
  | union ms =>
    constructor
    · exact fun h => h ms rfl
    · rintro h ms ⟨⟩
      exact h
  | unknown | scalar | array | object => exact ⟨fun _ => List.countP_le_length, fun _ => nofun⟩

instance (ms : List Ty) : Decidable (OneContainer ms) := inferInstanceAs (Decidable (_ ≤ _))

/-- The path decides the question, segment by segment. -/
def decidableAlong : (path : List Segment) → (t : Ty) → Decidable (t.Along OneContainer path)
  | [], _ => isTrue trivial
  | _ :: rest, _ =>
    letI := fun t => decidableAlong rest t
    decidable_of_iff _ along_cons_iff.symm

instance (path : List Segment) (t : Ty) : Decidable (t.Along OneContainer path) :=
  decidableAlong path t

/-- What holds of members that are no unions holds of the type they make. -/
theorem along_ofMembers {ms : List Ty} (hflat : ∀ m ∈ ms, m.isUnion = false)
    (hone : OneContainer ms) {segment : Segment} {rest : List Segment}
    (h : ∀ m ∈ ms, (m.behind segment).Along OneContainer rest) :
    (Ty.ofMembers ms).Along OneContainer (segment :: rest) := by
  match ms with
  | [] => exact Ty.along_unknown _
  | [m] =>
    have hmembers : (Ty.ofMembers [m]).members = [m] :=
      Ty.members_of_not_isUnion (hflat m List.mem_cons_self)
    rw [along_cons_iff, hmembers]
    exact ⟨hone, h⟩
  | m :: m' :: rest => exact along_cons_iff.2 ⟨hone, h⟩

/-- Null may be put beside a type. -/
theorem along_nullable (hflat : ∀ m ∈ t.members, m.isUnion = false)
    (h : t.Along OneContainer path) : t.nullable.Along OneContainer path := by
  rw [Ty.nullable]
  split
  · exact h
  · cases path with
    | nil => trivial
    | cons segment rest =>
      refine Ty.Along.place ?_ _
      have hplace : (t.withRequired false).Along OneContainer (segment :: rest) := h.place _
      obtain ⟨hone, hmembers⟩ := along_cons_iff.1 hplace
      have hflat' : ∀ m ∈ (t.withRequired false).members, m.isUnion = false := by
        obtain ⟨kind, slot⟩ := t
        cases kind with
        | union ms => exact hflat
        | unknown | scalar | array | object => exact List.forall_mem_singleton.2 rfl
      -- no more than the members and null is left after repetitions have been dropped
      have hsublist := distinct_sublist ([t.withRequired false, .null].flatMap Ty.members)
      have hflatMap : [t.withRequired false, .null].flatMap Ty.members =
        (t.withRequired false).members ++ [.null] := rfl
      rw [hflatMap] at hsublist
      have hall : ∀ m ∈ (t.withRequired false).members ++ [.null], m.isUnion = false ∧
          (m.behind segment).Along OneContainer rest := by
        refine List.forall_mem_append.2 ⟨fun m hm => ⟨hflat' m hm, hmembers m hm⟩, ?_⟩
        refine List.forall_mem_singleton.2 ⟨rfl, ?_⟩
        have hnull : Ty.null.behind segment = .unknown := by cases segment <;> rfl
        rw [hnull]
        exact Ty.along_unknown rest
      refine along_ofMembers (fun m hm => (hall m (hsublist.subset hm)).1) ?_
        fun m hm => (hall m (hsublist.subset hm)).2
      refine Nat.le_trans hsublist.countP_le ?_
      rw [List.countP_append]
      exact hone

/-- A leaf that arrives at a node stands for itself, or leaves the node with null beside it. -/
theorem along_settleLeaf (hflat : ∀ m ∈ t.members, m.isUnion = false)
    (hleaf : leaf.Along OneContainer path) (h : t.Along OneContainer path) :
    (settleLeaf leaf t).Along OneContainer path := by
  rw [settleLeaf]
  split
  · dsimp only
    split
    · exact (along_nullable hflat h).place _
    · exact h.place _
  · exact hleaf

/-- A changed item or property is met by the paths that go there, and by no other. -/
theorem along_behind_descend {segment other : Segment} {change : Ty → Ty} {rest : List Segment}
    (h : (t.behind other).Along OneContainer rest)
    (hchange : segment = other → (change (t.behind segment)).Along OneContainer rest) :
    ((descend segment change t).behind other).Along OneContainer rest := by
  by_cases hsegment : segment = other
  · subst hsegment
    rw [behind_descend_self]
    exact hchange rfl
  · rcases behind_descend_of_ne hsegment change t with heq | heq
    · rw [heq]
      exact h
    · rw [heq]
      exact Ty.along_unknown rest

/-- Insertion along one path does not put a second list or object into a union on another, if the
leaf has none on the rest of it. -/
theorem along_insert {other : List Segment} (hflat : t.Arranged Ty.Several)
    (hleaf : ∀ rest, other = path ++ rest → leaf.Along OneContainer rest)
    (h : t.Along OneContainer other) : (insert leaf path t).Along OneContainer other := by
  induction path generalizing t other with
  | nil =>
    have hmembers : ∀ m ∈ t.members, m.isUnion = false :=
      fun m hm => (hflat.of_mem_members (fun ms hms => hms.2) m hm).2
    exact along_settleLeaf hmembers (hleaf other rfl) h
  | cons segment rest ih =>
    cases other with
    | nil => trivial
    | cons first others =>
      -- what the path leads to is met by the other path, if this goes the same way
      have hstep {u : Ty} (hu : u.Arranged Ty.Several)
          (halong : (u.behind first).Along OneContainer others) :
          ((descend segment (insert leaf rest) u).behind first).Along OneContainer others := by
        refine along_behind_descend halong ?_
        rintro rfl
        refine ih (arranged_behind hu segment) ?_ halong
        rintro tail rfl
        exact hleaf tail rfl
      rw [insert]
      refine onContainer_cases ?_ ?_
      · have hmembers : (descend segment (insert leaf rest) t).members =
            [descend segment (insert leaf rest) t] := by cases segment <;> rfl
        rw [along_cons_iff, hmembers]
        refine ⟨List.countP_le_length, List.forall_mem_singleton.2 ?_⟩
        exact hstep hflat h.behind
      · intro front m back hkind hm
        obtain ⟨kind, slot⟩ := t
        have hkind : kind = .union (front ++ m :: back) := hkind
        subst hkind
        obtain ⟨hone, hmembers⟩ := along_cons_iff.1 h
        have hmem : m ∈ front ++ m :: back := List.mem_append_right _ List.mem_cons_self
        refine along_cons_iff.2 ⟨hone.change hm (isContainer_descend _ _ m), ?_⟩
        intro u hu
        rcases List.mem_append.1 hu with hu | hu
        · exact hmembers u (List.mem_append_left _ hu)
        · rcases List.mem_cons.1 hu with rfl | hu
          · cases hflat with
            | mk _ _ hparts => exact hstep (hparts m hmem) (hmembers m hmem)
          · exact hmembers u (List.mem_append_right _ (List.mem_cons_of_mem _ hu))

end OneContainer

/-! ## A changed member -/

theorem isUnion_of_isContainer {t : Ty} (h : isContainer t = true) : t.isUnion = false := by
  obtain ⟨kind, slot⟩ := t
  cases kind with
  | union ms => cases h
  | unknown | scalar | array | object => rfl

/-- A list or an object equals nothing else. -/
theorem isContainer_eq_of_same {a b : Ty} (h : a.same b = true) :
    isContainer a = isContainer b := by
  obtain ⟨kind, slot⟩ := a
  obtain ⟨kind', slot'⟩ := b
  cases kind <;> cases kind' <;> first | rfl | simp [Ty.same, Kind.same] at h

/-- A changed list or object leaves the number of members, and becomes no union. -/
theorem several_change {front back : List Ty} {m m' : Ty} (h : Ty.Several (front ++ m :: back))
    (hm' : isContainer m' = true) : Ty.Several (front ++ m' :: back) := by
  obtain ⟨hlength, hflat⟩ := h
  refine ⟨by simpa using hlength, ?_⟩
  simp only [List.forall_mem_append, List.forall_mem_cons] at hflat ⊢
  exact ⟨hflat.1, isUnion_of_isContainer hm', hflat.2.2⟩

/-- The only list or object among alternatives may be changed: it can equal none of the others. -/
theorem alternatives_change {front back : List Ty} {m m' : Ty}
    (h : Ty.Alternatives (front ++ m :: back)) (hone : OneContainer (front ++ m :: back))
    (hm : isContainer m = true) (hm' : isContainer m' = true) :
    Ty.Alternatives (front ++ m' :: back) := by
  have hothers : front.countP isContainer = 0 ∧ back.countP isContainer = 0 := by
    simp only [OneContainer, List.countP_append, List.countP_cons, hm, if_true] at hone
    omega
  have hfront : ∀ u ∈ front, isContainer u = false := by
    simpa [List.countP_eq_zero] using hothers.1
  have hback : ∀ u ∈ back, isContainer u = false := by
    simpa [List.countP_eq_zero] using hothers.2
  have hsame {a b : Ty} (hne : isContainer a ≠ isContainer b) : a.same b = false :=
    Bool.eq_false_iff.2 fun heq => hne (isContainer_eq_of_same heq)
  have hseveral := several_change h.several hm'
  refine ⟨hseveral.1, hseveral.2, ?_⟩
  have hunequal := h.unequal
  simp only [List.pairwise_append, List.pairwise_cons, List.forall_mem_cons] at hunequal ⊢
  obtain ⟨hpairs, ⟨-, hpairs'⟩, hbetween⟩ := hunequal
  refine ⟨hpairs, ⟨fun u hu => hsame ?_, hpairs'⟩, fun u hu => ⟨hsame ?_, (hbetween u hu).2⟩⟩
  · rw [hm', hback u hu]
    exact Bool.noConfusion
  · rw [hm', hfront u hu]
    exact Bool.false_ne_true

/-! ## Forms -/

/-- The path of a leaf does not lead through a union with two lists or objects in the type of
another. -/
def Leaf.Passes (b a : Leaf) : Prop :=
  a.path <+: b.path → a.type.Along OneContainer (b.path.drop a.path.length)

/-- The empty form has nothing on the way of a path. -/
theorem along_root (path : List Segment) : (Ty.object [] none).Along OneContainer path := by
  cases path with
  | nil => trivial
  | cons segment rest =>
    refine ⟨nofun, List.forall_mem_singleton.2 ?_⟩
    have hunknown : (Ty.object [] none).behind segment = .unknown := by cases segment <;> rfl
    rw [hunknown]
    exact Ty.along_unknown rest

theorem arranged_root {U : List Ty → Prop} : (Ty.object [] none).Arranged U :=
  .mk trivial nofun nofun

theorem arranged_several_place {root : Ty} {leaf : Leaf} (hleaf : leaf.type.Arranged Ty.Several)
    (h : root.Arranged Ty.Several) : (place root leaf).Arranged Ty.Several :=
  arranged_insert (C := fun _ => True) (fun _ hms => hms.several) (fun _ hms => hms.2)
    (fun _ _ _ _ hms _ _ hm' => several_change hms hm') hleaf h
    (Ty.along_of_forall (fun _ => trivial) _ _)

/-- A form has unions of several types, none of them a union, if its leaves have. -/
theorem arranged_several_plant {leaves : List Leaf}
    (h : ∀ leaf ∈ leaves, leaf.type.Arranged Ty.Several) :
    (plant leaves).Arranged Ty.Several :=
  List.foldlRecOn leaves place arranged_root fun _ hroot leaf hleaf =>
    arranged_several_place (h leaf hleaf) hroot

/-- A form is well-formed if its leaves are and no path leads through a union with two lists or
objects. -/
theorem wellFormed_plant {leaves : List Leaf} (h : ∀ leaf ∈ leaves, leaf.type.WellFormed)
    (hpasses : ∀ a ∈ leaves, ∀ b ∈ leaves, b.Passes a) : (plant leaves).WellFormed := by
  -- all paths of the form stay passable while it grows
  suffices key : (plant leaves).WellFormed ∧
      ∀ b ∈ leaves, (plant leaves).Along OneContainer b.path from key.1
  refine List.foldlRecOn leaves place
    (motive := fun root => root.WellFormed ∧ ∀ b ∈ leaves, root.Along OneContainer b.path) ?_ ?_
  · exact ⟨Ty.wellFormed_iff_arranged.2 arranged_root, fun b _ => along_root b.path⟩
  · rintro root ⟨hroot, halong⟩ leaf hleaf
    have harranged := Ty.wellFormed_iff_arranged.1 hroot
    constructor
    · refine Ty.wellFormed_iff_arranged.2
        (arranged_insert (fun _ hms => hms) (fun _ hms => hms.flat) ?_
        (Ty.wellFormed_iff_arranged.1 (h leaf hleaf)) harranged (halong leaf hleaf))
      exact fun _ _ _ _ hms hone hm hm' => alternatives_change hms hone hm hm'
    · intro b hb
      refine along_insert (harranged.mono fun _ hms => hms.several) ?_ (halong b hb)
      intro rest hrest
      have hpass := hpasses leaf hleaf b hb ⟨rest, hrest.symm⟩
      rwa [hrest, List.drop_left] at hpass

/-! ## Types of fields -/

theorem isBlank_of_base? {r : Rule} {t : Ty} (h : r.base? = some t) : IsBlank t := by
  cases r with
  | named r => exact isBlank_of_baseType? h
  | object o =>
    have h : o.class_.baseType? = some t := h
    rw [RuleClass.baseType?.eq_def] at h
    split at h
    · exact isBlank_of_baseType? h
    · exact isBlank_of_baseType? h
    · cases h

theorem isBlank_of_enumeration? {catalog : Catalog} {r : Rule} {t : Ty}
    (h : r.enumeration? catalog = some t) : IsBlank t := by
  rw [Rule.enumeration?.eq_def] at h
  split at h
  · obtain ⟨e, -, rfl⟩ := Option.map_eq_some_iff.1 h
    exact isBlank_scalar _
  · cases h

/-- Rules give a blank type, before it is made nullable. -/
theorem isBlank_plainType_slots (cx : Context) (rules : List Rule) :
    IsBlank ((slots cx.catalog rules).plainType cx) := by
  refine Facts.isBlank_plainType ?_ ?_ cx
  · intro t ht
    obtain ⟨r, -, hr⟩ := List.exists_of_findSome?_eq_some ht
    exact isBlank_of_base? hr
  · intro t ht
    obtain ⟨r, -, hr⟩ := List.mem_filterMap.1 (List.mem_of_getLast? ht)
    exact isBlank_of_enumeration? hr

theorem Blank.behind_eq {kind : Kind} (h : Blank kind) (slot : Slot) (segment : Segment) :
    (Ty.mk kind slot).behind segment = .unknown := by
  cases h <;> cases segment <;> rfl

/-- Nothing is on the way of a path in a type that rules give. -/
theorem Leafy.along {t : Ty} (h : Leafy t) (path : List Segment) : t.Along OneContainer path := by
  cases path with
  | nil => trivial
  | cons segment rest =>
    rw [along_cons_iff]
    cases h with
    | @plain kind slot hkind =>
      have hmembers : (Ty.mk kind slot).members = [.mk kind slot] := by cases hkind <;> rfl
      rw [hmembers]
      refine ⟨List.countP_le_length, List.forall_mem_singleton.2 ?_⟩
      rw [hkind.behind_eq]
      exact Ty.along_unknown rest
    | @nullable kind slot hkind =>
      refine ⟨?_, List.forall_mem_cons.2 ⟨?_, List.forall_mem_singleton.2 ?_⟩⟩
      · show [Ty.mk kind {}, .null].countP isContainer ≤ 1
        rw [List.countP_cons]
        split <;> decide
      · rw [hkind.behind_eq]
        exact Ty.along_unknown rest
      · have hnull : Ty.null.behind segment = .unknown := by cases segment <;> rfl
        rw [hnull]
        exact Ty.along_unknown rest

theorem IsBlank.wellFormed {t : Ty} (h : IsBlank t) : t.WellFormed := by
  obtain ⟨kind, hkind, rfl⟩ := h
  cases hkind with
  | unknown => exact .unknown {}
  | scalar s => exact .scalar s {}
  | list => exact Ty.wellFormed_list Ty.wellFormed_unknown
  | object => exact .object none {} nofun

/-- The kind of a field is that of the declared type, or else that of the type its rules give. -/
theorem exists_type_of_leafOf {cx : Context} {key : String} {rules : RuleSet} {t : Ty}
    {confirmed : Bool} (h : leafOf cx key rules = .ok (t, confirmed)) :
    ∃ slot, t =
      .mk (rules.declared.getD ((slots cx.catalog (rulesOf rules.tokens)).type cx)).kind slot := by
  rw [leafOf, runFrom_leafType] at h
  split at h
  · cases h
  · have ht : (rules.leaf cx (slots cx.catalog (rulesOf rules.tokens))).1 = t :=
      congrArg Prod.fst (Except.ok.inj h)
    rw [← ht, RuleSet.leaf]
    dsimp only
    split
    · split <;> exact ⟨_, rfl⟩
    · split <;> exact ⟨_, rfl⟩

theorem leafy_type_slots (cx : Context) (rules : List Rule) :
    Leafy ((slots cx.catalog rules).type cx) := by
  have hblank := isBlank_plainType_slots cx rules
  rw [Facts.type]
  split
  · exact hblank.leafy_nullable
  · exact hblank.leafy

/-- The type of a field is well-formed, if a declared one is. -/
theorem wellFormed_of_leafOf {cx : Context} {key : String} {rules : RuleSet} {t : Ty}
    {confirmed : Bool} (hdeclared : ∀ d, rules.declared = some d → d.WellFormed)
    (h : leafOf cx key rules = .ok (t, confirmed)) :
    t.WellFormed := by
  have hblank := isBlank_plainType_slots cx (rulesOf rules.tokens)
  have hrules : ((slots cx.catalog (rulesOf rules.tokens)).type cx).WellFormed := by
    rw [Facts.type]
    split
    · exact hblank.wellFormed.nullable
    · exact hblank.wellFormed
  obtain ⟨slot, rfl⟩ := exists_type_of_leafOf h
  exact (Ty.wellFormed_getD hdeclared hrules).mk slot

/-! ## Rule maps -/

theorem type_of_mem_leavesAt {path : List Segment} {type : Ty} {confirmed : Bool} {leaf : Leaf}
    (h : leaf ∈ leavesAt path type confirmed) : leaf.type = type := by
  rcases List.mem_append.1 h with h | h
  · obtain ⟨sibling, -, rfl⟩ := List.mem_map.1 h
    rfl
  · rw [List.mem_singleton.1 h]

/-- No path of the map leads through a union with two lists or objects in a declared type. -/
def Passable (cx : Context) (rules : Entries RuleSet) (leaves : List Leaf) : Prop :=
  ∀ entry ∈ rules, ∀ d, entry.2.declared = some d → ∀ part, entryLeaves cx entry = .ok part →
    ∀ a ∈ part, ∀ b ∈ leaves, a.path <+: b.path → d.Along OneContainer (b.path.drop a.path.length)

section Forms

variable {cx : Context} {rules : Entries RuleSet} {leaves : List Leaf}

/-- The leaves of a map are well-formed, if the declared types are. -/
theorem wellFormed_formLeaves
    (hdeclared : ∀ entry ∈ rules, ∀ d, entry.2.declared = some d → d.WellFormed)
    (h : formLeaves cx rules = .ok leaves) : ∀ leaf ∈ leaves, leaf.type.WellFormed := by
  intro leaf hleaf
  obtain ⟨entry, hentry, part, hpart, hmem⟩ := exists_entry_of_mem h hleaf
  obtain ⟨path, type, confirmed, -, htype, rfl⟩ := entryLeaves_eq_ok hpart
  rw [type_of_mem_leavesAt hmem]
  exact wellFormed_of_leafOf (hdeclared entry hentry) htype

/-- Only declared types can be in the way of a path. -/
theorem passes_of_passable (h : formLeaves cx rules = .ok leaves)
    (hpassable : Passable cx rules leaves) : ∀ a ∈ leaves, ∀ b ∈ leaves, b.Passes a := by
  intro a ha b hb habove
  obtain ⟨entry, hentry, part, hpart, hmem⟩ := exists_entry_of_mem h ha
  obtain ⟨path, type, confirmed, -, htype, hleaves⟩ := entryLeaves_eq_ok hpart
  rw [type_of_mem_leavesAt (hleaves ▸ hmem)]
  obtain ⟨slot, rfl⟩ := exists_type_of_leafOf htype
  refine Ty.Along.place ?_ slot
  cases hd : entry.2.declared with
  | none => exact (leafy_type_slots cx _).along _
  | some d => exact hpassable entry hentry d hd part hpart a hmem b hb habove

end Forms

/-- The form of a rule map with well-formed declared types has unions of at least two types, none of
them a union, and shapes that stand alone, at every depth. No two members of a union are equal
either, so that the form is well-formed, if no path of the map leads through a union with two lists
or objects in a declared type. -/
theorem formType_wellFormed (cx : Context) (rules : Entries RuleSet)
    (hdeclared : ∀ entry ∈ rules, ∀ d, entry.2.declared = some d → d.WellFormed) (p q : Progress)
    (t : Ty) (h : runFrom (formType cx rules) p = (.ok t, q)) :
    t.Arranged Ty.Several ∧
      ∃ leaves, formLeaves cx rules = .ok leaves ∧ (Passable cx rules leaves → t.WellFormed) := by
  obtain ⟨leaves, hleaves, rfl⟩ := exists_leaves_of_formType h
  have hwf := wellFormed_formLeaves hdeclared hleaves
  refine ⟨arranged_several_plant fun leaf hleaf => ?_, leaves, hleaves, fun hpassable => ?_⟩
  · exact (Ty.wellFormed_iff_arranged.1 (hwf leaf hleaf)).mono fun _ hms => hms.several
  · exact wellFormed_plant hwf (passes_of_passable hleaves hpassable)

/-- A form with a declared union of a list, a text and null, to the items of which there are rules,
and with a declared union of two lists, beyond which no path leads. -/
def labelForm : Entries RuleSet :=
  [("labels", {
      tokens := [.text "required"]
      declared := some (.mk (.union [.list .unknown, .string, .null]) {}) }),
    ("labels.*", { tokens := [.text "nullable|string"] }),
    ("range", { tokens := [], declared := some (.mk (.union [.list .integer, .list .string]) {}) })]

theorem formType_wellFormed_labelForm : ∃ t q,
    runFrom (formType ⟨{}, {}⟩ labelForm) {} = (.ok t, q) ∧ t.WellFormed := by
  obtain ⟨leaves, hleaves⟩ : ∃ leaves, formLeaves ⟨{}, {}⟩ labelForm = .ok leaves := ⟨_, rfl⟩
  obtain ⟨q, hrun⟩ := formType_of_leaves hleaves {}
  have hdeclared : ∀ entry ∈ labelForm, ∀ d, entry.2.declared = some d → d.WellFormed := by
    refine List.forall_mem_cons.2
      ⟨?_, List.forall_mem_cons.2 ⟨nofun, List.forall_mem_singleton.2 ?_⟩⟩
    · rintro d ⟨⟩
      refine .union {} ⟨by decide, by decide, by decide +kernel⟩ ?_
      simp only [List.forall_mem_cons, List.not_mem_nil, false_implies, implies_true, and_true]
      exact ⟨Ty.wellFormed_list Ty.wellFormed_unknown, .scalar _ _, .scalar _ _⟩
    · rintro d ⟨⟩
      refine .union {} ⟨by decide, by decide, by decide +kernel⟩ ?_
      simp only [List.forall_mem_cons, List.not_mem_nil, false_implies, implies_true, and_true]
      exact ⟨Ty.wellFormed_list (.scalar _ _), Ty.wellFormed_list (.scalar _ _)⟩
  have hpassable : Passable ⟨{}, {}⟩ labelForm leaves := by
    cases hleaves
    refine List.forall_mem_cons.2
      ⟨?_, List.forall_mem_cons.2 ⟨nofun, List.forall_mem_singleton.2 ?_⟩⟩
    · rintro d ⟨⟩ part hpart
      cases hpart
      decide +kernel
    · rintro d ⟨⟩ part hpart
      cases hpart
      decide +kernel
  obtain ⟨-, leaves', hleaves', hwf⟩ := formType_wellFormed _ _ hdeclared _ _ _ hrun
  cases hleaves.symm.trans hleaves'
  exact ⟨_, q, hrun, hwf hpassable⟩

/-- A form with a declared union of two lists and null, where the items of the first are to be what
those of the second are. -/
def tagForm : Entries RuleSet :=
  [("tags",
    { tokens := [], declared := some (.mk (.union [.list .unknown, .list .string, .null]) {}) }),
    ("tags.*", { tokens := [.text "string"] })]

/-- A rule to the items turns the first of the two lists into the second, and both stay in the
union. -/
theorem formType_repeats : (∀ entry ∈ tagForm, ∀ d, entry.2.declared = some d → d.WellFormed) ∧
    ∃ t q, runFrom (formType ⟨{}, {}⟩ tagForm) {} = (.ok t, q) ∧ ¬ t.WellFormed := by
  constructor
  · refine List.forall_mem_cons.2 ⟨?_, List.forall_mem_singleton.2 nofun⟩
    rintro d ⟨⟩
    refine .union {} ⟨by decide, by decide, by decide +kernel⟩ ?_
    simp only [List.forall_mem_cons, List.not_mem_nil, false_implies, implies_true, and_true]
    exact ⟨Ty.wellFormed_list Ty.wellFormed_unknown, Ty.wellFormed_list (.scalar _ _), .scalar _ _⟩
  · obtain ⟨leaves, hleaves⟩ : ∃ leaves, formLeaves ⟨{}, {}⟩ tagForm = .ok leaves := ⟨_, rfl⟩
    obtain ⟨q, hrun⟩ := formType_of_leaves hleaves {}
    refine ⟨_, q, hrun, fun hwf => ?_⟩
    have htags :=
      (arranged_behind (Ty.wellFormed_iff_arranged.1 hwf) (.field "tags")).pairwise_members
    revert htags
    cases hleaves
    decide +kernel

end Rules

end QueryTypes
