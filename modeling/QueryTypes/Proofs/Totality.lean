import QueryTypes.Proofs.Conduct.Engine
import QueryTypes.Proofs.Forms.Faults
import QueryTypes.Proofs.Forms.Leaves

/-!
# A lenient policy never fails

Under a lenient policy every inference of queries and terms succeeds, whatever rows are kept: rows
are computed without failing, giving up goes on with a default, and parts of a term that are only
looked at cannot fail under any policy. The rules of a form say something about every field, so that
a form fails by its keys alone: with the fault of the first key that has one (`lenient_total`).
-/

set_option autoImplicit false

namespace QueryTypes

/-! ## Queries and terms -/

section Lenient

variable {cx : Context} (hlenient : cx.config.strict = false)

include hlenient

theorem givesUp_of_lenient (error : InferError) (cause : Cause) :
    Conduct.total.GivesUp cx error cause :=
  .of_lenient hlenient error (Conduct.records_failing _ cause)

/-- Kept rows may be anything, since nothing is asked of types. -/
theorem serves_of_lenient : Conduct.total.Serves cx fun _ => True := by
  refine .of_records cx.preserves_true (Conduct.records_failing _) ?_ ?_ ?_
  · rw [hlenient]
    exact nofun
  · exact fun _ _ => trivial
  · exact fun _ _ => ⟨trivial, trivial⟩

theorem total_resolveRow (chain : Chain) :
    Conduct.total.Ensures (resolveRow cx chain) fun _ => True := by
  refine ((serves_of_lenient hlenient).resolveRow _ ?_).mono fun _ _ => trivial
  exact fun _ _ _ => givesUp_of_lenient hlenient _ _

theorem total_resolveResult (chain : Chain) :
    Conduct.total.Ensures (resolveResult cx chain) fun _ => True := by
  refine ((serves_of_lenient hlenient).resolveResult _ ?_).mono fun _ _ => trivial
  exact fun _ _ _ => givesUp_of_lenient hlenient _ _

theorem total_applyStep (receiver : Ty) (step : Step) :
    Conduct.total.Ensures (applyStep cx receiver step) fun _ => True := by
  apply (serves_of_lenient hlenient).applyStep trivial
  exact fun _ _ => ⟨trivial, fun call _ types _ => .total (call types)⟩

theorem total_infer (t : Term) (env : Env) (depth : Nat) :
    Conduct.total.Ensures (t.infer cx env depth) fun _ => True :=
  ((serves_of_lenient hlenient).regular t).infer (fun _ _ => trivial) depth

end Lenient

/-! ## Forms -/

namespace Rules

/-- The fault of the first key that has one. -/
def FirstFault (rules : Entries RuleSet) (e : InferError) : Prop :=
  ∃ before entry after, rules = before ++ entry :: after ∧
    (∀ other ∈ before, ∀ e', ¬ PathFault other.1 e') ∧ PathFault entry.1 e

/-- Some key has a fault exactly if one is the first. -/
theorem exists_firstFault_iff {rules : Entries RuleSet} :
    (∃ e, FirstFault rules e) ↔ ∃ entry ∈ rules, ∃ e, PathFault entry.1 e := by
  constructor
  · rintro ⟨e, before, entry, after, rfl, -, hfault⟩
    exact ⟨entry, by simp, e, hfault⟩
  · induction rules with
    | nil => simp
    | cons entry rest ih =>
      rintro ⟨other, hother, hfault⟩
      by_cases hentry : ∃ e, PathFault entry.1 e
      · obtain ⟨e, he⟩ := hentry
        exact ⟨e, [], entry, rest, rfl, by simp, he⟩
      · rcases List.mem_cons.1 hother with rfl | hother
        · exact absurd hfault hentry
        · obtain ⟨e, before, first, after, rfl, hbefore, he⟩ := ih ⟨other, hother, hfault⟩
          refine ⟨e, entry :: before, first, after, rfl, ?_, he⟩
          exact List.forall_mem_cons.2 ⟨not_exists.1 hentry, hbefore⟩

section Lenient

variable {cx : Context} (hlenient : cx.config.strict = false)

include hlenient

theorem total_token (key : String) (f : Facts) (token : RuleToken) :
    Conduct.total.Ensures (f.token cx key token) fun _ => True := by
  cases token with
  | text s => exact .pure trivial
  | object o =>
    show Conduct.total.Ensures (f.object cx key o) _
    cases hclass : o.class_ with
    | enumeration name =>
      rw [Discipline.enumeration_eq cx key name f o hclass]
      cases cx.catalog.enumeration name with
      | ok e => exact .pure trivial
      | error source => exact .giveUp (givesUp_of_lenient hlenient _ _) _ trivial
    | inclusion =>
      rw [Facts.object, hclass]
      cases o.literals? with
      | some literals => exact .pure trivial
      | none =>
        apply Conduct.Ensures.bind (.note (Conduct.records_failing _ _) _)
        exact fun _ _ => .pure trivial
    | _ =>
      rw [Facts.object, hclass]
      exact .pure trivial

theorem exists_leafOf (key : String) (rules : RuleSet) :
    ∃ leaf, leafOf cx key rules = .ok leaf := by
  have hleaf : Conduct.total.Ensures (leafType cx key rules) fun _ => True := by
    refine Conduct.Ensures.bind (P := fun _ => True) ?_ fun _ _ => .pure trivial
    exact .foldlM (fun f _ token _ => total_token hlenient key f token) trivial
  exact hleaf.exists_ok {}

/-- An entry has leaves unless its key has a fault. -/
theorem entryLeaves_eq_error_iff {entry : String × RuleSet} {e : InferError} :
    entryLeaves cx entry = .error e ↔ PathFault entry.1 e := by
  obtain ⟨⟨leaf, confirmed⟩, hleaf⟩ := exists_leafOf hlenient entry.1 entry.2
  have hleaves : entryLeaves cx entry =
      (fun path => leavesAt path leaf confirmed) <$> parsePath entry.1 := by
    rw [entryLeaves, hleaf]
    cases parsePath entry.1 <;> rfl
  rw [hleaves, map_eq_error_iff, parsePath_eq_error_iff]

/-- A form fails with the first fault of a key, and for no other reason. -/
theorem runFrom_formType_eq_error_iff (rules : Entries RuleSet) (p : Progress) (e : InferError) :
    (runFrom (formType cx rules) p).1 = .error e ↔ FirstFault rules e := by
  have hok : ∀ entry : String × RuleSet,
      (∃ leaves, entryLeaves cx entry = .ok leaves) ↔ ∀ e', ¬ PathFault entry.1 e' := by
    intro entry
    simp only [← entryLeaves_eq_error_iff hlenient]
    cases entryLeaves cx entry with
    | error e' => simp
    | ok leaves => simp
  have hleaves : (runFrom (formType cx rules) p).1 = .error e ↔
      rules.mapM (entryLeaves cx) = .error e := by
    rw [runFrom_formType, formLeaves, map_eq_error_iff, map_eq_error_iff]
  rw [hleaves, mapM_eq_error_iff, FirstFault]
  simp only [hok, entryLeaves_eq_error_iff hlenient]

end Lenient

end Rules

/-! ## Totality -/

/-- Under a lenient policy, from every state and whatever the catalog, an expression has a type, and
a chain has a row and a result or is known to have none. The form of a rule map fails exactly if one
of its keys has a fault, with the fault of the first such key, whatever the rules say. -/
theorem lenient_total (cx : Context) (hlenient : cx.config.strict = false) (p : Progress) :
    (∀ scope e, ∃ t, (runFrom (infer cx scope e) p).1 = .ok t) ∧
      (∀ chain, ∃ row, (runFrom (resolveRow cx chain) p).1 = .ok row) ∧
      (∀ chain, ∃ result, (runFrom (resolveResult cx chain) p).1 = .ok result) ∧
      ∀ rules, ((∃ e, (runFrom (Rules.formType cx rules) p).1 = .error e) ↔
          ∃ entry ∈ rules, ∃ e, Rules.PathFault entry.1 e) ∧
        ∀ e, (runFrom (Rules.formType cx rules) p).1 = .error e ↔ Rules.FirstFault rules e := by
  refine ⟨?_, ?_, ?_, ?_⟩
  · intro scope e
    exact (total_infer hlenient (scope.term e) [] cx.config.maxDepth).exists_ok p
  · intro chain
    exact (total_resolveRow hlenient chain).exists_ok p
  · intro chain
    exact (total_resolveResult hlenient chain).exists_ok p
  · intro rules
    have hfault := Rules.runFrom_formType_eq_error_iff hlenient rules p
    constructor
    · rw [← Rules.exists_firstFault_iff]
      exact exists_congr hfault
    · exact hfault

/-- An entity that the catalog does not have, and a form with an enumeration that it does not have.
The form has two keys with a fault, of which the first counts. -/
theorem lenient_total_unknown_names :
    let cx : Context := ⟨{}, {}⟩
    let rules : Entries Rules.RuleSet :=
      [("status", { tokens := [.object { class_ := .enumeration "Status" }] }),
        ("tags..id", { tokens := [.text "string"] }), ("*", { tokens := [.text "string"] })]
    (∃ t, (runFrom (infer cx [] (.staticCall "User" "get" [])) {}).1 = .ok t) ∧
      (runFrom (Rules.formType cx rules) {}).1 = .error (.emptySegment "tags..id") := by
  intro cx rules
  obtain ⟨hinfer, -, -, hform⟩ := lenient_total cx rfl {}
  refine ⟨hinfer [] _, ?_⟩
  have hstatus : Rules.parsePath "status" = .ok [.field "status"] := by rfl
  have htags : Rules.parsePath "tags..id" = .error (.emptySegment "tags..id") := by rfl
  apply ((hform rules).2 _).2
  refine ⟨[rules[0]], rules[1], [rules[2]], rfl, ?_, Rules.parsePath_eq_error_iff.1 htags⟩
  intro other hother e' hfault
  obtain rfl := List.mem_singleton.1 hother
  exact absurd (hstatus.symm.trans (Rules.parsePath_eq_error_iff.2 hfault)) nofun

end QueryTypes
