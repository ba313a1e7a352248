import QueryTypes.Inference.Engine
import QueryTypes.Proofs.Lockstep.Basic
import QueryTypes.Proofs.Reading
import QueryTypes.Proofs.Substitution

/-!
# Types of plain expressions are sound

A plain expression is inferred without looking at the catalog: the inference returns a type, records
nothing and fails under no policy (`Term.Settled`). Every value that the expression can take is
accepted by that type (`infer_sound`).

The proof follows the evaluation. At every rule the type that is read off the types of the parts
accepts what the rule makes of their values; where the depth is spent the type is unknown, which
accepts everything.
-/

set_option autoImplicit false

namespace QueryTypes

variable {cx : Context}

/-! ## Settled terms -/

/-- The type that is inferred for a term outside any function, from nothing. -/
def Term.typeAt (cx : Context) (t : Term) (depth : Nat) : Ty :=
  match (runFrom (t.infer cx [] depth) {}).1 with
  | .ok ty => ty
  | .error _ => .unknown

/-- A term whose inference is its type and nothing else. -/
structure Term.Settled (cx : Context) (t : Term) : Prop where
  infer : ∀ depth, t.infer cx [] depth = pure (t.typeAt cx depth)
  wellKeyed : ∀ depth, (t.typeAt cx depth).WellKeyed

namespace Term

theorem typeAt_eq {t : Term} {depth : Nat} {ty : Ty} (h : t.infer cx [] depth = pure ty) :
    t.typeAt cx depth = ty := by
  rw [typeAt, h]
  rfl

theorem settled_of_infer {t : Term} (type : Nat → Ty)
    (h : ∀ depth, t.infer cx [] depth = pure (type depth))
    (hkeyed : ∀ depth, (type depth).WellKeyed) : t.Settled cx where
  infer depth := by rw [typeAt_eq (h depth), h depth]
  wellKeyed depth := by rw [typeAt_eq (h depth)]; exact hkeyed depth

@[simp] theorem typeAt_zero (t : Term) : t.typeAt cx 0 = .unknown := typeAt_eq (t.infer_zero cx [])

/-- A term is settled if it is above depth zero, where every term is unknown. -/
theorem settled_of_infer_succ {t : Term} (type : Nat → Ty)
    (h : ∀ depth, t.infer cx [] (depth + 1) = pure (type depth))
    (hkeyed : ∀ depth, (type depth).WellKeyed) : t.Settled cx := by
  refine settled_of_infer (fun depth => match depth with | 0 => .unknown | d + 1 => type d) ?_ ?_
  · intro depth
    cases depth with
    | zero => exact t.infer_zero cx []
    | succ depth => exact h depth
  · intro depth
    cases depth with
    | zero => exact Ty.wellKeyed_unknown
    | succ depth => exact hkeyed depth

theorem Settled.degrade {t : Term} (h : t.Settled cx) :
    degrade (t.infer cx [] cx.config.maxDepth) = pure (t.typeAt cx cx.config.maxDepth) := by
  rw [h.infer]
  rfl

theorem settled_unknown : Term.unknown.Settled cx :=
  settled_of_infer_succ (fun _ => .unknown) (fun _ => rfl) fun _ => Ty.wellKeyed_unknown

theorem settled_known {ty : Ty} (h : ty.WellKeyed) : (Term.known ty).Settled cx :=
  settled_of_infer_succ (fun _ => ty) (fun _ => rfl) fun _ => h

section Index

variable {target key : Term}

theorem infer_index (htarget : target.Settled cx) (hkey : key.Settled cx) (depth : Nat) :
    (Term.index target key).infer cx [] (depth + 1) =
      pure (Reading.entry (target.typeAt cx cx.config.maxDepth)
        (key.typeAt cx cx.config.maxDepth)) := by
  rw [Term.infer, htarget.degrade, hkey.degrade]
  rfl

theorem settled_index (htarget : target.Settled cx) (hkey : key.Settled cx) :
    (Term.index target key).Settled cx :=
  settled_of_infer_succ _ (infer_index htarget hkey)
    fun _ => Reading.wellKeyed_entry (htarget.wellKeyed _) _

theorem infer_property (htarget : target.Settled cx) (name : String) (depth : Nat) :
    (Term.property target name).infer cx [] (depth + 1) =
      pure ((target.typeAt cx cx.config.maxDepth).field name) := by
  rw [Term.infer, htarget.degrade]
  rfl

theorem settled_property (htarget : target.Settled cx) (name : String) :
    (Term.property target name).Settled cx :=
  settled_of_infer_succ _ (infer_property htarget name) fun _ => (htarget.wellKeyed _).field name

end Index

section Branches

variable {arms : List Term}

theorem inferArms_of_settled (h : ∀ t ∈ arms, t.Settled cx) (depth : Nat) :
    Term.inferArms cx arms [] depth = pure (arms.map fun t => t.typeAt cx depth) := by
  rw [Term.inferArms_eq_mapM, mapM_congr fun t ht => (h t ht).infer depth]
  exact List.mapM_pure

theorem infer_branches (h : ∀ t ∈ arms, t.Settled cx) (depth : Nat) :
    (Term.branches arms).infer cx [] (depth + 1) =
      pure (.union (arms.map fun t => t.typeAt cx depth)) := by
  rw [Term.infer, inferArms_of_settled h]
  rfl

theorem wellKeyed_arms (h : ∀ t ∈ arms, t.Settled cx) (depth : Nat) :
    ∀ ty ∈ arms.map (fun t => t.typeAt cx depth), ty.WellKeyed := by
  intro ty hty
  obtain ⟨t, ht, rfl⟩ := List.mem_map.1 hty
  exact (h t ht).wellKeyed depth

theorem settled_branches (h : ∀ t ∈ arms, t.Settled cx) : (Term.branches arms).Settled cx :=
  settled_of_infer_succ _ (infer_branches h) fun depth =>
    Ty.wellKeyed_union (wellKeyed_arms h depth)

end Branches

end Term

/-- What has been read of an array literal after an entry. -/
def TermItem.read (cx : Context) (st : Reading.ArrayState) : TermItem → Reading.ArrayState
  | .positional value => Reading.positional (m := Id) st (value.typeAt cx cx.config.maxDepth)
  | .keyed key value =>
    Reading.keyed (m := Id) st (key.typeAt cx cx.config.maxDepth)
      (value.typeAt cx cx.config.maxDepth)

namespace Term

section Array

variable {items : List TermItem}

theorem inferItems_of_settled (h : ∀ i ∈ items, ∀ t ∈ i.parts, t.Settled cx)
    (st : Reading.ArrayState) :
    Term.inferItems cx items [] st = pure (items.foldl (TermItem.read cx) st) := by
  have hread (st : Reading.ArrayState) (i : TermItem) (hi : i ∈ items) :
      TermItem.infer cx [] st i = pure (TermItem.read cx st i) := by
    cases i with
    | positional value =>
      rw [TermItem.infer, (h _ hi value (by simp [TermItem.parts])).degrade]
      rfl
    | keyed key value =>
      rw [TermItem.infer, (h _ hi key (by simp [TermItem.parts])).degrade,
        (h _ hi value (by simp [TermItem.parts])).degrade, Reading.ArrayState.keyed_pure]
      rfl
  rw [Term.inferItems_eq_foldlM, foldlM_congr hread, List.foldlM_pure]

theorem infer_array (h : ∀ i ∈ items, ∀ t ∈ i.parts, t.Settled cx) (depth : Nat) :
    (Term.array items).infer cx [] (depth + 1) = pure (items.foldl (TermItem.read cx) {}).type := by
  rw [Term.infer, inferItems_of_settled h]
  rfl

theorem wellKeyed_foldl_read (h : ∀ i ∈ items, ∀ t ∈ i.parts, t.Settled cx)
    {st : Reading.ArrayState} (hst : st.WellKeyed) :
    (items.foldl (TermItem.read cx) st).WellKeyed := by
  induction items generalizing st with
  | nil => exact hst
  | cons item rest ih =>
    have hitem := h item List.mem_cons_self
    refine ih (fun i hi => h i (List.mem_cons_of_mem _ hi)) ?_
    cases item with
    | positional value =>
      exact hst.positional ((hitem value (by simp [TermItem.parts])).wellKeyed _)
    | keyed key value =>
      exact hst.keyed ((hitem key (by simp [TermItem.parts])).wellKeyed _)
        ((hitem value (by simp [TermItem.parts])).wellKeyed _)

theorem settled_array (h : ∀ i ∈ items, ∀ t ∈ i.parts, t.Settled cx) :
    (Term.array items).Settled cx :=
  settled_of_infer_succ _ (infer_array h)
    fun _ => (wellKeyed_foldl_read h Reading.ArrayState.wellKeyed_empty).type

end Array

end Term

/-! ## Plain expressions are settled -/

theorem Item.parts_link (defs : Definitions) (params : List String) (i : Item) :
    (i.link defs params).parts = i.parts.map (Expr.link defs params) := by
  cases i with
  | positional value => rfl
  | keyed key value => rfl

/-- What holds of the terms of all parts of an array literal holds of the parts of its term. -/
theorem Item.forall_parts_link {P : Term → Prop} {defs : Definitions} {params : List String}
    {items : List Item} (h : ∀ i ∈ items, ∀ e ∈ i.parts, P (e.link defs params)) :
    ∀ i ∈ items.map (Item.link defs params), ∀ t ∈ i.parts, P t := by
  intro i hi t ht
  obtain ⟨item, hitem, rfl⟩ := List.mem_map.1 hi
  rw [Item.parts_link] at ht
  obtain ⟨e, he, rfl⟩ := List.mem_map.1 ht
  exact h item hitem e he

theorem Expr.Plain.settled {e : Expr} (h : e.Plain) {defs : Definitions}
    (hdefs : ∀ d ∈ defs, d.2.Settled cx) : (e.link defs []).Settled cx := by
  induction h with
  | literal hj => exact Term.settled_known hj.wellKeyed_ofJson
  | typed ht => exact Term.settled_known ht
  | var x =>
    rw [Expr.link, if_neg List.not_mem_nil]
    -- a definition was linked when it was made, so it is settled whatever follows it
    cases hlookup : defs.lookup x with
    | none => exact Term.settled_unknown
    | some t =>
      obtain ⟨later, earlier, rfl, -⟩ := List.lookup_eq_some_iff.1 hlookup
      exact hdefs (x, t) (List.mem_append_right _ List.mem_cons_self)
  | branches _ ih =>
    rw [Expr.link, Expr.linkList_eq_map]
    refine Term.settled_branches fun t ht => ?_
    obtain ⟨e, he, rfl⟩ := List.mem_map.1 ht
    exact ih e he
  | property name _ ih => exact Term.settled_property ih name
  | index _ _ ihtarget ihkey => exact Term.settled_index ihtarget ihkey
  | array _ _ ih =>
    rw [Expr.link, Expr.linkItems_eq_map]
    exact Term.settled_array (Item.forall_parts_link ih)

theorem Scope.Plain.settled_definitions {s : Scope} (h : s.Plain) :
    ∀ d ∈ s.definitions, d.2.Settled cx := by
  induction s using List.reverseRecOn with
  | nil => exact fun d hd => absurd hd List.not_mem_nil
  | append_singleton s a ih =>
    have hs := ih fun b hb => h b (List.mem_append_left _ hb)
    have ha : a.value.Plain := h a (List.mem_append_right _ List.mem_cons_self)
    have hassign : s ++ [a] = Scope.assign s a.name a.value := rfl
    rw [hassign, Scope.definitions_assign, List.forall_mem_cons]
    exact ⟨ha.settled hs, hs⟩

theorem Scope.term_property (s : Scope) (target : Expr) (name : String) :
    s.term (.property target name) = .property (s.term target) name := rfl

theorem Scope.term_index (s : Scope) (target key : Expr) :
    s.term (.index target key) = .index (s.term target) (s.term key) := rfl

theorem Scope.term_branches (s : Scope) (arms : List Expr) :
    s.term (.branches arms) = .branches (arms.map s.term) := by
  rw [Scope.term, Expr.link, Expr.linkList_eq_map]
  rfl

theorem Scope.term_array (s : Scope) (items : List Item) :
    s.term (.array items) = .array (items.map (Item.link s.definitions [])) := by
  rw [Scope.term, Expr.link, Expr.linkItems_eq_map]

theorem Scope.Plain.settled_term {s : Scope} (hs : s.Plain) {e : Expr} (he : e.Plain) :
    (s.term e).Settled cx :=
  he.settled hs.settled_definitions

/-! ## Soundness -/

section Sound

variable {F : Facets} {s : Scope}

/-- Where the depth is spent nothing is left to show. -/
theorem Term.accepts_typeAt {t : Term} {v : Value}
    (h : ∀ depth, (t.typeAt cx (depth + 1)).Accepts F v) (depth : Nat) :
    (t.typeAt cx depth).Accepts F v := by
  cases depth with
  | zero =>
    rw [Term.typeAt_zero]
    exact Ty.accepts_unknown v
  | succ depth => exact h depth

/-- The type of an array literal accepts the record that its entries describe. -/
theorem accepts_array {items : List Item} (hs : s.Plain) (hitems : (Expr.array items).Plain)
    {es : List (String × Value)}
    (h : (items.foldl (fun st i => TermItem.read cx st (i.link s.definitions []))
      {}).Describes F es)
    (depth : Nat) : ((s.term (.array items)).typeAt cx (depth + 1)).Accepts F (.record es) := by
  have hparts : ∀ i ∈ items.map (Item.link s.definitions []), ∀ t ∈ i.parts, t.Settled cx := by
    cases hitems with
    | array _ hplain =>
      exact Item.forall_parts_link fun i hi e he => hs.settled_term (hplain i hi e he)
  have hread := Term.wellKeyed_foldl_read hparts Reading.ArrayState.wellKeyed_empty
  rw [Scope.term_array, Term.typeAt_eq (Term.infer_array hparts depth)]
  refine Reading.ArrayState.Describes.accepts_type ?_ hread
  rw [List.foldl_map]
  exact h

/-- Array literals that have a value for every position have few enough of them. -/
theorem length_le_of_plain (es : List Expr) (h : (Expr.array (es.map .positional)).Plain) :
    es.length ≤ Numeral.positionBound := by
  cases h with
  | array huniform _ =>
    rcases huniform with ⟨hlength, -⟩ | hkeyed
    · rwa [List.length_map] at hlength
    · cases es with
      | nil => exact Nat.zero_le _
      | cons e rest =>
        obtain ⟨key, value, heq⟩ := hkeyed (.positional e) List.mem_cons_self
        exact absurd heq (by simp)

/-- Whatever the depth, the type of a plain expression accepts every value the expression takes. -/
theorem Evaluates.accepts {e : Expr} {v : Value} (h : Evaluates F s e v) (hs : s.Plain)
    (he : e.Plain) (depth : Nat) : ((s.term e).typeAt cx depth).Accepts F v := by
  induction h generalizing depth with
  | literal s j =>
    cases he with
    | literal hj => exact Term.accepts_typeAt (fun _ => hj.accepts_ofJson) depth
  | typed s ht => exact Term.accepts_typeAt (fun _ => ht) depth
  | bound hlookup _ ih =>
    -- the scope is cut at the assignment on both sides
    obtain ⟨hs', he'⟩ := hs.of_lookup? hlookup
    rw [Scope.term_var, hlookup]
    exact ih hs' he' depth
  | unbound v hlookup =>
    rw [Scope.term_var, hlookup]
    exact Term.accepts_typeAt (fun _ => Ty.accepts_unknown v) depth
  | @branch s arms e v hmem _ ih =>
    cases he with
    | branches harms =>
    have hsettled : ∀ t ∈ arms.map s.term, t.Settled cx := by
      intro t ht
      obtain ⟨e, he, rfl⟩ := List.mem_map.1 ht
      exact hs.settled_term (harms e he)
    -- an arm has one level less; where none is left it is unknown and accepts the value anyway
    refine Term.accepts_typeAt (fun depth => ?_) depth
    rw [Scope.term_branches, Term.typeAt_eq (Term.infer_branches hsettled depth)]
    refine Ty.accepts_union_of_mem (Term.wellKeyed_arms hsettled depth) ?_
      (ih hs (harms e hmem) depth)
    exact List.mem_map_of_mem (List.mem_map_of_mem hmem)
  | @property s target es name v _ hget ih =>
    cases he with
    | property _ htarget =>
    have hsettled : (s.term target).Settled cx := hs.settled_term htarget
    refine Term.accepts_typeAt (fun depth => ?_) depth
    rw [Scope.term_property, Term.typeAt_eq (Term.infer_property hsettled name depth)]
    exact Ty.accepts_field (hsettled.wellKeyed _) (ih hs htarget _)
      (Entries.mem_of_get?_eq_some hget)
  | @index s target key es k name v _ _ hname hget ihtarget ihkey =>
    cases he with
    | index htarget hkey =>
    have hsettled : (s.term target).Settled cx := hs.settled_term htarget
    refine Term.accepts_typeAt (fun depth => ?_) depth
    rw [Scope.term_index,
      Term.typeAt_eq (Term.infer_index hsettled (hs.settled_term hkey) depth)]
    exact Reading.accepts_entry (hsettled.wellKeyed _) (ihtarget hs htarget _)
      (ihkey hs hkey _) hname
      (Entries.mem_of_get?_eq_some hget)
  | @list s items _ ih =>
    have hparts : ∀ i ∈ items, i.1.Plain := by
      intro i hi
      cases he with
      | array _ hplain =>
        exact hplain _ (List.mem_map_of_mem hi) i.1 (by simp [Item.parts])
    have hlength : 0 + items.length ≤ Numeral.positionBound := by
      have hle := length_le_of_plain (items.map Prod.fst) (by rwa [List.map_map])
      rwa [List.length_map, ← Nat.zero_add items.length] at hle
    have hdescribes := Reading.ArrayState.describes_empty.foldl_positional items
      (fun i => (s.term i.1).typeAt cx cx.config.maxDepth) Prod.snd
      (fun i hi => ih i hi hs (hparts i hi) _) rfl hlength
    -- positions are distinct, so the record is the one that the entries were put into
    refine Term.accepts_typeAt (fun depth => accepts_array hs he ?_ depth) depth
    rw [List.foldl_map, ← Value.ofList_positions]
    exact hdescribes
  | @map s entries _ hname _ ihkey ihvalue =>
    have hparts : ∀ e ∈ entries, e.key.Plain ∧ e.value.Plain := by
      intro e hmem
      cases he with
      | array _ hplain =>
        have hitem := hplain _ (List.mem_map_of_mem hmem)
        exact ⟨hitem e.key (by simp [Item.parts]), hitem e.value (by simp [Item.parts])⟩
    have hdescribes := Reading.ArrayState.describes_empty.foldl_keyed entries
      (fun e => (s.term e.key).typeAt cx cx.config.maxDepth)
      (fun e => (s.term e.value).typeAt cx cx.config.maxDepth) EvaluatedEntry.keyValue
      EvaluatedEntry.result EvaluatedEntry.name (fun e he => ihkey e he hs (hparts e he).1 _) hname
      (fun e he => ihvalue e he hs (hparts e he).2 _)
    refine Term.accepts_typeAt (fun depth => accepts_array hs he ?_ depth) depth
    rw [List.foldl_map, Entries.ofList, List.foldl_map]
    exact hdescribes

end Sound

/-- Inferring a plain expression in a scope of plain expressions returns a type and records nothing,
whatever the policy and the catalog, and the type accepts every value that the expression can
take. -/
theorem infer_sound (F : Facets) (cx : Context) (s : Scope) (e : Expr) (hs : s.Plain) (he : e.Plain)
    (p : Progress) :
    ∃ t, runFrom (infer cx s e) p = (.ok t, p) ∧ ∀ v, Evaluates F s e v → t.Accepts F v := by
  have hsettled : (s.term e).Settled cx := hs.settled_term he
  refine ⟨(s.term e).typeAt cx cx.config.maxDepth, ?_, ?_⟩
  · rw [infer, hsettled.infer, runFrom_pure]
  · intro v hv
    exact hv.accepts hs he cx.config.maxDepth

/-- An entry of a map whose key is a string or null, depending on the control flow: where the map
has a value at all, the entry is there. -/
theorem infer_sound_nullable_key :
    let F : Facets := ⟨fun _ _ => True, fun _ _ => True, fun _ => True⟩
    let s : Scope := [⟨"k", .branches [.literal (.str "id"), .literal .null]⟩,
      ⟨"row", .array [.keyed (.var "k") (.branches [.literal (.int 1), .typed .string])]⟩]
    let e : Expr := .index (.var "row") (.literal (.str "id"))
    s.Plain ∧ e.Plain ∧ Evaluates F s e (.int 1) ∧ Evaluates F s e (.str "none") ∧
      ∃ t, runFrom (infer ⟨{}, {}⟩ s e) {} = (.ok t, {}) ∧ ∀ v, Evaluates F s e v →
        t.Accepts F v := by
  intro F s e
  have hs : s.Plain := by
    intro a ha
    rcases List.mem_cons.1 ha with rfl | ha
    · refine .branches fun e he => ?_
      rcases List.mem_cons.1 he with rfl | he
      · exact .literal (.str "id")
      · rw [List.mem_singleton.1 he]
        exact .literal .null
    · rw [List.mem_singleton.1 ha]
      refine .array (.inr fun i hi => ⟨_, _, List.mem_singleton.1 hi⟩) fun i hi e he => ?_
      rw [List.mem_singleton.1 hi] at he
      rcases List.mem_cons.1 he with rfl | he
      · exact .var "k"
      · rw [List.mem_singleton.1 he]
        refine .branches fun e he => ?_
        rcases List.mem_cons.1 he with rfl | he
        · exact .literal (.int 1 (by decide))
        · rw [List.mem_singleton.1 he]
          exact .typed (.scalar _ _)
  have he : e.Plain := .index (.var "row") (.literal (.str "id"))
  have hkey : Evaluates F (s.upTo 1) (.var "k") (.str "id") :=
    .bound rfl (.branch List.mem_cons_self (.literal [] (.str "id")))
  have hentry (v : Value) (hv : Evaluates F (s.upTo 1)
      (.branches [.literal (.int 1), .typed .string]) v) : Evaluates F s e v := by
    refine .index (.bound rfl (.map [⟨.var "k", _, .str "id", "id", v⟩] ?_ ?_ ?_))
      (.literal s (.str "id")) rfl rfl
    · exact List.forall_mem_singleton.2 hkey
    · exact List.forall_mem_singleton.2 rfl
    · exact List.forall_mem_singleton.2 hv
  refine ⟨hs, he, hentry _ ?_, hentry _ ?_, infer_sound F ⟨{}, {}⟩ s e hs he {}⟩
  · exact .branch List.mem_cons_self (.literal _ (.int 1))
  · exact .branch (List.mem_cons_of_mem _ List.mem_cons_self)
      (.typed _ (Ty.accepts_scalar_of_fits rfl))

end QueryTypes
