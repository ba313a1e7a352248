import QueryTypes.Proofs.ArrayKeys
import QueryTypes.Proofs.Loading.Attaching
import QueryTypes.Proofs.Projections.Agreement
import QueryTypes.Proofs.Projections.Choices

/-!
# Arrays of relations

The relations that a query loads can be listed in an array. An entry is a path, or a path as a key
with a function that constrains what is loaded (`LoadEntry`). Arrays of paths alone name all of them
(`argumentPaths_of_paths`), and every key other than a numeral is a path, too
(`mem_argumentPaths_of_key`). But a function is no string, so that in an array with both kinds of
entries the paths without a function are positions of unknown meaning, and they are not loaded
(`mixed_array_not_loaded`).

Every relation that is named and shown is a property of the row, under any policy
(`row_loads_array`).
-/

set_option autoImplicit false

namespace QueryTypes

/-! ## Entries -/

/-- An entry of an array of relations. -/
inductive LoadEntry where
  /-- A path. -/
  | path (text : String)
  /-- A path with a function that constrains what is loaded. -/
  | constrained (text : String) (params : List String) (body : Expr)

namespace LoadEntry

/-- The path of an entry. -/
def text : LoadEntry → String
  | .path text | .constrained text _ _ => text

/-- The key that an entry is written with. -/
def key? : LoadEntry → Option String
  | .path _ => none
  | .constrained text _ _ => some text

/-- The entry as it is written. -/
def item : LoadEntry → Item
  | .path text => .positional (.literal (.str text))
  | .constrained text params body => .keyed (.literal (.str text)) (.closure params body)

/-- What is read of the entry. -/
def entry : LoadEntry → EntryKey × Ty
  | .path text => (.next, .ofJson (.str text))
  | .constrained text _ _ => (.text text, .unknown)

/-- The entry is read as a path: its key is not a numeral, or no entry has a key. -/
def ReadIn (entries : List LoadEntry) (e : LoadEntry) : Prop :=
  (∃ key, e.key? = some key ∧ Numeral.readNat64? key = none) ∨ ∀ e' ∈ entries, e'.key? = none

end LoadEntry

section Typing

variable {defs : Definitions} {params : List String} {env : Env} {type : Expr → Ty}

theorem Expr.Typing.literal (h : Typing defs params env type) (value : Json) :
    type (.literal value) = .ofJson value := by
  cases h with
  | reading => rfl
  | @inference cx hdepth p =>
    obtain ⟨depth, hdepth⟩ := Nat.exists_eq_succ_of_ne_zero hdepth
    simp only [Term.typeIn, hdepth]
    rfl

theorem Expr.Typing.closure (h : Typing defs params env type) (own : List String) (body : Expr) :
    type (.closure own body) = .unknown := by
  cases h with
  | reading => rfl
  | @inference cx hdepth p =>
    obtain ⟨depth, hdepth⟩ := Nat.exists_eq_succ_of_ne_zero hdepth
    simp only [Term.typeIn, hdepth]
    rfl

/-- The type of an array of relations. -/
theorem Expr.Typing.loadArray (h : Typing defs params env type) (entries : List LoadEntry) :
    type (.array (entries.map LoadEntry.item)) =
      .shape (Reading.ArrayState.ofEntries (entries.map LoadEntry.entry)).shape := by
  apply h.array
  have hentry (e : LoadEntry) : e.item.entry? type = some e.entry := by
    cases e with
    | path text => rw [LoadEntry.item, Item.entry?, h.literal, LoadEntry.entry]
    | constrained text own body =>
      rw [LoadEntry.item, Item.entry?, h.literal, h.closure]
      rfl
  induction entries with
  | nil => rfl
  | cons e rest ih =>
    rw [List.map_cons, List.mapM_cons, hentry, ih]
    rfl

end Typing

/-! ## Paths alone -/

theorem Ty.alternatives_string (s : String) : (Ty.ofJson (.str s)).alternatives = [[s]] := rfl

theorem Projection.choices?_strings (texts : List String) :
    choices? (texts.map fun s => Ty.ofJson (.str s)) = some [texts] := by
  induction texts with
  | nil => rfl
  | cons s rest ih =>
    rw [List.map_cons, choices?, Ty.alternatives_string, ih]
    rfl

open Reading

theorem argumentPaths_of_paths {entries : List LoadEntry} (h : ∀ e ∈ entries, e.key? = none)
    (hlength : entries.length ≤ Numeral.positionBound) :
    RelationTree.argumentPaths (.shape (ArrayState.ofEntries (entries.map LoadEntry.entry)).shape) =
      entries.map LoadEntry.text := by
  have hentries : entries.map LoadEntry.entry =
      (entries.map fun e => Ty.ofJson (.str e.text)).map fun t => (.next, t) := by
    rw [List.map_map]
    apply List.map_congr_left
    intro e he
    cases e with
    | path text => rfl
    | constrained text own body => exact nomatch h _ he
  have hlisted : (ArrayState.ofEntries (entries.map LoadEntry.entry)).Listed
      (entries.map fun e => Ty.ofJson (.str e.text)) := by
    rw [hentries]
    exact ArrayState.listed_ofEntries (by simpa using hlength)
  have hchoices : Projection.choices?
      (ArrayState.ofEntries (entries.map LoadEntry.entry)).shape.values =
      some [entries.map LoadEntry.text] := by
    rw [hlisted.values, Projection.choices?_map_withRequired, ← Projection.choices?_strings,
      List.map_map]
    rfl
  have halternatives :
      (Ty.shape (ArrayState.ofEntries (entries.map LoadEntry.entry)).shape).alternatives =
      [entries.map LoadEntry.text] := by
    rw [Projection.alternatives_shape, hchoices]
    rfl
  rw [RelationTree.argumentPaths, halternatives]
  simp

/-! ## Keys -/

/-- What has been read of an array of relations, as far as keys other than numerals go: the
positions are counted, and the keys are those of functions. -/
structure KeysOf (st : ArrayState) (entries : List LoadEntry) : Prop where
  next : st.next = Int64.ofNat (entries.countP (·.key?.isNone))
  found : ∀ key, Numeral.readNat64? key = none → (∃ e ∈ entries, e.key? = some key) →
    st.shape.get? key = some (Ty.unknown.withRequired true)

theorem KeysOf.snoc {st : ArrayState} {entries : List LoadEntry} (h : KeysOf st entries)
    (e : LoadEntry) (hlength : entries.length < Numeral.positionBound) :
    KeysOf (st.enter e.entry) (entries ++ [e]) := by
  cases e with
  | path text =>
    have hcount := entries.countP_le_length (p := fun e => e.key?.isNone)
    -- the position of the entry is a numeral
    have hposition : toString st.next.toInt = toString (entries.countP (·.key?.isNone)) := by
      rw [h.next, Numeral.toString_toInt_ofNat (by omega)]
    constructor
    · show st.next + 1 = _
      rw [h.next, List.countP_append, Int64.ofNat_add]
      rfl
    · intro key hkey hmem
      have hne : toString st.next.toInt ≠ key := by
        rintro rfl
        rw [hposition, Numeral.readNat64?_toString_of_lt_positionBound (by omega)] at hkey
        cases hkey
      have hold : ∃ e ∈ entries, e.key? = some key := by simpa [LoadEntry.key?] using hmem
      rw [← h.found key hkey hold]
      exact Entries.get?_put_of_ne _ _ hne
  | constrained text own body =>
    constructor
    · rw [List.countP_append]
      exact h.next
    · intro key hkey hmem
      by_cases htext : text = key
      · subst htext
        exact Entries.get?_put_self _ _ _
      · have hold : ∃ e ∈ entries, e.key? = some key := by simpa [LoadEntry.key?, htext] using hmem
        rw [← h.found key hkey hold]
        exact Entries.get?_put_of_ne _ _ htext

theorem keysOf_ofEntries {entries : List LoadEntry}
    (hlength : entries.length ≤ Numeral.positionBound) :
    KeysOf (ArrayState.ofEntries (entries.map LoadEntry.entry)) entries := by
  induction entries using List.reverseRecOn with
  | nil => exact ⟨rfl, fun _ _ h => absurd h (by simp)⟩
  | append_singleton entries e ih =>
    rw [List.length_append, List.length_singleton] at hlength
    rw [List.map_append, List.map_singleton, ArrayState.ofEntries_append_singleton]
    exact (ih (by omega)).snoc e (by omega)

/-- A key other than a numeral names a path. -/
theorem mem_argumentPaths_of_key {entries : List LoadEntry}
    (hlength : entries.length ≤ Numeral.positionBound) {key : String}
    (hkey : Numeral.readNat64? key = none) (hmem : ∃ e ∈ entries, e.key? = some key) :
    key ∈ RelationTree.argumentPaths
      (.shape (ArrayState.ofEntries (entries.map LoadEntry.entry)).shape) := by
  have hfound := (keysOf_ofEntries hlength).found key hkey hmem
  have hentry := Entries.mem_of_get?_eq_some hfound
  -- the value is a function, so that the array stands for no strings
  have hvalue : (Ty.unknown.withRequired true) ∈
      (ArrayState.ofEntries (entries.map LoadEntry.entry)).shape.values :=
    List.mem_map_of_mem hentry
  have hchoices : Projection.choices?
      (ArrayState.ofEntries (entries.map LoadEntry.entry)).shape.values =
      none := Projection.choices?_eq_none_iff.2 ⟨_, hvalue, rfl⟩
  have hnil : (Ty.shape (ArrayState.ofEntries (entries.map LoadEntry.entry)).shape).alternatives =
      [] := by
    rw [Projection.alternatives_shape, hchoices]
    rfl
  rw [RelationTree.argumentPaths, hnil]
  exact List.mem_filter.2 ⟨List.mem_map_of_mem hentry, by simp [hkey]⟩

/-- Entries that are read as paths are paths of the argument. -/
theorem LoadEntry.ReadIn.mem_argumentPaths {entries : List LoadEntry} {e : LoadEntry}
    (h : e.ReadIn entries) (he : e ∈ entries) (hlength : entries.length ≤ Numeral.positionBound) :
    e.text ∈ RelationTree.argumentPaths
      (.shape (ArrayState.ofEntries (entries.map LoadEntry.entry)).shape) := by
  rcases h with ⟨key, hkey, hnumeral⟩ | hpaths
  · have htext : e.text = key := by
      cases e with
      | path text => cases hkey
      | constrained text own body => exact Option.some.inj hkey
    rw [htext]
    exact mem_argumentPaths_of_key hlength hnumeral ⟨e, he, hkey⟩
  · rw [argumentPaths_of_paths hpaths hlength]
    exact List.mem_map_of_mem he

/-! ## Rows -/

/-- The rows of a chain have the relations that its calls load, if these are shown. -/
theorem row_has_loaded {cx : Context} (hdepth : cx.config.maxDepth ≠ 0) {entity : String}
    {steps : List Step} {p : Progress} (hp : p.rows.Sound cx.catalog) {row : Ty}
    (h : (runFrom (resolveRow cx ⟨some entity, steps⟩) p).1 = .ok (some row)) :
    ∃ rows, rows ≠ [] ∧ row = .union rows ∧
      ∀ r ∈ rows, ∃ properties, r = .object properties (some entity) ∧
        ∀ name, (∃ call ∈ steps, call.Loads name) →
          (cx.catalog.shownRelation? entity name).isSome = true →
            name ∈ Entries.keys properties := by
  have hrow := eq_chainRow?_of_ok hdepth hp h
  obtain ⟨depth, hsucc⟩ := Nat.exists_eq_succ_of_ne_zero hdepth
  rw [chainRow?] at hrow
  cases hmisuse : misuse? cx steps with
  | some what =>
    rw [hmisuse] at hrow
    cases hrow
  | none =>
    rw [hmisuse] at hrow
    refine ⟨_, ?_, Option.some.inj hrow, ?_⟩
    · -- there is a row for each variant
      rw [ne_eq, List.map_eq_nil_iff]
      exact Selection.variants_ofSteps_ne_nil steps
    · rw [List.forall_mem_map, hsucc]
      intro v _
      refine ⟨_, rfl, ?_⟩
      intro name hname hshown
      obtain ⟨r, hr⟩ := Option.isSome_iff_exists.1 hshown
      obtain ⟨hallows, hrelation⟩ := Catalog.shownRelation?_eq_some.1 hr
      have hloaded := (Selection.mem_keys_relations_ofSteps steps).2 hname
      rw [Entries.keys_mapValues, mem_keys_rowLayout]
      exact ⟨hallows, .inr (.inr ⟨hloaded, hrelation ▸ rfl⟩)⟩

/-- A call that is given an array of relations loads the first name of each path that is read. -/
theorem loads_of_readIn {type : Expr → Ty} {defs : Definitions} {params : List String} {env : Env}
    (htype : Expr.Typing defs params env type) {entries : List LoadEntry}
    (hlength : entries.length ≤ Numeral.positionBound) {args : List Argument} {arg : Argument}
    (harg : arg ∈ args) (hty : arg.ty = type (.array (entries.map LoadEntry.item))) {e : LoadEntry}
    (he : e ∈ entries) (hread : e.ReadIn entries) {name : String}
    (hname : (RelationTree.pathNames e.text).head? = some name) :
    Step.Loads ⟨"with", args⟩ name := by
  refine ⟨rfl, e.text, ?_, hname⟩
  refine List.mem_flatMap.2 ⟨arg.ty, List.mem_map_of_mem harg, ?_⟩
  rw [hty, htype.loadArray]
  exact hread.mem_argumentPaths he hlength

/-- A chain on an entity that loads an array of relations. With some depth every row of the chain
has a property for the first name of each path that is read, if the entity has such a relation and
shows it: that is of every key other than a numeral, and of every path in an array without keys.
Under a lenient policy a query has a row. -/
theorem row_loads_array {cx : Context} (hdepth : 1 ≤ cx.config.maxDepth) {entity : String}
    {steps : List Step} {args : List Argument} (hcall : ⟨"with", args⟩ ∈ steps) {arg : Argument}
    (harg : arg ∈ args) {defs : Definitions} {params : List String} {env : Env} {type : Expr → Ty}
    (htype : Expr.Typing defs params env type) {entries : List LoadEntry}
    (hlength : entries.length ≤ Numeral.positionBound)
    (hty : arg.ty = type (.array (entries.map LoadEntry.item))) {p : Progress}
    (hp : p.rows.Sound cx.catalog) :
    (cx.config.strict = false → Step.Allowed cx steps →
        ∃ row, (runFrom (resolveRow cx ⟨some entity, steps⟩) p).1 = .ok (some row)) ∧
      ∀ row, (runFrom (resolveRow cx ⟨some entity, steps⟩) p).1 = .ok (some row) →
        ∃ rows, rows ≠ [] ∧ row = .union rows ∧
          ∀ r ∈ rows, ∃ properties, r = .object properties (some entity) ∧
            ∀ e ∈ entries, e.ReadIn entries → ∀ name,
              (RelationTree.pathNames e.text).head? = some name →
              (cx.catalog.relation? entity name).isSome = true →
              (cx.catalog.visibility entity).allows name = true →
              name ∈ Entries.keys properties := by
  have hne := Nat.one_le_iff_ne_zero.1 hdepth
  constructor
  · intro hlenient hallowed
    exact exists_row_of_allowed hlenient hne hallowed hp
  · intro row hrow
    obtain ⟨rows, hrows, hunion, hloaded⟩ := row_has_loaded hne hp hrow
    refine ⟨rows, hrows, hunion, ?_⟩
    intro r hr
    obtain ⟨properties, hobject, hnames⟩ := hloaded r hr
    refine ⟨properties, hobject, ?_⟩
    intro e he hread name hname hrelation hallows
    refine hnames name ⟨_, hcall, loads_of_readIn htype hlength harg hty he hread hname⟩ ?_
    rw [Catalog.shownRelation?, if_pos hallows]
    exact hrelation

/-- A user has posts, comments and logins, which are hidden. A post has an author. -/
def blogCatalog : Catalog where
  entities :=
    [("User",
        { columns := [⟨"id", .resolved .integer, false⟩]
          hidden := .ofList ["logins"]
          relations :=
            [("posts", ⟨"Post", true⟩), ("comments", ⟨"Comment", true⟩),
              ("logins", ⟨"Login", true⟩)] }),
      ("Post",
        { columns := [⟨"title", .resolved .string, false⟩]
          relations := [("author", ⟨"User", false⟩)] }),
      ("Comment", { columns := [⟨"body", .resolved .string, false⟩] })]

/-- Two constrained relations, one of them with a relation of its target. -/
def constrainedLoads : List LoadEntry :=
  [.constrained "posts.author:id" ["query"] (.var "query"), .constrained "comments" [] .obscure]

/-- Constrained relations are loaded side by side. -/
theorem row_loads_array_constrained :
    let cx : Context := ⟨{}, blogCatalog⟩
    let type : Expr → Ty := fun e => (e.link [] []).typeIn cx [] {}
    let arg : Argument := ⟨type (.array (constrainedLoads.map LoadEntry.item)), none⟩
    ∃ row rows,
      (runFrom (resolveRow cx ⟨some "User", [⟨"with", [arg]⟩, ⟨"get", []⟩]⟩) {}).1 =
        .ok (some row) ∧
      rows ≠ [] ∧ row = .union rows ∧ ∀ r ∈ rows, ∃ properties,
        r = .object properties (some "User") ∧
        "posts" ∈ Entries.keys properties ∧ "comments" ∈ Entries.keys properties := by
  intro cx type arg
  have hdepth : 1 ≤ cx.config.maxDepth := by decide
  have htype : Expr.Typing [] [] [] type := .inference (by decide) {}
  let steps : List Step := [⟨"with", [arg]⟩, ⟨"get", []⟩]
  have hcall : ⟨"with", [arg]⟩ ∈ steps := List.mem_cons_self
  obtain ⟨hsome, hrows⟩ :=
    @row_loads_array cx hdepth "User" steps [arg] hcall arg List.mem_cons_self [] [] []
    type htype constrainedLoads (by decide) rfl {} (RowCache.sound_nil blogCatalog)
  obtain ⟨row, hrow⟩ := hsome rfl ⟨by decide, by decide⟩
  obtain ⟨rows, hne, hunion, hloaded⟩ := hrows row hrow
  refine ⟨row, rows, hrow, hne, hunion, ?_⟩
  intro r hr
  obtain ⟨properties, hobject, hnames⟩ := hloaded r hr
  refine ⟨properties, hobject, ?_, ?_⟩
  · exact hnames _ List.mem_cons_self (.inl ⟨_, rfl, by decide⟩) "posts" (by decide +kernel) rfl
      (by decide)
  · exact hnames _ (List.mem_cons_of_mem _ List.mem_cons_self) (.inl ⟨_, rfl, by decide⟩) "comments"
      (by decide +kernel) rfl (by decide)

/-- A path beside a constrained relation is not loaded. -/
theorem mixed_array_not_loaded :
    let mixed := [LoadEntry.path "posts", .constrained "comments" ["query"] (.var "query")]
    let chain := (Expr.entity "User").call "with" [.array (mixed.map LoadEntry.item)]
    ∃ properties, (Task.run blogCatalog {} [] (.row [] (chain.call "get" []))).result =
        .ok (some (.object properties (some "User"))) ∧
      "comments" ∈ Entries.keys properties ∧ "posts" ∉ Entries.keys properties := by
  refine ⟨_, rfl, ?_, ?_⟩
  · decide
  · decide

end QueryTypes
