import QueryTypes.Proofs.Conclusions
import QueryTypes.Proofs.Numeral
import QueryTypes.Proofs.Reading
import QueryTypes.Proofs.Substitution

/-!
# Keys of array literals

An array literal whose keys are literal is read entry by entry (`Expr.Typing.array`), an entry
without a key under the position after the last integer key. This position is counted in 64 bits and
looks at the last integer key only. So an entry without a key can meet an earlier one: after a
smaller integer key (`read_descending_keys`), or under the numeral of an earlier string key.

As long as the keys climb (`EntryKey.Climb`) neither happens: the count is exact, and an entry
without a key is appended to the shape (`array_positions_fresh`).
-/

set_option autoImplicit false

namespace QueryTypes

/-! ## Keys -/

/-- What an entry of an array literal says about its key. -/
inductive EntryKey where
  /-- Nothing: the entry goes under the next position. -/
  | next
  /-- An integer. -/
  | number (n : Int64)
  /-- A string. -/
  | text (s : String)

namespace EntryKey

/-- The key that a type is, if it is one integer or one string. -/
def ofType? (t : Ty) : Option EntryKey :=
  (Reading.singleLiteral? t).bind fun l =>
    match l with
    | .int n => some (.number n)
    | .str s => some (.text s)
    | .bool _ | .float _ => none

/-- The position after the last integer key. -/
def position (last : Option Int) : Int := last.elim 0 (· + 1)

/-- The last integer key after one more entry. -/
def follow (last : Option Int) : EntryKey → Option Int
  | .next => some (position last)
  | .number n => some n.toInt
  | .text _ => last

/-- The last integer key of entries. -/
def last (keys : List EntryKey) : Option Int := keys.foldl follow none

@[simp] theorem last_nil : last [] = none := rfl

@[simp] theorem last_append_singleton (keys : List EntryKey) (k : EntryKey) :
    last (keys ++ [k]) = follow (last keys) k := by
  rw [last, List.foldl_append]
  rfl

/-- The key goes on from the last integer key: an integer key is not below it and leaves room for
one more, and the numeral of an integer is not above it. -/
def Continues (last : Option Int) : EntryKey → Prop
  | .next => position last < Int64.maxValue.toInt
  | .number n => (∀ l ∈ last, l ≤ n.toInt) ∧ n < Int64.maxValue
  | .text s => ∀ n : Int64, s = toString n.toInt → ∃ l ∈ last, n.toInt ≤ l

theorem continues_text {last : Option Int} {s : String}
    (h : ∀ n, Numeral.readInt64? s = some n → ∃ l ∈ last, n.toInt ≤ l) :
    Continues last (.text s) := by
  rintro n rfl
  exact h n (Numeral.readInt64?_toString n)

/-- Keys of which each goes on from the last integer key before it. -/
inductive Climb : List EntryKey → Prop where
  | nil : Climb []
  | snoc {keys : List EntryKey} {k : EntryKey} (front : Climb keys) (hk : k.Continues (last keys)) :
    Climb (keys ++ [k])

theorem Climb.of_snoc {keys : List EntryKey} {k : EntryKey} (h : Climb (keys ++ [k])) :
    Climb keys ∧ k.Continues (last keys) := by
  generalize hsnoc : keys ++ [k] = all at h
  cases h with
  | nil => exact absurd hsnoc (List.append_ne_nil_of_right_ne_nil _ (List.cons_ne_nil _ _))
  | snoc hfront hk =>
    obtain ⟨rfl, heq⟩ := List.append_inj' hsnoc rfl
    rw [List.singleton_inj.1 heq]
    exact ⟨hfront, hk⟩

end EntryKey

/-- The entry that an item of an array literal stands for, if its key is literal. -/
def Item.entry? (type : Expr → Ty) : Item → Option (EntryKey × Ty)
  | .positional value => some (.next, type value)
  | .keyed key value => (EntryKey.ofType? (type key)).map fun k => (k, type value)

/-- The entry that an item of an array term stands for, if its key is literal. -/
def TermItem.entry? (type : Term → Ty) : TermItem → Option (EntryKey × Ty)
  | .positional value => some (.next, type value)
  | .keyed key value => (EntryKey.ofType? (type key)).map fun k => (k, type value)

theorem mapM_entry?_link (type : Term → Ty) (defs : Definitions) (params : List String)
    (items : List Item) :
    (items.map (Item.link defs params)).mapM (TermItem.entry? type) =
      items.mapM (Item.entry? fun e => type (e.link defs params)) := by
  rw [List.mapM_map]
  congr 1
  funext i
  cases i with
  | positional | keyed => rfl

namespace Reading.ArrayState

/-- Read an entry. -/
def enter (st : ArrayState) (e : EntryKey × Ty) : ArrayState :=
  match e.1 with
  | .next => (st.addValue e.2).putAt st.next e.2
  | .number n => (st.addValue e.2).putAt n e.2
  | .text s => (st.addValue e.2).putNamed s e.2

/-- Read entries in order. -/
def ofEntries (es : List (EntryKey × Ty)) : ArrayState := es.foldl enter {}

theorem ofEntries_append_singleton (es : List (EntryKey × Ty)) (e : EntryKey × Ty) :
    ofEntries (es ++ [e]) = (ofEntries es).enter e := by
  rw [ofEntries, List.foldl_append]
  rfl

theorem openKeys_enter (st : ArrayState) (e : EntryKey × Ty) :
    (st.enter e).openKeys = st.openKeys := by
  obtain ⟨k, t⟩ := e
  cases k with
  | next | number | text => rfl

theorem type_ofEntries (es : List (EntryKey × Ty)) :
    (ofEntries es).type = .shape (ofEntries es).shape := by
  have hopen : (ofEntries es).openKeys = [] := by
    induction es using List.reverseRecOn with
    | nil => rfl
    | append_singleton es e ih => rw [ofEntries_append_singleton, openKeys_enter, ih]
  rw [type, hopen]
  rfl

/-- An entry whose key is known to be literal is read under that key. -/
theorem keyed_of_ofType? {st : ArrayState} {key t : Ty} {k : EntryKey}
    (h : EntryKey.ofType? key = some k) : Reading.keyed (m := Id) st key t = st.enter (k, t) := by
  rw [EntryKey.ofType?, Option.bind_eq_some_iff] at h
  obtain ⟨l, hl, hk⟩ := h
  rw [keyed_id, hl]
  cases l with
  | int n =>
    rw [← Option.some.inj hk]
    rfl
  | str s =>
    rw [← Option.some.inj hk]
    rfl
  | bool | float => exact nomatch hk

end Reading.ArrayState

/-! ## Typing -/

/-- The type of a term under parameters, computed from a state. -/
def Term.typeIn (cx : Context) (env : Env) (p : Progress) (t : Term) : Ty :=
  ((degrade (t.infer cx env cx.config.maxDepth)).run p).1

/-- The ways to type an expression that looks up variables among definitions and parameters: it is
read, or inferred from some state. -/
inductive Expr.Typing (defs : Definitions) (params : List String) (env : Env) :
    (Expr → Ty) → Prop where
  | reading : Typing defs params env fun e => (e.link defs params).read env
  | inference {cx : Context} (hdepth : cx.config.maxDepth ≠ 0) (p : Progress) :
    Typing defs params env fun e => (e.link defs params).typeIn cx env p

theorem Term.readItems_of_entries {env : Env} (items : List TermItem) {es : List (EntryKey × Ty)}
    (h : items.mapM (TermItem.entry? fun t => t.read env) = some es) (st : Reading.ArrayState) :
    Term.readItems items env st = es.foldl Reading.ArrayState.enter st := by
  induction items generalizing es st with
  | nil =>
    rw [List.mapM_nil] at h
    rw [← Option.some.inj h]
    rfl
  | cons i rest ih =>
    rw [List.mapM_cons] at h
    obtain ⟨e, he, h⟩ := Option.bind_eq_some_iff.1 h
    obtain ⟨others, hothers, h⟩ := Option.bind_eq_some_iff.1 h
    rw [← Option.some.inj h, List.foldl_cons, ← ih hothers]
    cases i with
    | positional value =>
      rw [← Option.some.inj he]
      rfl
    | keyed key value =>
      obtain ⟨k, hk, rfl⟩ := Option.map_eq_some_iff.1 he
      rw [Term.readItems, Reading.ArrayState.keyed_of_ofType? hk]

section Inference

variable (cx : Context) (env : Env) (p : Progress)

theorem concludes_typeIn (t : Term) :
    Concludes cx.catalog (p.rows.answer cx.catalog)
      (liftM (degrade (t.infer cx env cx.config.maxDepth))) (.ok (t.typeIn cx env p)) :=
  concludes_of_alike (((covers_keptRows cx (p.rows.answer cx.catalog)).term t).degrade env)

/-- A key is typed after its value, and again if it is not literal. -/
theorem concludes_keyed (st : Reading.ArrayState) (key value : Term) :
    Concludes cx.catalog (p.rows.answer cx.catalog)
      (liftM (Reading.keyed st (degrade (key.infer cx env cx.config.maxDepth))
        (degrade (value.infer cx env cx.config.maxDepth))))
      (.ok (Reading.keyed (m := Id) st (key.typeIn cx env p) (value.typeIn cx env p))) := by
  have hkey := concludes_typeIn cx env p key
  refine (concludes_typeIn cx env p value).bind_tracked (hkey.bind_tracked ?_)
  rw [Reading.ArrayState.keyed_id]
  cases Reading.singleLiteral? (key.typeIn cx env p) with
  | none => exact hkey.bind_tracked (.pure _)
  | some l =>
    cases l with
    | int n => exact .pure _
    | str s => exact .pure _
    | bool | float => exact hkey.bind_tracked (.pure _)

theorem Term.concludes_inferItems (items : List TermItem) {es : List (EntryKey × Ty)}
    (h : items.mapM (TermItem.entry? (Term.typeIn cx env p)) = some es) (st : Reading.ArrayState) :
    Concludes cx.catalog (p.rows.answer cx.catalog) (liftM (Term.inferItems cx items env st))
      (.ok (es.foldl Reading.ArrayState.enter st)) := by
  induction items generalizing es st with
  | nil =>
    rw [List.mapM_nil] at h
    rw [← Option.some.inj h]
    exact .pure st
  | cons i rest ih =>
    rw [List.mapM_cons] at h
    obtain ⟨e, he, h⟩ := Option.bind_eq_some_iff.1 h
    obtain ⟨others, hothers, h⟩ := Option.bind_eq_some_iff.1 h
    rw [← Option.some.inj h, List.foldl_cons]
    cases i with
    | positional value =>
      rw [← Option.some.inj he, Term.inferItems]
      exact ((concludes_typeIn cx env p _).bind_tracked (.pure _)).bind_tracked (ih hothers _)
    | keyed key value =>
      obtain ⟨k, hk, rfl⟩ := Option.map_eq_some_iff.1 he
      have hentry := concludes_keyed cx env p st key value
      rw [Reading.ArrayState.keyed_of_ofType? hk] at hentry
      rw [Term.inferItems]
      exact hentry.bind_tracked (ih hothers _)

/-- The type of an array whose keys are literal is that of the entries that are read. -/
theorem Term.typeIn_array (hdepth : cx.config.maxDepth ≠ 0) {items : List TermItem}
    {es : List (EntryKey × Ty)}
    (h : items.mapM (TermItem.entry? (Term.typeIn cx env p)) = some es) :
    Term.typeIn cx env p (.array items) = .shape (Reading.ArrayState.ofEntries es).shape := by
  obtain ⟨depth, hdepth⟩ := Nat.exists_eq_succ_of_ne_zero hdepth
  have harray : Concludes cx.catalog (p.rows.answer cx.catalog)
      ((Term.array items).infer cx env cx.config.maxDepth)
      (.ok (Reading.ArrayState.ofEntries es).type) := by
    rw [hdepth, Term.infer]
    exact (Term.concludes_inferItems cx env p items h {}).bind_ok (.pure _)
  -- what the array concludes does not fail, so that nothing is turned into a note
  have hresult := harray.result (p := p) rfl
  rw [← Reading.ArrayState.type_ofEntries, Term.typeIn, run_degrade]
  rcases hrun : runFrom ((Term.array items).infer cx env cx.config.maxDepth) p with ⟨r, q⟩
  rw [hrun] at hresult
  subst hresult
  rfl

end Inference

/-- An array literal whose keys are literal is read entry by entry. -/
theorem Expr.Typing.array {defs : Definitions} {params : List String} {env : Env} {type : Expr → Ty}
    (htype : Typing defs params env type) {items : List Item} {es : List (EntryKey × Ty)}
    (h : items.mapM (Item.entry? type) = some es) :
    type (.array items) = .shape (Reading.ArrayState.ofEntries es).shape := by
  cases htype with
  | reading =>
    rw [← mapM_entry?_link fun t => t.read env] at h
    show ((Expr.array items).link defs params).read env = _
    rw [← Reading.ArrayState.type_ofEntries, Expr.link, Expr.linkItems_eq_map, Term.read,
      Term.readItems_of_entries _ h]
    rfl
  | @inference cx hdepth p =>
    rw [← mapM_entry?_link (Term.typeIn cx env p)] at h
    show ((Expr.array items).link defs params).typeIn cx env p = _
    rw [Expr.link, Expr.linkItems_eq_map]
    exact Term.typeIn_array cx env p hdepth h

/-! ## Positions -/

theorem Numeral.toString_toInt_inj {m n : Int64} (h : toString m.toInt = toString n.toInt) :
    m = n := by
  have hread : some m = some n := by rw [← readInt64?_toString m, ← readInt64?_toString n, h]
  exact Option.some.inj hread

/-- One more than an integer that is not the largest does not wrap. -/
theorem Int64.toInt_add_one_of_lt {n : Int64} (h : n.toInt < Int64.maxValue.toInt) :
    (n + 1).toInt = n.toInt + 1 := by
  have hlow := n.le_toInt
  have hmax : Int64.maxValue.toInt = 0x7fffffffffffffff := by decide
  rw [hmax] at h
  rw [Int64.toInt_add]
  have hone : (1 : Int64).toInt = 1 := by decide
  rw [hone]
  exact Int.bmod_eq_of_le (by omega) (by omega)

namespace Reading.ArrayState

/-- What was read has counted on exactly, and no key is the numeral of an integer above the last
one. -/
structure Counted (st : ArrayState) (last : Option Int) : Prop where
  next : st.next.toInt = EntryKey.position last
  below : ∀ n : Int64, toString n.toInt ∈ st.shape.keys → ∃ l ∈ last, n.toInt ≤ l

theorem counted_empty : Counted {} none where
  next := rfl
  below _ hn := absurd hn List.not_mem_nil

/-- The next position is not among the keys. -/
theorem Counted.fresh {st : ArrayState} {last : Option Int} (h : st.Counted last) :
    toString (EntryKey.position last) ∉ st.shape.keys := by
  rw [← h.next]
  intro hmem
  obtain ⟨l, hl, hle⟩ := h.below _ hmem
  rw [h.next, Option.mem_def.1 hl] at hle
  exact Int.not_le.2 (Int.lt_add_one_of_le (Int.le_refl l)) hle

/-- So a value that is put there is appended. -/
theorem Counted.put_next {st : ArrayState} {last : Option Int} (h : st.Counted last) (t : Ty) :
    (st.enter (.next, t)).shape =
      st.shape ++ [(toString (EntryKey.position last), t.withRequired true)] := by
  rw [← Entries.put_of_not_mem _ h.fresh, ← h.next]
  rfl

/-- An integer key that is not below the last one is the last one. -/
theorem Counted.putAt {st : ArrayState} {last : Option Int} (h : st.Counted last) {n : Int64}
    (t : Ty) (hlast : ∀ l ∈ last, l ≤ n.toInt) (hn : n.toInt < Int64.maxValue.toInt) :
    ((st.addValue t).putAt n t).Counted (some n.toInt) where
  next := Int64.toInt_add_one_of_lt hn
  below m hm := by
    refine ⟨n.toInt, rfl, ?_⟩
    rcases Entries.mem_keys_put.1 hm with hm | hm
    · obtain ⟨l, hl, hle⟩ := h.below m hm
      exact Int.le_trans hle (hlast l hl)
    · exact Int.le_of_eq (congrArg Int64.toInt (Numeral.toString_toInt_inj hm))

theorem Counted.enter {st : ArrayState} {last : Option Int} (h : st.Counted last) {k : EntryKey}
    (t : Ty) (hk : k.Continues last) : (st.enter (k, t)).Counted (k.follow last) := by
  cases k with
  | next =>
    have hnext : some (EntryKey.position last) = some st.next.toInt := by rw [h.next]
    rw [EntryKey.follow, hnext]
    refine h.putAt t ?_ (h.next ▸ hk)
    intro l hl
    rw [h.next, Option.mem_def.1 hl]
    exact Int.le_add_one (Int.le_refl l)
  | number n => exact h.putAt t hk.1 (Int64.lt_iff_toInt_lt.1 hk.2)
  | text s =>
    -- a name does not count, unless it is the numeral of an integer
    refine ⟨h.next, ?_⟩
    intro m hm
    rcases Entries.mem_keys_put.1 hm with hm | hm
    · exact h.below m hm
    · exact hk m hm.symm

/-- Climbing keys are counted on exactly. -/
theorem counted_ofEntries {es : List (EntryKey × Ty)} (h : EntryKey.Climb (es.map Prod.fst)) :
    (ofEntries es).Counted (EntryKey.last (es.map Prod.fst)) := by
  induction es using List.reverseRecOn with
  | nil => exact counted_empty
  | append_singleton es e ih =>
    rw [List.map_append, List.map_singleton] at h ⊢
    obtain ⟨hfront, hk⟩ := h.of_snoc
    rw [ofEntries_append_singleton, EntryKey.last_append_singleton]
    exact (ih hfront).enter e.2 hk

end Reading.ArrayState

/-- An array literal with literal keys is the shape of its entries. Where the keys have climbed so
far, the next position is one more than the last integer key, and an entry without a key is appended
under it: no earlier entry has that key. -/
theorem array_positions_fresh {defs : Definitions} {params : List String} {env : Env}
    {type : Expr → Ty} (htype : Expr.Typing defs params env type) {items : List Item}
    {entries : List (EntryKey × Ty)} (hentries : items.mapM (Item.entry? type) = some entries) :
    type (.array items) = .shape (Reading.ArrayState.ofEntries entries).shape ∧
      ∀ front back, items = front ++ back → ∃ before, before <+: entries ∧
        front.mapM (Item.entry? type) = some before ∧
        (EntryKey.Climb (before.map Prod.fst) →
          (Reading.ArrayState.ofEntries before).next.toInt =
            EntryKey.position (EntryKey.last (before.map Prod.fst)) ∧
          ∀ value rest, back = .positional value :: rest → ∃ shape,
            type (.array front) = .shape shape ∧
            toString (EntryKey.position (EntryKey.last (before.map Prod.fst))) ∉
              Entries.keys shape ∧
            type (.array (front ++ [.positional value])) =
              .shape (shape ++ [(toString (EntryKey.position (EntryKey.last (before.map Prod.fst))),
                (type value).withRequired true)])) := by
  refine ⟨htype.array hentries, ?_⟩
  rintro front back rfl
  obtain ⟨before, hbefore, hrest⟩ :=
    Option.bind_eq_some_iff.1 (List.mapM_append.symm.trans hentries)
  obtain ⟨after, -, hall⟩ := Option.bind_eq_some_iff.1 hrest
  refine ⟨before, ⟨after, Option.some.inj hall⟩, hbefore, ?_⟩
  intro hclimb
  have hcounted := Reading.ArrayState.counted_ofEntries hclimb
  refine ⟨hcounted.next, ?_⟩
  rintro value rest rfl
  refine ⟨_, htype.array hbefore, hcounted.fresh, ?_⟩
  -- the longer literal is typed by its own entries, one more than those before it
  have hsnoc : (front ++ [Item.positional value]).mapM (Item.entry? type) =
      some (before ++ [(.next, type value)]) := by
    rw [List.mapM_append, hbefore]
    rfl
  rw [htype.array hsnoc, Reading.ArrayState.ofEntries_append_singleton]
  exact congrArg Ty.shape (hcounted.put_next (type value))

/-- The literal `[-3 => "a", "b", "name" => "c", 7 => "d", "7" => "e"]`. -/
def gappedItems : List Item :=
  [.keyed (.literal (.int (-3))) (.literal (.str "a")), .positional (.literal (.str "b")),
    .keyed (.literal (.str "name")) (.literal (.str "c")),
    .keyed (.literal (.int 7)) (.literal (.str "d")),
    .keyed (.literal (.str "7")) (.literal (.str "e"))]

/-- After negative keys, gaps, names and the numeral of an earlier key the next entry is
appended. -/
theorem array_positions_fresh_gaps :
    ∃ shape, ((Expr.array gappedItems).link [] []).read [] = .shape shape ∧
      "8" ∉ Entries.keys shape ∧
      ((Expr.array (gappedItems ++ [.positional (.literal (.str "f"))])).link [] []).read [] =
        .shape (shape ++ [("8", (Ty.ofJson (.str "f")).withRequired true)]) := by
  have hentries : (gappedItems ++ [Item.positional (.literal (.str "f"))]).mapM
      (Item.entry? fun e => (e.link [] []).read []) =
      some [(.number (-3), .ofJson (.str "a")), (.next, .ofJson (.str "b")),
        (.text "name", .ofJson (.str "c")), (.number 7, .ofJson (.str "d")),
        (.text "7", .ofJson (.str "e")), (.next, .ofJson (.str "f"))] := rfl
  obtain ⟨before, -, hbefore, hfresh⟩ :=
    (array_positions_fresh .reading hentries).2 gappedItems [.positional (.literal (.str "f"))] rfl
  have hkeys : before.map Prod.fst = [.number (-3), .next, .text "name", .number 7, .text "7"] := by
    rw [← Option.some.inj hbefore]
    rfl
  have hclimb : EntryKey.Climb (before.map Prod.fst) := by
    rw [hkeys]
    have hnegative :=
      EntryKey.Climb.nil.snoc (k := .number (-3)) ⟨fun _ h => (nomatch h), by decide⟩
    have hnext := hnegative.snoc (k := .next) (by decide : (-2 : Int) < Int64.maxValue.toInt)
    have hname := hnext.snoc (k := .text "name") (EntryKey.continues_text fun _ h => nomatch h)
    have hgap := hname.snoc (k := .number 7)
      ⟨fun _ h => Option.some.inj h ▸ (by decide : (-2 : Int) ≤ (7 : Int64).toInt), by decide⟩
    refine hgap.snoc (k := .text "7") (EntryKey.continues_text fun n h => ⟨7, rfl, ?_⟩)
    rw [← Option.some.inj h]
    decide
  have happended := (hfresh hclimb).2 _ _ rfl
  rw [hkeys] at happended
  exact happended

/-- After a smaller integer key an entry without a key takes the place of an earlier one, and after
the largest integer the count starts over from the smallest. -/
theorem read_descending_keys :
    ((Expr.array [.keyed (.literal (.int 5)) (.literal (.str "a")),
      .keyed (.literal (.int 4)) (.literal (.str "b")),
      .positional (.literal (.str "c"))]).link [] []).read [] =
      .shape [("5", (Ty.ofJson (.str "c")).withRequired true),
        ("4", (Ty.ofJson (.str "b")).withRequired true)] ∧
    ((Expr.array [.keyed (.literal (.int 9223372036854775807)) (.literal (.str "a")),
      .positional (.literal (.str "b"))]).link [] []).read [] =
      .shape [("9223372036854775807", (Ty.ofJson (.str "a")).withRequired true),
        ("-9223372036854775808", (Ty.ofJson (.str "b")).withRequired true)] := ⟨rfl, rfl⟩

end QueryTypes
