import QueryTypes.Proofs.Forms.Path

/-!
# Keys and paths

A key is cut at every dot that no backslash stands before (`rawSegments`). It can be read when the
first of these segments is not the wildcard and none is empty, and otherwise fails for the first of
these reasons. The paths that are read are the readable ones (`Readable`), and each has exactly one
key, the one it is written as (`parsePath_bijective`).

Reading looks ahead for an escaped dot while the cut looks back for a backslash. They meet in
`rawSegmentsFrom_eq`: the raw segments are the pieces that are read, with their dots escaped again.
-/

set_option autoImplicit false

namespace QueryTypes.Rules

/-! ## Raw segments -/

/-- The text cut at its dots, but for those that a backslash stands before. `escaped` says whether
one stands before the text. -/
def rawSegmentsFrom (escaped : Bool) : List Char → List (List Char)
  | [] => [[]]
  | c :: rest =>
    if c = '.' ∧ escaped = false then [] :: rawSegmentsFrom false rest
    else (rawSegmentsFrom (c == '\\') rest).modifyHead (c :: ·)

/-- The segments of a key as they are written. -/
def rawSegments (key : String) : List String := (rawSegmentsFrom false key.toList).map String.ofList

/-- A path that a key can be read into: it starts with a field, its fields are neither empty nor the
sign of the wildcard, and a field that another segment follows does not end in a backslash. -/
structure Readable (path : List Segment) : Prop where
  starts : ∃ name rest, path = .field name :: rest
  proper : ∀ name, .field name ∈ path → name ≠ "" ∧ name ≠ "*"
  inner : ∀ name, .field name ∈ path.dropLast → name.toList.getLast? ≠ some '\\'

/-- The pieces of a text that is read, in a list. -/
def allPieces (cs : List Char) : List (List Char) := (pieces cs).1 :: (pieces cs).2

theorem allPieces_nil : allPieces [] = [[]] := rfl

theorem allPieces_escaped (rest : List Char) :
    allPieces ('\\' :: '.' :: rest) = (allPieces rest).modifyHead ('.' :: ·) := rfl

theorem allPieces_dot (rest : List Char) : allPieces ('.' :: rest) = [] :: allPieces rest := rfl

theorem allPieces_cons {c : Char} {rest : List Char} (hdot : c ≠ '.')
    (hescape : c = '\\' → rest.head? ≠ some '.') :
    allPieces (c :: rest) = (allPieces rest).modifyHead (c :: ·) := by
  unfold allPieces
  rw [pieces]
  · rfl
  · rintro rest' rfl rfl
    exact hescape rfl rfl
  · exact hdot

/-- What is read from a text depends on the cases of its first character: an escaped dot, a dot, or
any other character. -/
theorem allPieces_induction {motive : List Char → Prop} (nil : motive [])
    (escaped : ∀ rest, motive rest → motive ('\\' :: '.' :: rest))
    (dot : ∀ rest, motive rest → motive ('.' :: rest))
    (char : ∀ c rest, c ≠ '.' → (c = '\\' → rest.head? ≠ some '.') → motive rest →
      motive (c :: rest))
    (cs : List Char) : motive cs := by
  induction cs using pieces.induct with
  | case1 => exact nil
  | case2 rest _ _ _ ih => exact escaped rest ih
  | case3 rest _ _ _ ih => exact dot rest ih
  | case4 c rest hescaped hdot _ _ _ ih =>
    refine char c rest hdot ?_ ih
    rintro rfl hrest
    obtain ⟨tail, rfl⟩ := List.head?_eq_some_iff.1 hrest
    exact hescaped tail rfl rfl

/-- The raw segments are the pieces with their dots escaped. -/
theorem rawSegmentsFrom_eq (cs : List Char) (escaped : Bool)
    (h : escaped = true → cs.head? ≠ some '.') :
    rawSegmentsFrom escaped cs = (allPieces cs).map escapeDots := by
  induction cs using allPieces_induction generalizing escaped with
  | nil => rfl
  | escaped rest ih =>
    have hback : rawSegmentsFrom escaped ('\\' :: '.' :: rest) =
        ((rawSegmentsFrom false rest).modifyHead ('.' :: ·)).modifyHead ('\\' :: ·) := by
      simp [rawSegmentsFrom]
    rw [hback, ih false (by simp), allPieces_escaped]
    rfl
  | dot rest ih =>
    have hescaped : escaped = false := by simpa using h
    rw [rawSegmentsFrom, if_pos ⟨rfl, hescaped⟩, ih false (by simp), allPieces_dot]
    rfl
  | char c rest hdot hescape ih =>
    -- looking back from the rest finds a backslash only where no dot comes next
    have hnext : (c == '\\') = true → rest.head? ≠ some '.' := fun hc => hescape (beq_iff_eq.1 hc)
    rw [rawSegmentsFrom, if_neg (fun hc => hdot hc.1), ih _ hnext, allPieces_cons hdot hescape]
    simp [allPieces, escapeDots, hdot]

theorem rawSegments_eq (key : String) :
    rawSegments key = (allPieces key.toList).map fun piece => String.ofList (escapeDots piece) := by
  rw [rawSegments, rawSegmentsFrom_eq _ false (by simp), List.map_map]
  rfl

theorem escapeDots_eq_nil_iff {piece : List Char} : escapeDots piece = [] ↔ piece = [] := by
  cases piece with
  | nil => simp [escapeDots]
  | cons c rest =>
    by_cases hc : c = '.'
    · simp [escapeDots, hc]
    · simp [escapeDots, hc]

theorem escapeDots_eq_star_iff {piece : List Char} : escapeDots piece = ['*'] ↔ piece = ['*'] := by
  cases piece with
  | nil => simp [escapeDots]
  | cons c rest =>
    by_cases hc : c = '.'
    · simp [escapeDots, hc]
    · have hcons : escapeDots (c :: rest) = c :: escapeDots rest := by simp [escapeDots, hc]
      rw [hcons, List.cons.injEq, List.cons.injEq, escapeDots_eq_nil_iff]

/-- The first segment of a key is the wildcard. -/
theorem head?_rawSegments (key : String) :
    (rawSegments key).head? = some "*" ↔ (pieces key.toList).1 = ['*'] := by
  rw [rawSegments_eq, allPieces, List.map_cons, List.head?_cons, Option.some.injEq,
    ← escapeDots_eq_star_iff, ← String.toList_inj, String.toList_ofList]
  rfl

/-- A segment of a key is empty. -/
theorem empty_mem_rawSegments (key : String) :
    "" ∈ rawSegments key ↔ [] ∈ allPieces key.toList := by
  rw [rawSegments_eq, List.mem_map]
  constructor
  · rintro ⟨piece, hpiece, hempty⟩
    rw [← String.toList_inj, String.toList_ofList] at hempty
    rwa [← escapeDots_eq_nil_iff.1 hempty]
  · intro h
    exact ⟨[], h, rfl⟩

/-! ## Reading what is written -/

/-- A piece is read back as far as it goes. What follows it must not turn its last backslash into an
escape. -/
theorem allPieces_escapeDots_append (piece tail : List Char)
    (h : piece.getLast? = some '\\' → tail.head? ≠ some '.') :
    allPieces (escapeDots piece ++ tail) = (allPieces tail).modifyHead (piece ++ ·) := by
  induction piece with
  | nil => simp [escapeDots, allPieces]
  | cons c rest ih =>
    have hlast : rest.getLast? = some '\\' → tail.head? ≠ some '.' := by
      intro hrest
      apply h
      rw [List.getLast?_cons, hrest]
      rfl
    by_cases hc : c = '.'
    · subst hc
      have hwritten : escapeDots ('.' :: rest) ++ tail =
          '\\' :: '.' :: (escapeDots rest ++ tail) := by
        simp [escapeDots]
      rw [hwritten, allPieces_escaped, ih hlast]
      rfl
    · have hwritten : escapeDots (c :: rest) ++ tail = c :: (escapeDots rest ++ tail) := by
        simp [escapeDots, hc]
      rw [hwritten, allPieces_cons hc, ih hlast]
      · rfl
      · -- a backslash is followed by the tail, or by a character that is not a bare dot
        rintro rfl
        cases rest with
        | nil => exact h rfl
        | cons d more =>
          by_cases hd : d = '.'
          · simp [escapeDots, hd]
          · simp [escapeDots, hd]

theorem allPieces_escapeDots (piece : List Char) : allPieces (escapeDots piece) = [piece] := by
  have h := allPieces_escapeDots_append piece [] (by simp)
  rwa [List.append_nil, allPieces_nil, List.modifyHead_cons, List.append_nil] at h

/-- Pieces are read back from what they are written as. -/
theorem allPieces_joinPieces {ps : List (List Char)} (hne : ps ≠ [])
    (hinner : ∀ piece ∈ ps.dropLast, piece.getLast? ≠ some '\\') :
    allPieces (joinPieces ps) = ps := by
  induction ps using joinPieces.induct with
  | case1 => exact absurd rfl hne
  | case2 piece => exact allPieces_escapeDots piece
  | case3 piece next rest ih =>
    rw [List.dropLast_cons_cons, List.forall_mem_cons] at hinner
    rw [joinPieces, allPieces_escapeDots_append _ _ fun hlast => absurd hlast hinner.1,
      allPieces_dot, List.modifyHead_cons, List.append_nil, ih (List.cons_ne_nil _ _) hinner.2]

/-- An empty piece that another follows comes from a dot. -/
theorem head?_of_allPieces {cs next : List Char} {more : List (List Char)}
    (h : allPieces cs = [] :: next :: more) : cs.head? = some '.' := by
  induction cs using allPieces_induction with
  | nil => cases h
  | escaped rest _ =>
    rw [allPieces_escaped] at h
    cases h
  | dot rest _ => rfl
  | char c rest hdot hescape _ =>
    rw [allPieces_cons hdot hescape] at h
    cases h

/-- A character in front of the first piece keeps the inner pieces from ending in a backslash,
unless it is one itself and the piece was empty. -/
theorem inner_modifyHead {c : Char} {ps : List (List Char)}
    (hps : ∀ piece ∈ ps.dropLast, piece.getLast? ≠ some '\\')
    (hc : c = '\\' → ∀ next more, ps ≠ [] :: next :: more) :
    ∀ piece ∈ (ps.modifyHead (c :: ·)).dropLast, piece.getLast? ≠ some '\\' := by
  rcases ps with _ | ⟨piece, _ | ⟨next, more⟩⟩
  · simp
  · simp
  · rw [List.dropLast_cons_cons, List.forall_mem_cons] at hps
    rw [List.modifyHead_cons, List.dropLast_cons_cons, List.forall_mem_cons]
    refine ⟨?_, hps.2⟩
    rw [List.getLast?_cons]
    cases hlast : piece.getLast? with
    | some d => exact hlast ▸ hps.1
    | none =>
      obtain rfl := List.getLast?_eq_none_iff.1 hlast
      intro heq
      exact hc (Option.some.inj heq) next more rfl

/-- A piece that another follows does not end in a backslash. -/
theorem inner_allPieces (cs : List Char) :
    ∀ piece ∈ (allPieces cs).dropLast, piece.getLast? ≠ some '\\' := by
  induction cs using allPieces_induction with
  | nil => simp [allPieces_nil]
  | escaped rest ih =>
    rw [allPieces_escaped]
    exact inner_modifyHead ih fun heq => absurd heq (by decide)
  | dot rest ih =>
    rw [allPieces_dot, allPieces, List.dropLast_cons_cons, List.forall_mem_cons]
    exact ⟨by simp, ih⟩
  | char c rest hdot hescape ih =>
    rw [allPieces_cons hdot hescape]
    exact inner_modifyHead ih fun hc _ _ hps => hescape hc (head?_of_allPieces hps)

/-! ## Pieces and segments -/

/-- The segment that a piece which is not empty is. -/
def Segment.ofPiece (piece : List Char) : Segment :=
  if piece = ['*'] then .wildcard else .field (String.ofList piece)

theorem Segment.ofPiece?_eq (piece : List Char) :
    ofPiece? piece = if piece = [] then none else some (ofPiece piece) := by
  unfold ofPiece? ofPiece
  split
  · rfl
  · rfl
  · next hnil hstar => rw [if_neg hnil, if_neg hstar]

theorem mapM_ofPiece? (ps : List (List Char)) :
    ps.mapM Segment.ofPiece? = if [] ∈ ps then none else some (ps.map Segment.ofPiece) := by
  induction ps with
  | nil => rfl
  | cons piece rest ih =>
    rw [List.mapM_cons, ih, Segment.ofPiece?_eq]
    by_cases hpiece : piece = []
    · simp [hpiece]
    · by_cases hrest : [] ∈ rest
      · simp [hrest, hpiece]
      · simp [hrest, hpiece, Ne.symm hpiece]

/-- When a key can be read, and into what. -/
theorem parsePath_eq (key : String) :
    parsePath key =
      if (rawSegments key).head? = some "*" then .error (.wildcardRoot key)
      else if "" ∈ rawSegments key then .error (.emptySegment key)
      else .ok ((allPieces key.toList).map Segment.ofPiece) := by
  simp only [head?_rawSegments, empty_mem_rawSegments, allPieces]
  rw [parsePath]
  rcases pieces key.toList with ⟨first, more⟩
  dsimp only
  rw [mapM_ofPiece?]
  by_cases hempty : [] ∈ first :: more
  · simp only [hempty, if_true]
  · simp only [hempty, if_false]

theorem Segment.ofPiece_piece {segment : Segment} (h : segment ≠ .field "*") :
    ofPiece segment.piece = segment := by
  cases segment with
  | wildcard => rfl
  | field name =>
    have hname : name.toList ≠ ['*'] := by
      intro hstar
      apply h
      rw [← String.ofList_toList (s := name), hstar]
    rw [piece, ofPiece, if_neg hname, String.ofList_toList]

namespace Readable

variable {path : List Segment} (h : Readable path)
include h

theorem ne_nil : path ≠ [] := by
  obtain ⟨name, rest, rfl⟩ := h.starts
  exact List.cons_ne_nil _ _

/-- The pieces of the key that a readable path is written as. -/
theorem allPieces_renderPath : allPieces (renderPath path).toList = path.map Segment.piece := by
  rw [renderPath, String.toList_ofList]
  apply allPieces_joinPieces
  · simpa using h.ne_nil
  · intro piece hpiece
    rw [← List.map_dropLast, List.mem_map] at hpiece
    obtain ⟨segment, hsegment, rfl⟩ := hpiece
    cases segment with
    | field name => exact h.inner name hsegment
    | wildcard => decide

theorem head?_rawSegments_ne : (rawSegments (renderPath path)).head? ≠ some "*" := by
  rw [Ne, head?_rawSegments]
  intro hstar
  have hpieces := h.allPieces_renderPath
  obtain ⟨name, rest, rfl⟩ := h.starts
  have hname : (pieces (renderPath (.field name :: rest)).toList).1 = name.toList :=
    (List.cons.inj hpieces).1
  apply (h.proper name List.mem_cons_self).2
  rw [← String.ofList_toList (s := name), ← hname, hstar]

theorem empty_not_mem_rawSegments : "" ∉ rawSegments (renderPath path) := by
  rw [empty_mem_rawSegments, h.allPieces_renderPath, List.mem_map]
  rintro ⟨segment, hsegment, hnil⟩
  cases segment with
  | field name => exact (h.proper name hsegment).1 (String.toList_eq_nil_iff.1 hnil)
  | wildcard => cases hnil

/-- A readable path is read from the key it is written as. -/
theorem parsePath_renderPath : parsePath (renderPath path) = .ok path := by
  have hsegments : (path.map Segment.piece).map Segment.ofPiece = path := by
    rw [List.map_map]
    refine (List.map_congr_left (g := id) ?_).trans (List.map_id path)
    intro segment hsegment
    apply Segment.ofPiece_piece
    rintro rfl
    exact (h.proper "*" hsegment).2 rfl
  rw [parsePath_eq, if_neg h.head?_rawSegments_ne, if_neg h.empty_not_mem_rawSegments,
    h.allPieces_renderPath, hsegments]

end Readable

theorem Segment.ofPiece_eq_field {piece : List Char} {name : String}
    (h : ofPiece piece = .field name) : piece ≠ ['*'] ∧ name.toList = piece := by
  unfold ofPiece at h
  split at h
  · cases h
  · next hstar =>
    cases h
    exact ⟨hstar, String.toList_ofList⟩

/-- What is read from a key is a readable path. -/
theorem readable_of_parsePath {key : String} {path : List Segment} (h : parsePath key = .ok path) :
    Readable path := by
  rw [parsePath_eq] at h
  split at h
  · cases h
  · next hstar =>
    split at h
    · cases h
    · next hempty =>
      rw [head?_rawSegments] at hstar
      rw [empty_mem_rawSegments] at hempty
      cases h
      constructor
      · have hfirst : Segment.ofPiece (pieces key.toList).1 =
            .field (String.ofList (pieces key.toList).1) := if_neg hstar
        exact ⟨_, _, congrArg (· :: (pieces key.toList).2.map Segment.ofPiece) hfirst⟩
      · intro name hname
        obtain ⟨piece, hpiece, hfield⟩ := List.mem_map.1 hname
        obtain ⟨hne, rfl⟩ := Segment.ofPiece_eq_field hfield
        constructor
        · rintro rfl
          exact hempty hpiece
        · rintro rfl
          exact hne rfl
      · intro name hname
        rw [← List.map_dropLast] at hname
        obtain ⟨piece, hpiece, hfield⟩ := List.mem_map.1 hname
        obtain ⟨-, rfl⟩ := Segment.ofPiece_eq_field hfield
        exact inner_allPieces key.toList _ hpiece

/-- Reading and writing are inverse to each other between the keys that can be read and the readable
paths.

A key whose first segment is the wildcard fails for that, any other key with an empty segment fails
for that, and every other key is read into a readable path, which is written as that key. Every
readable path is read from the key it is written as. So two keys that are read into the same path
are the same. -/
theorem parsePath_bijective :
    (∀ key : String,
      if (rawSegments key).head? = some "*" then parsePath key = .error (.wildcardRoot key)
      else if "" ∈ rawSegments key then parsePath key = .error (.emptySegment key)
      else ∃ path, parsePath key = .ok path ∧ renderPath path = key ∧ Readable path) ∧
    (∀ path, Readable path → parsePath (renderPath path) = .ok path) ∧
    ∀ key key' path, parsePath key = .ok path → parsePath key' = .ok path → key = key' := by
  refine ⟨?_, fun path h => h.parsePath_renderPath,
    fun key key' path h h' => parsePath_injective h h'⟩
  intro key
  have hread := parsePath_eq key
  split
  · next hstar => rw [hread, if_pos hstar]
  · next hstar =>
    rw [if_neg hstar] at hread
    split
    · next hempty => rw [hread, if_pos hempty]
    · next hempty =>
      rw [if_neg hempty] at hread
      exact ⟨_, hread, renderPath_of_parsePath hread, readable_of_parsePath hread⟩

/-- A dot and a backslash before it inside a field, a wildcard, and a field that ends in a
backslash. -/
theorem parsePath_bijective_escapes :
    let path : List Segment := [.field "a\\.b", .wildcard, .field "c\\"]
    Readable path ∧ renderPath path = "a\\\\.b.*.c\\" ∧ parsePath "a\\\\.b.*.c\\" = .ok path ∧
      ∀ key, parsePath key = .ok path → key = "a\\\\.b.*.c\\" := by
  intro path
  have hreadable : Readable path := by
    refine ⟨⟨_, _, rfl⟩, ?_, ?_⟩
    · intro name hname
      simp only [path, List.mem_cons, Segment.field.injEq, reduceCtorEq, List.not_mem_nil, or_false,
        false_or] at hname
      rcases hname with rfl | rfl
      · decide
      · decide
    · intro name hname
      simp only [path, List.dropLast_cons_cons, List.dropLast_singleton, List.mem_cons,
        Segment.field.injEq, reduceCtorEq, List.not_mem_nil, or_false] at hname
      obtain rfl := hname
      decide
  have hkey : renderPath path = "a\\\\.b.*.c\\" := by decide
  have hread : parsePath "a\\\\.b.*.c\\" = .ok path := hkey ▸ parsePath_bijective.2.1 path hreadable
  exact ⟨hreadable, hkey, hread, fun key h => parsePath_bijective.2.2 _ _ path h hread⟩

end QueryTypes.Rules
