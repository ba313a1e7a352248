import QueryTypes.Proofs.Lists
import QueryTypes.Rules.Path

/-!
# Paths as they are written

`renderPath` writes a path: fields and wildcards with dots between them, the dots inside a field
escaped. A key that can be read is what its path is written as (`renderPath_of_parsePath`), so that
different keys lead to different places (`parsePath_injective`).
-/

set_option autoImplicit false

namespace QueryTypes.Rules

/-- A piece of a path as it is written. -/
def escapeDots (piece : List Char) : List Char :=
  piece.flatMap fun c => if c = '.' then ['\\', '.'] else [c]

/-- Pieces with dots between them. -/
def joinPieces : List (List Char) → List Char
  | [] => []
  | [piece] => escapeDots piece
  | piece :: next :: rest => escapeDots piece ++ '.' :: joinPieces (next :: rest)

/-- The piece that a segment is read from. -/
def Segment.piece : Segment → List Char
  | .field name => name.toList
  | .wildcard => ['*']

/-- The key of a path. -/
def renderPath (path : List Segment) : String :=
  String.ofList (joinPieces (path.map Segment.piece))

theorem joinPieces_cons_cons (c : Char) (piece : List Char) (more : List (List Char)) :
    joinPieces ((c :: piece) :: more) = escapeDots [c] ++ joinPieces (piece :: more) := by
  cases more with
  | nil => simp [joinPieces, escapeDots]
  | cons next rest => simp [joinPieces, escapeDots]

/-- Reading a text into pieces loses nothing. -/
theorem joinPieces_pieces (cs : List Char) :
    joinPieces ((pieces cs).1 :: (pieces cs).2) = cs := by
  induction cs using pieces.induct with
  | case1 => rfl
  | case2 rest piece more hpieces ih =>
    rw [pieces, joinPieces_cons_cons, ih]
    rfl
  | case3 rest piece more hpieces ih =>
    rw [pieces]
    exact congrArg ('.' :: ·) ih
  | case4 c rest hescaped hdot piece more hpieces ih =>
    have hc : c ≠ '.' := hdot
    rw [pieces, joinPieces_cons_cons, ih]
    · simp [escapeDots, hc]
    · exact hescaped
    · exact hdot

theorem piece_of_ofPiece? {piece : List Char} {segment : Segment}
    (h : Segment.ofPiece? piece = some segment) : segment.piece = piece := by
  unfold Segment.ofPiece? at h
  split at h
  · cases h
  · cases h
    rfl
  · cases h
    exact String.toList_ofList

theorem map_piece_of_mapM {ps : List (List Char)} {segments : List Segment}
    (h : ps.mapM Segment.ofPiece? = some segments) : segments.map Segment.piece = ps := by
  have hpieces := (mapM_eq_some.1 h).imp fun _ _ => piece_of_ofPiece?
  rw [← List.forall₂_eq_eq_eq, List.forall₂_map_left_iff]
  exact hpieces.flip

/-- What a key that can be read is read from. -/
theorem pieces_of_parsePath {key : String} {path : List Segment} (h : parsePath key = .ok path) :
    path.map Segment.piece = (pieces key.toList).1 :: (pieces key.toList).2 := by
  unfold parsePath at h
  rcases hpieces : pieces key.toList with ⟨first, more⟩
  rw [hpieces] at h
  dsimp only at h
  split at h
  · cases h
  · split at h
    · next segments hmap =>
      cases h
      exact map_piece_of_mapM hmap
    · cases h

/-- A key that can be read is the key of its path. -/
theorem renderPath_of_parsePath {key : String} {path : List Segment}
    (h : parsePath key = .ok path) : renderPath path = key := by
  rw [renderPath, pieces_of_parsePath h, joinPieces_pieces, String.ofList_toList]

/-- Different keys lead to different places. -/
theorem parsePath_injective {key key' : String} {path : List Segment} (h : parsePath key = .ok path)
    (h' : parsePath key' = .ok path) : key = key' := by
  rw [← renderPath_of_parsePath h, renderPath_of_parsePath h']

theorem ne_nil_of_parsePath {key : String} {path : List Segment} (h : parsePath key = .ok path) :
    path ≠ [] := by
  rintro rfl
  exact List.cons_ne_nil _ _ (pieces_of_parsePath h).symm

end QueryTypes.Rules
