import QueryTypes.Ty.Union

/-!
# Pages

The envelope that a paginated query puts around its rows.
-/

set_option autoImplicit false

namespace QueryTypes

/-- The kinds of pages. -/
inductive PageKind where
  /-- With totals and a list of links. -/
  | lengthAware
  /-- Without totals. -/
  | simple
  /-- With cursors in place of page numbers. -/
  | cursor
  deriving DecidableEq

namespace PageKind

/-- The kind of page a method makes. -/
def ofMethod? : String → Option PageKind
  | "paginate" => some .lengthAware
  | "simplePaginate" => some .simple
  | "cursorPaginate" => some .cursor
  | _ => none

/-- The origin of the envelope. -/
def origin : PageKind → String
  | .lengthAware => "length_aware_paginator"
  | .simple => "paginator"
  | .cursor => "cursor_paginator"

/-- The number of a page. -/
def pageNumber : Ty := .integerFrom 1

/-- A web address. -/
def url : Ty := .formatted .string "uri"

/-- All names, each of which is there. -/
def present (entries : Entries Ty) : Entries Ty := entries.map fun e => (e.1, e.2.withRequired true)

/-- A link of the list of links. -/
def link : Ty :=
  .object (present [("url", url.nullable), ("label", .string), ("active", .boolean)]) none

/-- The rows of a page. -/
def rows (row : Ty) : Ty := (Ty.list row).withOrigin (some collectionOrigin)

/-- What an envelope holds. -/
def entries (row : Ty) : PageKind → Entries Ty
  | .lengthAware =>
    [("current_page", pageNumber), ("data", rows row), ("first_page_url", url),
      ("from", Ty.integer.nullable), ("last_page", pageNumber), ("last_page_url", url),
      ("links", .list link), ("next_page_url", url.nullable), ("path", url.nullable),
      ("per_page", .integer), ("prev_page_url", url.nullable), ("to", Ty.integer.nullable),
      ("total", .integer)]
  | .simple =>
    [("current_page", pageNumber), ("data", rows row), ("first_page_url", url),
      ("from", Ty.integer.nullable), ("next_page_url", url.nullable), ("path", url.nullable),
      ("per_page", .integer), ("prev_page_url", url.nullable), ("to", Ty.integer.nullable)]
  | .cursor =>
    [("data", rows row), ("path", url.nullable), ("per_page", .integer),
      ("next_cursor", Ty.string.nullable), ("next_page_url", url.nullable),
      ("prev_cursor", Ty.string.nullable), ("prev_page_url", url.nullable)]

/-- The envelope around rows. -/
def envelope (kind : PageKind) (row : Ty) : Ty :=
  .object (present (kind.entries row)) (some kind.origin)

end PageKind

end QueryTypes
