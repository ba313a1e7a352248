import QueryTypes.Entries
import QueryTypes.Text.Blank

/-!
# Files and folders

What a command asks of a file system (`FileAccess`): what is at a path, the text of a file, and to
write one. The answers come in any monad, so that a command can be run on files and also in a folder
of texts (`Folder`), where it is a function.

The names of a path are separated by slashes; a name may stay (`.` or nothing) or go back (`..`).
-/

set_option autoImplicit false

namespace QueryTypes

/-! ## Access to files -/

/-- What is at a path: a file, or a directory with the names in it in alphabetical order. -/
inductive Listing where
  | file
  | dir (names : List String)

/-- Why a text cannot be written to a path. -/
inductive WriteError where
  /-- The directory of the path is a file. -/
  | fileExists
  /-- The path leads through a file. -/
  | notDirectory
  /-- A file cannot be at the path. -/
  | noFile

/-- Access to files. -/
structure FileAccess (m : Type → Type) where
  list : String → m (Option Listing)
  read : String → m (Option String)
  /-- Write a text to a file, whose directories are made if they are missing. -/
  write : String → String → m (Except WriteError Unit)

/-! ## Trees of files -/

/-- The names below a place in a file system. -/
inductive FileTree where
  | file
  | dir (children : List (String × FileTree))

namespace FileTree

/-- The names in a directory. -/
def children : FileTree → List (String × FileTree)
  | .file => []
  | .dir children => children

/-- A directory. -/
def isDir : FileTree → Bool
  | .file => false
  | .dir _ => true

/-- Put a name into a directory at its alphabetical place, or change what it names. -/
def place (name : String) (change : FileTree → FileTree) :
    List (String × FileTree) → List (String × FileTree)
  | [] => [(name, change (.dir []))]
  | (n, t) :: rest =>
    if n = name then (n, change t) :: rest
    else if name < n then (name, change (.dir [])) :: (n, t) :: rest
    else (n, t) :: place name change rest

/-- The tree with a file at the end of a path. -/
def insert : List String → FileTree → FileTree
  | [], _ => .file
  | name :: names, t => .dir (place name (insert names) t.children)

/-- The directory with these files. -/
def ofPaths (paths : List String) : FileTree :=
  paths.foldl (fun t path => t.insert (Text.splitOn '/' path)) (.dir [])

/-- What a name in a directory leads to. -/
def child? (t : FileTree) (name : String) : Option FileTree := t.children.lookup name

/-- What a tree is at its root. -/
def listing : FileTree → Listing
  | .file => .file
  | .dir children => .dir (children.map Prod.fst)

/-- The name leads nowhere else. -/
def stays (name : String) : Bool := name = "" || name = "."

/-- Where going back leads from a directory, given the directories above it, the nearest first.
Above the first one lie directories of which no name is known. -/
def back : List FileTree → List FileTree × FileTree
  | parent :: above => (above, parent)
  | [] => ([], .dir [])

/-- What a path leads to from a directory, given the directories above it. -/
def walk? : List FileTree → FileTree → List String → Option FileTree
  | _, t, [] => some t
  | above, t, name :: names =>
    if !t.isDir then none
    else if stays name then walk? above t names
    else if name = ".." then walk? (back above).1 (back above).2 names
    else
      match t.child? name with
      | some next => walk? (t :: above) next names
      | none => none

/-- What a relative path leads to. -/
def find? (t : FileTree) (path : String) : Option FileTree :=
  if path.isEmpty || path.startsWith "/" then none else walk? [] t (Text.splitOn '/' path)

/-- The directory that a path leads to, where every name that is missing is a directory without
names. -/
def makeWay : List FileTree → FileTree → List String → Except WriteError FileTree
  | _, t, [] => if t.isDir then .ok t else .error .fileExists
  | above, t, name :: names =>
    if !t.isDir then .error .notDirectory
    else if name = ".." then makeWay (back above).1 (back above).2 names
    else makeWay (t :: above) ((t.child? name).getD (.dir [])) names

/-- The names on a way, without those that stay or go back; `none` if it leads above its start. -/
def normalNames? (before : List String) : List String → Option (List String)
  | [] => some before
  | name :: names =>
    if stays name then normalNames? before names
    else if name = ".." then
      if before.isEmpty then none else normalNames? before.dropLast names
    else normalNames? (before ++ [name]) names

end FileTree

/-! ## Folders of texts -/

/-- Texts under relative paths. -/
structure Folder where
  files : Entries String := []

namespace Folder

/-- The names in a folder. -/
def tree (f : Folder) : FileTree := .ofPaths f.files.keys

/-- The names on a way inside a folder; `none` if the way leads out of it. -/
def namesOf? (path : String) : Option (List String) :=
  if path.startsWith "/" then none else FileTree.normalNames? [] (Text.splitOn '/' path)

/-- The text of a file. -/
def read? (f : Folder) (path : String) : Option String :=
  match f.tree.find? path with
  | some .file => (namesOf? path).bind fun names => f.files.get? ("/".intercalate names)
  | _ => none

/-- The path ends in the name of a file: it does not end in a name that stays or goes back. -/
def endsInName (path : String) : Bool :=
  match (Text.splitOn '/' path).getLast? with
  | some name => !FileTree.stays name && name != ".."
  | none => false

/-- The folder with a text at a path. What is written outside the folder is not kept. -/
def write (f : Folder) (path text : String) : Except WriteError Folder := do
  if path.startsWith "/" then return f
  let names := (Text.splitOn '/' path).filter fun name => !FileTree.stays name
  let dir ← FileTree.makeWay [] f.tree names.dropLast
  let taken := (names.getLast?.bind dir.child?).any FileTree.isDir
  if taken || !endsInName path then throw .noFile
  match namesOf? path with
  | some names => return ⟨f.files.put ("/".intercalate names) text⟩
  | none => return f

/-- Access to the files of a folder. -/
def access : FileAccess (StateM Folder) where
  list path := do return ((← get).tree.find? path).map FileTree.listing
  read path := do return (← get).read? path
  write path text := do
    match (← get).write path text with
    | .ok f => do
      set f
      return .ok ()
    | .error e => return .error e

end Folder

end QueryTypes
