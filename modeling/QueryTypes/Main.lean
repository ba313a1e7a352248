import QueryTypes.Command

/-!
# Running the command line

Access to the files of the file system, and the entry point.
-/

set_option autoImplicit false

namespace QueryTypes.Main

/-- What is at a path. -/
def listPath (path : String) : IO (Option Listing) := do
  if path.isEmpty then return none
  let place := (← IO.currentDir) / path
  if ← place.isDir then
    let names := (← place.readDir).map fun e => e.fileName
    return some (.dir (names.qsort (· < ·)).toList)
  else if ← place.pathExists then return some .file
  else return none

/-- The text of a file, if it can be read. -/
def readText (path : String) : IO (Option String) := do
  try
    return some (← IO.FS.readFile path)
  catch _ => return none

/-- Write a file and the directories it is in. -/
def writeText (path text : String) : IO (Except WriteError Unit) := do
  let file := (← IO.currentDir) / path
  if let some dir := file.parent then
    try IO.FS.createDirAll dir
    catch _ => return .error (if ← dir.pathExists then .fileExists else .notDirectory)
  try
    IO.FS.writeFile file text
    return .ok ()
  catch _ => return .error .noFile

/-- Access to the files of the file system. -/
def files : FileAccess IO where
  list := listPath
  read := readText
  write := writeText

/-- Run a command. -/
def runCommand (c : Command) : IO UInt32 := do
  let e ← c.execute files
  for message in e.progress.messages do IO.eprintln message
  IO.print e.screen
  return if e.succeeded then 0 else 1

end QueryTypes.Main

/-- The command line. A command that cannot be read ends with status 2. -/
def main (args : List String) : IO UInt32 :=
  match QueryTypes.Command.ofArguments? args with
  | some c => QueryTypes.Main.runCommand c
  | none => do
    IO.eprintln ("usage: (chain | rules) --input FILE... [--jq-expr FILTER] [--strict]" ++
      " [--max-depth N] [--verify-methods] [--verbose] [--out FILE]")
    return 2
