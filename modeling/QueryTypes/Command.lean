import QueryTypes.Filter.Parser
import QueryTypes.Glob
import QueryTypes.Request

/-!
# The command line

`chain` and `rules` read request documents from files and write the schemas of their answers. This
module reads the arguments, expands the inputs to paths, and makes the output and the messages from
the texts of the files. Files are reached through a `FileAccess` only, so a command can also be run
in a folder of texts (`Command.executeIn`).
-/

set_option autoImplicit false

namespace QueryTypes

/-! ## Arguments -/

/-- What a command asks for. -/
inductive Job where
  /-- The type of an expression. -/
  | chain
  /-- The type of a form. -/
  | rules
  deriving DecidableEq

/-- A command. -/
structure Command where
  job : Job
  /-- A filter for each document, whose outputs are the requests. -/
  filter : Option String := none
  /-- Paths and globs of the documents. -/
  inputs : List String := []
  strict : Bool := false
  maxDepth : Option Nat := none
  verifyMethods : Bool := false
  /-- Notes are written as warnings. -/
  verbose : Bool := false
  /-- The file for the output. -/
  out : Option String := none

namespace Command

/-- The options of a command. -/
inductive Opt where
  | filter
  | input
  | strict
  | maxDepth
  | verifyMethods
  | verbose
  | out
  deriving DecidableEq

/-- An option by its long name. -/
def Opt.ofLong? : String → Option Opt
  | "jq-expr" => some .filter
  | "input" => some .input
  | "strict" => some .strict
  | "max-depth" => some .maxDepth
  | "verify-methods" => some .verifyMethods
  | "verbose" => some .verbose
  | "out" => some .out
  | _ => none

/-- An option by its letter. -/
def Opt.ofLetter? : Char → Option Opt
  | 'i' => some .input
  | 'v' => some .verbose
  | 'o' => some .out
  | _ => none

/-- The option takes a value. -/
def Opt.takesValue : Opt → Bool
  | .filter | .input | .maxDepth | .out => true
  | .strict | .verifyMethods | .verbose => false

/-- Set an option without a value, once. -/
def setFlag (c : Command) : Opt → Option Command
  | .strict => if c.strict then none else some { c with strict := true }
  | .verifyMethods => if c.verifyMethods then none else some { c with verifyMethods := true }
  | .verbose => if c.verbose then none else some { c with verbose := true }
  | _ => none

/-- Set an option with a value; all but the inputs are set once. -/
def setValue (c : Command) (value : String) : Opt → Option Command
  | .input => some { c with inputs := c.inputs ++ [value] }
  | .filter => if c.filter.isSome then none else some { c with filter := some value }
  | .maxDepth =>
    if c.maxDepth.isSome then none
    else (Numeral.readNat64? value).map fun n => { c with maxDepth := some n }
  | .out => if c.out.isSome || value.isEmpty then none else some { c with out := some value }
  | _ => none

/-- What the next argument may be: a value that an option needs, a further input, or neither. -/
inductive Expecting where
  | value (o : Opt)
  | moreInputs
  | nothing
  deriving DecidableEq

/-- What follows an option that takes a value. -/
def Opt.expecting : Opt → Expecting
  | .input => .moreInputs
  | _ => .nothing

/-- Read letters of options: a letter that takes a value takes the rest of them. -/
def readLetters (c : Command) : List Char → Option (Command × Expecting)
  | [] => some (c, .nothing)
  | letter :: rest => do
    let o ← Opt.ofLetter? letter
    if o.takesValue then
      match rest with
      | [] => return (c, .value o)
      | '=' :: value | value => do
        let c ← c.setValue (String.ofList value) o
        return (c, .nothing)
    else do
      let c ← c.setFlag o
      readLetters c rest

/-- Read the long name of an option, with a value after an equals sign. -/
def readLong (c : Command) (text : List Char) : Option (Command × Expecting) :=
  match Text.cutAt '=' text with
  | some (name, value) => do
    let o ← Opt.ofLong? (String.ofList name)
    if o.takesValue then
      let c ← c.setValue (String.ofList value) o
      return (c, .nothing)
    else none
  | none => do
    let o ← Opt.ofLong? (String.ofList text)
    if o.takesValue then return (c, .value o)
    else do
      let c ← c.setFlag o
      return (c, .nothing)

/-- Read one argument. -/
def readArgument (c : Command) (expecting : Expecting) (arg : String) :
    Option (Command × Expecting) :=
  match arg.toList, expecting with
  | '-' :: '-' :: _ :: _, .value _ | '-' :: _ :: _, .value _ => none
  | '-' :: '-' :: name, _ => readLong c name
  | '-' :: letter :: letters, _ => readLetters c (letter :: letters)
  | _, .value o => do
    let c ← c.setValue arg o
    return (c, o.expecting)
  | _, .moreInputs => do
    let c ← c.setValue arg .input
    return (c, .moreInputs)
  | _, .nothing => none

/-- No value is missing. -/
def Expecting.isDone : Expecting → Bool
  | .value _ => false
  | .moreInputs | .nothing => true

/-- Read the arguments after the job. Nothing may follow two dashes. -/
def readArguments (c : Command) (expecting : Expecting) : List String → Option Command
  | [] | ["--"] => if expecting.isDone then some c else none
  | arg :: rest => do
    let (c, expecting) ← readArgument c expecting arg
    readArguments c expecting rest

/-- The command of arguments; there must be an input. -/
def ofArguments? (args : List String) : Option Command := do
  let (job, rest) ← match args with
    | "chain" :: rest => some (Job.chain, rest)
    | "rules" :: rest => some (Job.rules, rest)
    | _ => none
  let c ← readArguments { job } .nothing rest
  if c.inputs.isEmpty then none else some c

/-! ## Inputs -/

/-- Why a command fails. -/
inductive Failure where
  /-- A glob that is not well formed. -/
  | badGlob (pattern : String)
  /-- A glob that matches nothing. -/
  | noMatch (pattern : String)
  | unreadable (path : String)
  | notJson (path : String)
  | badFilter (path : String)
  | badRequest (path : String)
  | failed (path : String) (error : InferError)
  | unwritable (path : String) (error : WriteError)

/-- The text of a failure. The source of a failure to read a catalog is named once more at the
end. -/
def Failure.message : Failure → String
  | .badGlob pattern => "invalid glob pattern " ++ pattern
  | .noMatch pattern => "glob pattern matched no files: " ++ pattern
  | .unreadable path => "failed to read source file " ++ path
  | .notJson path => "failed to parse JSON source file " ++ path
  | .badFilter path => "failed to apply jq expression to source file " ++ path
  | .badRequest path => "invalid request document " ++ path
  | .failed path error =>
    let cause := match error with
      | .catalog _ source => ": " ++ source.message
      | _ => ""
    "inference failed for " ++ path ++ ": " ++ error.message ++ cause
  | .unwritable _ .fileExists => "File exists (os error 17)"
  | .unwritable _ .notDirectory => "Not a directory (os error 20)"
  | .unwritable path .noFile => "failed to write " ++ path

section

variable {m : Type → Type} [Monad m]

/-- The paths of an input. -/
def expandInput (list : String → m (Option Listing)) (input : String) :
    ExceptT Failure m (List String) := do
  if Glob.isPattern input then
    match Glob.ofString? input with
    | none => throw (.badGlob input)
    | some g =>
      match ← ExceptT.lift (g.expand list) with
      | [] => throw (.noMatch input)
      | paths => return paths
  else return [input]

/-- The paths of all inputs, in order. -/
def paths (c : Command) (list : String → m (Option Listing)) : ExceptT Failure m (List String) :=
  c.inputs.flatMapM (expandInput list)

end

/-! ## Running -/

/-- The policy of a document under the options of the command. -/
def configure (c : Command) (config : Config) : Config where
  maxDepth := c.maxDepth.getD config.maxDepth
  verifyMethods := config.verifyMethods || c.verifyMethods
  strict := config.strict || c.strict
  defaultRuleKind := config.defaultRuleKind

/-- Answer a request document. -/
def answer (c : Command) (path : String) (doc : Json) : Except Failure Outcome :=
  let run {α : Type} (decoded : Decode α) (run : α → Except InferError Outcome) :=
    match decoded with
    | .error _ => .error (Failure.badRequest path)
    | .ok request => (run request).mapError (Failure.failed path)
  match c.job with
  | .chain => run (ChainRequest.decode doc) fun r => { r with config := c.configure r.config }.run
  | .rules => run (RulesRequest.decode doc) fun r => { r with config := c.configure r.config }.run

/-- The request documents in the text of a file. -/
def documents (c : Command) (path : String) : Option String → Except Failure (List Json)
  | none => .error (.unreadable path)
  | some text =>
    match Json.read? text with
    | none => .error (.notJson path)
    | some doc =>
      match c.filter with
      | none => .ok [doc.settle]
      | some source =>
        match (Filter.ofString? source).bind fun f => f.run? doc.settle with
        | some docs => .ok docs
        | none => .error (.badFilter path)

/-- What a command has produced: warnings, schemas, and the failure that ended it. -/
structure Progress where
  warnings : List String := []
  schemas : List Json := []
  failure : Option Failure := none

/-- Answer the documents of a file one after the other, up to the first failure. -/
def answerAll (c : Command) (path : String) (p : Progress) : List Json → Progress
  | [] => p
  | doc :: rest =>
    match c.answer path doc with
    | .error failure => { p with failure := some failure }
    | .ok outcome =>
      let warnings :=
        if c.verbose then outcome.notes.map fun n => "warning: " ++ path ++ ": " ++ n.line else []
      answerAll c path
        { p with
          warnings := p.warnings ++ warnings
          schemas := p.schemas ++ [outcome.schema.toJson] } rest

/-- The output: the schema if there is one, otherwise the list of all. -/
def Progress.output (p : Progress) : String :=
  match p.schemas with
  | [schema] => schema.pretty
  | schemas => (Json.arr schemas).pretty

/-- The messages: the warnings, then the failure. -/
def Progress.messages (p : Progress) : List String :=
  p.warnings ++ (p.failure.map fun f => "error: " ++ f.message).toList

/-- What a command leaves behind, apart from files. -/
structure Execution where
  /-- What was produced, and the failure that ended it. -/
  progress : Progress
  /-- What is written to the screen. -/
  screen : String

/-- The command succeeded. -/
def Execution.succeeded (e : Execution) : Bool := e.progress.failure.isNone

section

variable {m : Type → Type} [Monad m]

/-- Answer the documents of files one after the other, up to the first failure. -/
def process (c : Command) (read : String → m (Option String)) (p : Progress) :
    List String → m Progress
  | [] => return p
  | path :: rest => do
    match c.documents path (← read path) with
    | .error failure => return { p with failure := some failure }
    | .ok docs =>
      let p := c.answerAll path p docs
      if p.failure.isSome then return p else process c read p rest

/-- Answer all documents of a command. -/
def run (c : Command) (files : FileAccess m) : m Progress := do
  match ← (c.paths files.list).run with
  | .error failure => return { failure := some failure }
  | .ok paths => c.process files.read {} paths

/-- Run a command and write its output. -/
def execute (c : Command) (files : FileAccess m) : m Execution := do
  let p ← c.run files
  match p.failure, c.out with
  | some _, _ => return ⟨p, ""⟩
  | none, none => return ⟨p, p.output ++ "\n"⟩
  | none, some path =>
    match ← files.write path p.output with
    | .ok () => return ⟨p, ""⟩
    | .error e => return ⟨{ p with failure := some (.unwritable path e) }, ""⟩

end

/-- Run a command in a folder; the folder is given back with what was written to it. -/
def executeIn (c : Command) (folder : Folder) : Execution × Folder :=
  (c.execute Folder.access).run folder

end Command

end QueryTypes
