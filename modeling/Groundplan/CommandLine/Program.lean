import Groundplan.CommandLine.Invocation
import Groundplan.Logging.Root
import Groundplan.Session

/-!
# The program

A run of the program on its arguments: settings are found and made sound, logging starts, and a
command is carried out. Builders of apps come from modules that are given by name. A run keeps what
it printed and logged and the files it left, and ends with an exit code or in a failure.
-/

namespace Groundplan.CommandLine

/-- What a module has under a name: something that populates an app, or something else. -/
inductive Member where
  | builder (build : AppId → Work Unit)
  | other

/-- Modules by name, with their members by name. -/
abbrev Modules := List (String × List (String × Member))

/-- A run of the program. -/
structure Execution where
  session : Session
  modules : Modules := []
  time : String
  root : Logging.Root := {}
  console : String := ""
  output : String := ""
  complaints : String := ""

/-- Work within a run. -/
abbrev Run (α : Type) := ExceptT Failure (StateM Execution) α

namespace Execution

/-- What lines of a log go to. -/
def outlets (p : Execution) : Logging.Outlets := ⟨p.session.files, p.console, p.complaints⟩

/-- A run after something was done to its root logger and outlets. -/
def withOutlets (p : Execution) (root : Logging.Root) (o : Logging.Outlets) : Execution :=
  { p with
    session := { p.session with files := o.files }
    root := root
    console := o.console
    complaints := o.warnings }

/-- A run after an event was logged. -/
def log (p : Execution) (e : Event) : Execution :=
  let (root, o) := p.root.log p.outlets (.ofEvent e p.time)
  p.withOutlets root o

/-- A run after logging has stopped. -/
def shutDown (p : Execution) : Execution :=
  let (root, o) := p.root.shutDown p.session.environment p.outlets
  p.withOutlets root o

end Execution

namespace Run

/-- Logs an event. -/
def report (e : Event) : Run Unit := modify fun p => p.log e

/-- Prints a text. -/
def print (s : String) : Run Unit := modify fun p => { p with output := p.output ++ s }

/-- Prints a text beside the output. -/
def complain (s : String) : Run Unit := modify fun p => { p with complaints := p.complaints ++ s }

/-- Works on the session, and logs what it notes. -/
def work {α : Type} (w : Work α) : Run α := do
  let p ← get
  let (result, s) := w.run.run { p.session with events := [] }
  set ((s.events.foldl Execution.log { p with session := { s with events := [] } }))
  match result with
  | .ok a => return a
  | .error failure => throw failure

/-- Catches a fault of the domain; other failures go on. -/
def orFault {α : Type} (r : Run α) : Run (Except Fault α) :=
  tryCatch (do return .ok (← r)) fun failure =>
    match failure with
    | .fault fault => pure (.error fault)
    | other => throw other

/-- Prints JSON, with a line break after it. -/
def printJson (layout : Json.Layout) (d : Datum) : Run Unit := do
  print ((← work (Session.orFail .json (Json.print layout d))) ++ "\n")

/-- Exit codes: done, no match or no synthesis, nothing to be done, interrupted. -/
def exitDone : Nat := 0

@[inherit_doc exitDone] def exitNoMatch : Nat := 1

@[inherit_doc exitDone] def exitUsage : Nat := 2

@[inherit_doc exitDone] def exitInterrupted : Nat := 130

/-- Gives up with a reason. Embeds `_fail`. -/
def giveUp (reason : String) : Run Nat := do
  report (.failed reason)
  complain s!"ERROR: {reason}\n"
  return exitUsage

/-! ### Documents -/

/-- The path of the document that arguments choose, or why there is none. Embeds
`_resolve_document_path`. -/
def chosenPath (settings : Settings) (choice : DocumentChoice) (s : Session) :
    Except String String :=
  match choice.file.filter (!·.isEmpty), choice.stack.filter (!·.isEmpty) with
  | some file, _ => .ok (Path.resolve s.environment file "")
  | none, some stack => .ok (Output.documentPath settings.outputDir stack)
  | none, none =>
      match Output.stackNames s.files s.environment settings.outputDir with
      | [stack] => .ok (Output.documentPath settings.outputDir stack)
      | [] => .error s!"No synthesized stacks found under '{settings.outputDir}'."
      | several => .error ("Several stacks found (" ++ commaJoined several ++ "); use --stack.")

/-- The document that arguments choose, or why there is none. Embeds `_load_document_or_none`. -/
def chosenDocument (settings : Settings) (choice : DocumentChoice) :
    Run (Except String Document) := do
  let s := (← get).session
  match chosenPath settings choice s with
  | .error reason => return .error reason
  | .ok path =>
      match s.files.readText s.environment path with
      | .error e =>
          if e.isSystem then return .error s!"Cannot read document '{path}': {e.message}"
          else throw (.file e)
      | .ok text =>
          match ← orFault (work (Session.loadDocument (.text text))) with
          | .ok doc => return .ok doc
          | .error fault => return .error s!"Malformed document '{path}': {fault.message}"

/-! ### Commands -/

/-- A summary in lines. Embeds `_print_human_summary`. -/
def summaryText (s : Document.Summary) : String :=
  let head := "Stack: " ++ (if s.stack.isEmpty then "(unknown)" else s.stack)
  let body :=
    if s.blocks.isEmpty then ["  (no blocks)"]
    else
      s.blocks.flatMap fun (kind, types) =>
        (kind.name ++ ":") ::
          types.map fun (type, count) => s!"  - {type.plain Naming.bare}: {count}"
  lines (head :: body)

/-- Shows how many blocks a document has. Embeds `_run_summary`. -/
def runSummary (settings : Settings) (isJson : Bool) (choice : DocumentChoice) : Run Nat := do
  match ← chosenDocument settings choice with
  | .error reason => giveUp reason
  | .ok doc => do
      if isJson then printJson (.ofSpaces settings.indent) doc.summary.toDatum
      else print (summaryText doc.summary)
      return exitDone

/-- The predicate that a text asks for; the empty text asks for none. -/
def predicateOf (text : Option String) : Except String (Option Datum) :=
  match text.filter (!·.isEmpty) with
  | none => .ok none
  | some text =>
      match Json.read text with
      | .error fault => .error s!"--properties is not valid JSON: {fault.message}"
      | .ok (.mapping fixed es) => .ok (some (.mapping fixed es))
      | .ok _ => .error "--properties must be a JSON object."

/-- Whether a document has a block of a kind and type, with what a predicate asks for. Embeds
`_check_block`. -/
def holds (doc : Document) (kind : TypedKind) (type : String) (predicate : Option Datum) :
    Except PredicateFault Bool :=
  match predicate with
  | none => .ok (doc.hasType kind.kind (.text type))
  | some p => doc.hasTypeWith kind.kind (.text type) p

/-- Shows whether a document has a block. Embeds `_run_check`. -/
def runCheck (settings : Settings) (isJson : Bool) (choice : DocumentChoice) (kind : TypedKind)
    (type : String) (properties : Option String) : Run Nat := do
  match predicateOf properties with
  | .error reason => giveUp reason
  | .ok predicate =>
      match ← chosenDocument settings choice with
      | .error reason => giveUp reason
      | .ok doc => do
          let isMatch ← work (Session.orFail .predicate (holds doc kind type predicate))
          let asked := predicate.getD .null
          report (.checked kind.name type (asked.display Naming.bare) isMatch)
          if isJson then
            printJson .oneLine (.record
              [("kind", .text kind.name), ("type", .text type), ("properties", asked),
               ("matched", .bool isMatch)])
          else
            let label := if isMatch then "MATCH" else "NO MATCH"
            print s!"{label}: {kind.name} '{type}'\n"
          return if isMatch then exitDone else exitNoMatch

/-- The module and the member that a text names, with a colon between them. -/
def splitTarget? (target : String) : Option (String × String) :=
  match target.toList.dropWhile (· != ':') with
  | _ :: member =>
      let module := target.toList.takeWhile (· != ':')
      if module.isEmpty || member.isEmpty then none
      else some (String.ofList module, String.ofList member)
  | [] => none

/-- The part of a dotted name before its last dot. -/
def parentName (name : String) : String :=
  match Text.split '.' name with
  | [] => ""
  | parts => ".".intercalate parts.dropLast

/-- The members of a module. A dotted name that is no module's is looked for in the module named by
what is before its last dot, and no module holds others. -/
def importModule (modules : Modules) : Nat → String → Except String (List (String × Member))
  | 0, name => .error ("No module named " ++ Text.quoted name)
  | fuel + 1, name =>
      match modules.lookup name with
      | some members => .ok members
      | none =>
          let missing := "No module named " ++ Text.quoted name
          let parent := parentName name
          if parent.isEmpty then .error missing
          else
            match importModule modules fuel parent with
            | .error reason => .error reason
            | .ok _ => .error (missing ++ "; " ++ Text.quoted parent ++ " is not a package")

/-- The members that every module has. -/
def commonMembers : List String :=
  ["__name__", "__doc__", "__package__", "__loader__", "__spec__", "__dict__"]

/-- The builder that a text names, or why there is none. Embeds `_import_target`. -/
def findBuilder (modules : Modules) (target : String) :
    Except Failure (Except String (AppId → Work Unit)) :=
  match splitTarget? target with
  | none => .ok (.error "expected 'module:function'")
  | some (module, name) =>
      if module.toList.head? = some '.' then
        .error (.raised "TypeError" ("the 'package' argument is required to perform a relative " ++
          "import for " ++ Text.quoted module))
      else
        match importModule modules (module.length + 1) module with
        | .error reason => .ok (.error reason)
        | .ok members =>
            match members.lookup name with
            | some (.builder build) => .ok (.ok build)
            | some .other => .ok (.error s!"'{name}' is not callable")
            | none =>
                .ok (.error (if commonMembers.contains name then s!"'{name}' is not callable"
                  else "module " ++ Text.quoted module ++ " has no attribute " ++
                    Text.quoted name))

/-- The documents of an app that a builder populates. -/
def builtDocuments (settings : Settings) (build : AppId → Work Unit) :
    Work (List (String × Document)) := do
  match ← Session.perform (.createApp settings.outputDir) with
  | .app a => do
      build a
      match ← Session.perform (.synthesizeApp a settings.emitMetadata) with
      | .documents docs => return docs
      | _ => return []
  | _ => return []

/-- Writes the documents of an app that a builder populates. No document is written unless all stacks
can be synthesised. Embeds `_run_synth`. -/
def runSynth (settings : Settings) (isJson : Bool) (target : String) : Run Nat := do
  match ← work (Session.orFail id (findBuilder (← get).modules target)) with
  | .error reason => giveUp s!"Cannot load builder '{target}': {reason}"
  | .ok build => do
      match ← orFault (work (builtDocuments settings build)) with
      | .error fault => do
          report (.synthesisFailed fault.message)
          if isJson then printJson .oneLine fault.report
          return exitNoMatch
      | .ok docs => do
          let layout := Json.Layout.ofSpaces settings.indent
          let written ← docs.mapM fun (name, doc) => do
            return (name, ← work (Session.writeDocument doc settings.outputDir layout))
          if isJson then
            printJson layout (.record
              [("stacks", .record (written.map fun (name, path) => (name, .text path)))])
          else if written.isEmpty then print "No stacks declared.\n"
          else print (lines (written.map fun (name, path) => s!"  - {name}: {path}"))
          return exitDone

/-- Carries a command out. -/
def runCommand (settings : Settings) (isJson : Bool) : Command → Run Nat
  | .summary choice => runSummary settings isJson choice
  | .check choice kind type properties => runCheck settings isJson choice kind type properties
  | .synth target => runSynth settings isJson target

/-! ### The whole run -/

/-- Settings with what the command line says instead. Embeds `args_to_overrides` and
`_merge_config`. -/
def overridden (entries : Entries Datum) (i : Invocation) : Entries Datum :=
  let entries :=
    match i.outputDir with
    | some directory => entries.set (.text "output_dir") (.text directory)
    | none => entries
  if i.isDebug then entries.set (.text "log_level") (.text Severity.debug.name) else entries

/-- The absolute path that a setting means, unless the user whose home directory it starts with
cannot be looked up. -/
def locate (env : Environment) (path fallback : String) : Except FileError String :=
  if Path.hasNullUser (Text.strip path) then .error .nullCharacter
  else .ok (Path.resolve env path fallback)

/-- Settings with their paths made absolute. -/
def located (env : Environment) (s : Settings) : Except FileError Settings := do
  let outputDir ← locate env s.outputDir Workspace.defaultOutdir
  let logFile ← if s.logFile.isEmpty then pure "" else locate env s.logFile ""
  return { s with outputDir := outputDir, logFile := logFile }

/-- Starts logging. -/
def startLogging (settings : Settings) : Run Unit := do
  let p ← get
  let (root, o, result) :=
    p.root.configure p.session.environment (.ofSettings settings true) false p.outlets
  set (p.withOutlets root o)
  work (Session.orFail .file result)

/-- The settings that hold for a run, and the warnings about them. -/
def soundSettings (i : Invocation) : Run (Settings × List String) := do
  let entries ← work (Session.loadSettings i.settingsPath)
  let (settings, warnings) ←
    work (Session.checkSettings false (.mapping false (overridden entries i)))
  let settings ← work (Session.orFail .file (located (← get).session.environment settings))
  return (settings, warnings)

/-- Does what arguments ask for. -/
def carryOut (i : Invocation) : Run Nat := do
  let (settings, warnings) ← soundSettings i
  startLogging settings
  warnings.forM fun w => report (.constraint w)
  if i.dumpsSettings then
    printJson (.ofSpaces 2) settings.toDatum
    return exitDone
  else
    match i.command with
    | none => do
        complain programGrammar.help
        return exitUsage
    | some command =>
        tryCatch (runCommand settings i.isJson command) fun failure =>
          match failure with
          | .interrupted => do
              complain "Interrupted.\n"
              return exitInterrupted
          | other => throw other

/-- Takes arguments in and does what they ask for. Embeds `main`. -/
def runArguments (arguments : List String) : Run Nat :=
  match Invocation.ofArguments arguments with
  | .error stop => do
      print stop.answer
      complain stop.complaint
      return stop.code
  | .ok i => carryOut i

end Run

namespace Execution

/-- The paths below which a run may look for files, once its settings file is known. -/
def paths (p : Execution) (arguments : List String) : List String :=
  match Invocation.ofArguments arguments with
  | .error _ => []
  | .ok i =>
      match (StateT.run (ExceptT.run (Run.soundSettings i)) p).1 with
      | .error _ => []
      | .ok (settings, _) =>
          let file :=
            match i.command with
            | some (.summary choice) | some (.check choice _ _ _) => choice.file
            | _ => none
          let log : Logging.RotatingFile :=
            ⟨settings.logFile, settings.logMaxBytes, settings.logBackupCount⟩
          let logs :=
            if settings.logFile.isEmpty then []
            else (List.range (log.backups.toNat + 1)).map log.pathOf
          [Path.join settings.outputDir Output.stacksName] ++ logs ++
            (file.map fun f => Path.resolve p.session.environment f "").toList

/-- The whole of a run: how it ends, and what it leaves once logging has stopped. -/
def run (p : Execution) (arguments : List String) : Except Failure Nat × Execution :=
  let (result, p) := StateT.run (ExceptT.run (Run.runArguments arguments)) p
  (result, p.shutDown)

end Execution

end Groundplan.CommandLine
