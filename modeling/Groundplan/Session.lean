import Groundplan.Call
import Groundplan.Document.Loader
import Groundplan.Output
import Groundplan.Settings.File

/-!
# Sessions

A session is the work of one program: a workspace, the files it reads and writes, and the events on
the way. Work on a session gives an answer or ends in a failure; in either case the session stays as
far as it came.
-/

namespace Groundplan

/-- A workspace with the files around it, and the events so far. -/
structure Session where
  environment : Environment
  files : FileTree := {}
  workspace : Workspace := {}
  events : List Event := []

/-- Work on a session. -/
abbrev Work (α : Type) := ExceptT Failure (StateM Session) α

namespace Session

/-- Adds an event. -/
def note (e : Event) : Work Unit := modify fun s => { s with events := s.events ++ [e] }

/-- Ends in a failure if there is one. -/
def orFail {ε α : Type} (failure : ε → Failure) : Except ε α → Work α
  | .ok a => pure a
  | .error e => throw (failure e)

/-- Does something to the files. -/
def withFiles {α : Type} (f : Environment → FileTree → FileTree × Except Failure α) : Work α := do
  let s ← get
  let (files, result) := f s.environment s.files
  set { s with files := files }
  orFail id result

/-- The answer of the workspace to a request. -/
def answer (call : Call) : Work (Except Fault Reply) := do
  let s ← get
  let outcome := s.workspace.perform call
  set { s with workspace := outcome.workspace, events := s.events ++ outcome.events }
  return outcome.reply

/-- Asks something of the workspace. -/
def perform (call : Call) : Work Reply := do orFail .ofFault (← answer call)

/-- Takes a document from a value, as far as the limits allow. -/
def loadDocumentWithin (limits : Limits) (v : Value) : Work Document := do
  let w := (← get).workspace
  let d := w.heap.datum v
  let loaded ← orFail .ofBreakdown (Document.loadWithin limits.reading w.naming d)
  let doc ← orFail (fun fault => .fault (.document fault)) loaded
  orFail .json (if Document.hasLongName d then .error .longNumeral else .ok ())
  note (.documentLoaded doc.stackName doc.blocks.keys)
  orFail .ofBreakdown (if limits.freezing.allows doc.depth then .ok () else .error (.tooDeep .values))
  return doc

/-- Takes a document from a value. -/
def loadDocument (v : Value) : Work Document := loadDocumentWithin {} v

/-- Writes a document below an output directory, and answers with its path. -/
def writeDocument (doc : Document) (outdir : String) (layout : Json.Layout) : Work String := do
  let path ← withFiles fun env t => Output.writeDocument t env doc outdir layout
  note (.documentWritten path)
  return path

/-- The settings that a file gives over the defaults, where there is room to read it. -/
def loadSettingsWithin (room : Room) (path : Option String) : Work (Entries Datum) := do
  let s ← get
  let (entries, events) ← orFail .ofBreakdown (Settings.loadWithin room s.files s.environment path)
  events.forM note
  return entries

/-- The settings that a file gives over the defaults. -/
def loadSettings (path : Option String) : Work (Entries Datum) := loadSettingsWithin none path

/-- Writes settings to a file, and answers with its path. -/
def saveSettings (d : Datum) (path : Option String) : Work String := do
  let path ← withFiles fun env t => Settings.save t env d path
  note (.settingsSaved path)
  return path

/-- Makes sound settings of what a file or a caller gave. -/
def checkSettings (strict : Bool) (d : Datum) : Work (Settings × List String) := do
  let w := (← get).workspace
  let checked ← orFail .setting (Settings.check w.naming strict d)
  match d with
  | .mapping false _ => return checked
  | d => do
      note (.settingsRejected (SettingFault.notMapping d.typeName).message)
      return checked

/-- The text of a file. -/
def readText (path : String) : Work String := do
  let s ← get
  orFail .file (s.files.readText s.environment path)

/-- Writes a text to a file. -/
def writeText (path content : String) : Work Unit :=
  withFiles fun env t =>
    let (t, result) := t.writeText env path content
    (t, result.mapError .file)

end Session

end Groundplan
