import Groundplan.Event
import Groundplan.Files.TextFile
import Groundplan.Json.Parser
import Groundplan.Settings.Basic

/-!
# The settings file

Settings are kept as a JSON object. A file that is missing or cannot be used stands for the
defaults, with an event that says so; only where the text in it is nested deeper than there is room
for, reading it breaks down. Saving writes as it goes: where a value has no JSON form, what stood in
the file before is gone, and what was written up to that value stays.
-/

namespace Groundplan.Settings

/-- The name of the settings file in the working directory. -/
def fileName : String := "tfsynth.json"

/-- The absolute path of the settings file. Embeds `get_config_path`. -/
def filePath (env : Environment) (path : Option String) : String :=
  match path with
  | some p => if p.isEmpty then absolute else Path.absolute env p
  | none => absolute
where
  /-- The path of the settings file in the working directory. -/
  absolute : String := Path.absolute env (Path.join env.cwd fileName)

/-- What a settings file holds, or why it cannot be read. -/
def readFile (t : FileTree) (env : Environment) (path : String) : Except String Datum :=
  match t.readText env path with
  | .error e => .error e.message
  | .ok text =>
      match Json.read text with
      | .error fault => .error fault.message
      | .ok d => .ok d

/-- What a settings file holds, or why it cannot be used, where there is room to read it. -/
def readFileWithin (room : Room) (t : FileTree) (env : Environment) (path : String) :
    Except Breakdown (Except String Datum) :=
  match t.readText env path with
  | .error e => .ok (.error e.message)
  | .ok text =>
      match Json.readWithin room text with
      | .error (.breakdown cause) => .error cause
      | .error fault => .ok (.error fault.message)
      | .ok d => .ok (.ok d)

/-- The names in a mapping that are no settings, in ascending order. -/
def unknownNames (entries : Entries Datum) : List String :=
  (entries.filterMap fun (k, _) => if defaultEntries.has k then none else k.text?).mergeSort
    fun a b => a ≤ b

/-- The settings that what a file holds gives over the defaults, and what there is to say about it. -/
def overDefaults (path : String) : Except String Datum → Entries Datum × List Event
  | .error reason => (defaultEntries, [.settingsUnreadable path reason])
  | .ok (.mapping _ entries) =>
      let unknown := unknownNames entries
      (overlay entries, if unknown.isEmpty then [] else [.settingsUnknown unknown])
  | .ok _ => (defaultEntries, [.settingsCorrupted])

/-- The settings that a file gives over the defaults, and what there is to say about it. -/
def load (t : FileTree) (env : Environment) (path : Option String) :
    Entries Datum × List Event :=
  let path := filePath env path
  if t.pathExists env path then overDefaults path (readFile t env path)
  else (defaultEntries, [.settingsMissing path])

/-- The settings that a file gives over the defaults, and what there is to say about it, where there
is room to read the file. Embeds `load_config`. -/
def loadWithin (room : Room) (t : FileTree) (env : Environment) (path : Option String) :
    Except Breakdown (Entries Datum × List Event) :=
  let path := filePath env path
  if t.pathExists env path then (readFileWithin room t env path).map (overDefaults path)
  else .ok (defaultEntries, [.settingsMissing path])

/-- How a settings file is set out. -/
def fileLayout : Json.Layout := .ofSpaces 4

/-- Writes settings to a file, and answers with its path. Embeds `save_config`. -/
def save (t : FileTree) (env : Environment) (d : Datum) (path : Option String) :
    FileTree × Except Failure String :=
  let path := filePath env path
  match t.ensureDirectory env (Path.directory path) with
  | (t, .error e) => (t, .error (.file e))
  | (t, .ok ()) =>
      let draft := Json.draft fileLayout 0 d
      match t.writeBytes env path (Text.utf8 (String.ofList draft.written)) with
      | .error e => (t, .error (.file e))
      | .ok t =>
          match draft.fault with
          | some fault => (t, .error (.json fault))
          | none => (t, .ok path)

end Groundplan.Settings
