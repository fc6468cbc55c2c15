import Groundplan.CommandLine.Program
import Groundplan.Logging.Stamp

/-!
# The command line

The files that a run may look at are read into a tree, the run is made on that tree, and what it
changed is written back. Nothing is decided here.
-/

namespace Groundplan

/-- The path of a place. -/
def pathOf (place : List String) : String := "/" ++ "/".intercalate place

/-- The tree with a place of the system in it, if something stands there, and with all below it. -/
partial def mountPlace (t : FileTree) (place : List String) : IO FileTree := do
  try
    let real ← IO.FS.realPath (pathOf place)
    if ← real.isDir then
      let t := if place.isEmpty then t else t.put place .directory
      (← real.readDir).foldlM (fun t e => mountPlace t (place ++ [e.fileName])) t
    else if ← real.pathExists then
      return t.put place (.file (← IO.FS.readBinFile real).data.toList)
    else return t
  catch _ => return t

/-- The tree with the directories of the system that lead to a place. -/
def mountWay (t : FileTree) (place : List String) : IO FileTree :=
  (List.range place.length).foldlM (fun t n => do
    let before := place.take n
    if before.isEmpty || !(← (← IO.FS.realPath (pathOf before)).isDir) then return t
    else return t.put before .directory) t

/-- The tree with what a path of the system leads to. -/
def mount (t : FileTree) (path : String) : IO FileTree := do
  let place := Path.components path
  mountPlace (← try mountWay t place catch _ => pure t) place

/-- The names after dollar signs in a text. -/
def variableNames (text : String) : List String :=
  (Text.split '$' text).tail.filterMap fun part => (Path.variableName? part.toList).map (·.1)

/-- The variables of the system with some names. -/
def readVariables (names : List String) : IO (List (String × String)) :=
  names.filterMapM fun name => do return (← IO.getEnv name).map fun value => (name, value)

/-- The time of the system. -/
def currentTime : IO String :=
  IO.FS.withTempFile fun _ path => do
    return Logging.Stamp.ofSeconds (← path.metadata).modified.sec.toNat

/-- Writes to the system what a run changed. -/
def writeBack (before after : FileTree) : IO Unit := do
  for (place, e) in after.entries do
    if e = .directory && before.find? place ≠ some .directory then
      IO.FS.createDirAll (pathOf place)
  for (place, bytes) in FileTree.changedFiles before after do
    IO.FS.writeBinFile (pathOf place) ⟨bytes.toArray⟩
  for (place, e) in before.entries do
    if e ≠ .directory && (after.find? place).isNone then IO.FS.removeFile (pathOf place)

/-- A run before it starts: the working directory, the variables that its arguments and its settings
file name, and the files below it that it may look at. -/
def prepare (arguments : List String) : IO CommandLine.Execution := do
  let cwd := (← IO.currentDir).toString
  let settingsPath : Option String :=
    match CommandLine.Invocation.ofArguments arguments with
    | .ok i => i.settingsPath
    | .error _ => none
  let path := Settings.filePath ⟨cwd, []⟩ settingsPath
  let files ← mount {} path
  let text := ((files.readText ⟨cwd, []⟩ path).toOption).getD ""
  let vars ← readVariables ("HOME" :: (text :: arguments).flatMap variableNames)
  let start : CommandLine.Execution :=
    { session := { environment := ⟨cwd, vars⟩, files := files }, time := ← currentTime }
  let files ← (start.paths arguments).foldlM mount files
  return { start with session := { start.session with files := files } }

end Groundplan

/-- Runs the program on its arguments. -/
def main (arguments : List String) : IO UInt32 := do
  let start ← Groundplan.prepare arguments
  let (result, finished) := start.run arguments
  Groundplan.writeBack start.session.files finished.session.files
  IO.print finished.output
  IO.eprint finished.complaints
  IO.eprint finished.console
  match result with
  | .ok code => return code.toUInt32
  | .error failure => do
      IO.eprintln failure.message
      return 1
