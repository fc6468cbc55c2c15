import Groundplan.Files.Tree
import Groundplan.Logging.Record

/-!
# Sinks

Where the lines of a log go: to the console, or to a file that is kept small. Before a line would
bring the file to its limit, the file is moved aside under its path with `.1` after it, the one
before that to `.2` and so on, and the oldest is dropped. The limit counts the bytes in the file and
the characters of the line. Without room for old files the file goes on growing.
-/

namespace Groundplan.Logging

/-- Where lines go, and what else is written beside them. -/
structure Outlets where
  files : FileTree
  console : String := ""
  warnings : String := ""

/-- The outlets with a text added to what stands beside the lines of a log. -/
def Outlets.warn (o : Outlets) (text : String) : Outlets :=
  { o with warnings := o.warnings ++ text }

/-- A file that is moved aside when it is full. -/
structure RotatingFile where
  path : String
  limit : Int
  backups : Int

namespace RotatingFile

/-- The path of the file, or of one of its old files by their age. -/
def pathOf (f : RotatingFile) (age : Nat) : String :=
  if age = 0 then f.path else s!"{f.path}.{age}"

/-- Moves one old file to the place of the next older one, which is dropped. -/
def age (f : RotatingFile) (env : Environment) (t : FileTree) (i : Nat) :
    Except FileError FileTree := do
  if t.pathExists env (f.pathOf i) then
    let t ← if t.pathExists env (f.pathOf (i + 1)) then t.removeFile env (f.pathOf (i + 1))
      else pure t
    t.move env (f.pathOf i) (f.pathOf (i + 1))
  else return t

/-- Moves the files younger than an age aside, the oldest first, as far as they can be moved; answers
with whether all of them could. -/
def ageAll (f : RotatingFile) (env : Environment) : Nat → FileTree → FileTree × Bool
  | 0, t => (t, true)
  | i + 1, t =>
      match f.age env t i with
      | .ok t => f.ageAll env i t
      | .error _ => (t, false)

/-- Whether a line would bring the file to its limit. -/
def isFull (f : RotatingFile) (env : Environment) (t : FileTree) (line : String) : Bool :=
  0 < f.limit && f.limit ≤ t.fileSize env f.path + line.length

/-- Makes room for a line if the file is full; answers with whether there is room. -/
def makeRoom (f : RotatingFile) (env : Environment) (t : FileTree) (line : String) :
    FileTree × Bool :=
  if f.isFull env t line then f.ageAll env f.backups.toNat t else (t, true)

/-- The tree with a line written to the file; a line for which no room can be made is lost. -/
def write (f : RotatingFile) (env : Environment) (t : FileTree) (line : String) : FileTree :=
  match f.makeRoom env t line with
  | (t, true) => (t.appendBytes env f.path (Text.utf8 line)).toOption.getD t
  | (t, false) => t

end RotatingFile

/-- Where the lines of a log go. -/
inductive Sink where
  | console
  | file (file : RotatingFile)

/-- Writes a record to a sink. -/
def Sink.write (s : Sink) (env : Environment) (o : Outlets) (r : Record) : Outlets :=
  match s with
  | .console => { o with console := o.console ++ r.consoleLine }
  | .file f => { o with files := f.write env o.files r.fileLine }

end Groundplan.Logging
