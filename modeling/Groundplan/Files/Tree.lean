import Groundplan.Files.Path
import Groundplan.Text.Encoding

/-!
# File trees

Directories and files as a value, seen from a working directory. A path is followed component by
component from there or from the root: every component on the way must be a directory that exists, so
that a double dot cannot lead out of one that does not. Making directories may stop half way; what was
made by then stays.
-/

namespace Groundplan

/-- Why the file system refuses a path. -/
inductive PathFault where
  | notFound
  | alreadyExists
  | notDirectory
  | isDirectory
  | nameTooLong
deriving DecidableEq

namespace PathFault

/-- The number of a fault. -/
def number : PathFault → Nat
  | .notFound => 2
  | .alreadyExists => 17
  | .notDirectory => 20
  | .isDirectory => 21
  | .nameTooLong => 36

/-- The wording of a fault. -/
def wording : PathFault → String
  | .notFound => "No such file or directory"
  | .alreadyExists => "File exists"
  | .notDirectory => "Not a directory"
  | .isDirectory => "Is a directory"
  | .nameTooLong => "File name too long"

end PathFault

/-- Why a file operation failed. -/
inductive FileError where
  | refused (fault : PathFault) (path : String)
  | nullCharacter
  | undecodable (error : Text.DecodeError)
  | noDirectory (directory reason : String)
deriving DecidableEq

namespace FileError

/-- The message of a failure. -/
def message : FileError → String
  | .refused fault path =>
      s!"[Errno {fault.number}] {fault.wording}: " ++ Text.quoted path
  | .nullCharacter => "embedded null byte"
  | .undecodable error => error.message
  | .noDirectory directory reason => s!"Cannot create directory '{directory}': {reason}"

/-- Whether the file system is to blame, and not the text of a path or a file. -/
def isSystem : FileError → Bool
  | .refused _ _ | .noDirectory _ _ => true
  | _ => false

end FileError

/-- What stands in a place of a tree. -/
inductive FileEntry where
  | directory
  | file (bytes : List UInt8)
deriving DecidableEq

/-- Directories and files by their components from the root on, which is always a directory. -/
structure FileTree where
  entries : List (List String × FileEntry) := []

namespace FileTree

/-- What stands in a place. -/
def find? (t : FileTree) (place : List String) : Option FileEntry :=
  if place.isEmpty then some .directory
  else (t.entries.find? fun e => e.1 = place).map (·.2)

/-- The tree with something put in a place. -/
def put (t : FileTree) (place : List String) (e : FileEntry) : FileTree :=
  ⟨t.entries.filter (fun f => f.1 ≠ place) ++ [(place, e)]⟩

/-- The tree with nothing in a place. -/
def erase (t : FileTree) (place : List String) : FileTree :=
  ⟨t.entries.filter fun f => f.1 ≠ place⟩

/-- The longest name of a component in bytes. -/
def nameLimit : Nat := 255

/-- The size in bytes from which on a path is too long. -/
def pathLimit : Nat := 4096

/-- Whether a component's name is too long. -/
def isLongName (name : String) : Bool := name.utf8ByteSize > nameLimit

/-- Goes from a directory through components that must all be directories. -/
def descend (t : FileTree) (place : List String) : List String → Except PathFault (List String)
  | [] => .ok place
  | name :: rest =>
      if name.isEmpty || name == "." then t.descend place rest
      else if name == ".." then t.descend place.dropLast rest
      else if isLongName name then .error .nameTooLong
      else
        match t.find? (place ++ [name]) with
        | none => .error .notFound
        | some (.file _) => .error .notDirectory
        | some .directory => t.descend (place ++ [name]) rest

/-- The directory that a path leads to before its last component, which may be missing, and whether
slashes come after that. -/
def approach (t : FileTree) (cwd : String) (path : String) :
    Except PathFault (List String × Option String × Bool) :=
  if path.isEmpty then .error .notFound
  else if path.utf8ByteSize ≥ pathLimit then .error .nameTooLong
  else
    let start := if Path.isAbsolute path then [] else Path.components cwd
    let names := Text.split '/' path
    let kept := (names.reverse.dropWhile String.isEmpty).reverse
    match kept.getLast? with
    | none => .ok ([], none, true)
    | some last => (t.descend start kept.dropLast).map fun place =>
        (place, some last, kept.length < names.length)

/-- Where a path leads, and whether it can only mean a directory. The last component may be
missing. -/
def locate (t : FileTree) (cwd : String) (path : String) :
    Except PathFault (List String × Bool) := do
  match ← t.approach cwd path with
  | (place, none, _) => return (place, true)
  | (place, some last, slashed) =>
      if last == "." then return (place, true)
      else if last == ".." then return (place.dropLast, true)
      else if isLongName last then throw .nameTooLong
      else return (place ++ [last], slashed)

/-- Follows a path for an operation, whose failure names it. -/
def follow (t : FileTree) (env : Environment) (path : String) :
    Except FileError (List String × Bool) :=
  if path.contains '\x00' then .error .nullCharacter
  else (t.locate env.cwd path).mapError fun fault => .refused fault path

/-- What a path leads to. -/
def lookup (t : FileTree) (env : Environment) (path : String) : Option FileEntry :=
  match t.follow env path with
  | .ok (place, mustBeDirectory) =>
      match t.find? place with
      | some (.file bytes) => if mustBeDirectory then none else some (.file bytes)
      | e => e
  | .error _ => none

/-- Whether a path leads to anything. -/
def pathExists (t : FileTree) (env : Environment) (path : String) : Bool :=
  (t.lookup env path).isSome

/-- Whether a path leads to a directory. -/
def isDirectory (t : FileTree) (env : Environment) (path : String) : Bool :=
  t.lookup env path == some .directory

/-- Whether a path leads to a file. -/
def isFile (t : FileTree) (env : Environment) (path : String) : Bool :=
  match t.lookup env path with
  | some (.file _) => true
  | _ => false

/-- The bytes of a file. -/
def readBytes (t : FileTree) (env : Environment) (path : String) :
    Except FileError (List UInt8) := do
  let (place, mustBeDirectory) ← t.follow env path
  match t.find? place with
  | none => throw (.refused .notFound path)
  | some .directory => throw (.refused .isDirectory path)
  | some (.file bytes) =>
      if mustBeDirectory then throw (.refused .notDirectory path) else return bytes

/-- Whether slashes follow a path whose last component can be reached. -/
def isSlashed (t : FileTree) (env : Environment) (path : String) : Bool :=
  match t.approach env.cwd path with
  | .ok (_, _, slashed) => slashed
  | .error _ => false

/-- The place of the file that a path may be written to. Slashes after it mean a directory, whatever
stands there. -/
def writable (t : FileTree) (env : Environment) (path : String) :
    Except FileError (List String) := do
  if !path.contains '\x00' && t.isSlashed env path then throw (.refused .isDirectory path)
  let (place, _) ← t.follow env path
  match t.find? place with
  | some .directory => throw (.refused .isDirectory path)
  | _ => return place

/-- The tree with a file written. -/
def writeBytes (t : FileTree) (env : Environment) (path : String) (bytes : List UInt8) :
    Except FileError FileTree := do
  return t.put (← t.writable env path) (.file bytes)

/-- The tree with bytes added to the end of a file, which comes to be if it is missing. -/
def appendBytes (t : FileTree) (env : Environment) (path : String) (bytes : List UInt8) :
    Except FileError FileTree := do
  let place ← t.writable env path
  match t.find? place with
  | some (.file before) => return t.put place (.file (before ++ bytes))
  | _ => return t.put place (.file bytes)

/-- How many bytes a file has; what is no file has none. -/
def fileSize (t : FileTree) (env : Environment) (path : String) : Nat :=
  match t.readBytes env path with
  | .ok bytes => bytes.length
  | .error _ => 0

/-- The tree without a file. -/
def removeFile (t : FileTree) (env : Environment) (path : String) : Except FileError FileTree := do
  return t.erase (← t.writable env path)

/-- The tree with whatever stands in one place standing in another, with all that is below it. -/
def relocate (t : FileTree) (source target : List String) : FileTree :=
  ⟨t.entries.map fun (place, e) =>
    if source.isPrefixOf place then (target ++ place.drop source.length, e) else (place, e)⟩

/-- The tree with what a path leads to moved to another path, which must be free. -/
def move (t : FileTree) (env : Environment) (source target : String) :
    Except FileError FileTree := do
  let (source, _) ← t.follow env source
  let (target, _) ← t.follow env target
  return t.relocate source target

/-- The names in a place. -/
def namesIn (t : FileTree) (place : List String) : List String :=
  t.entries.filterMap fun e =>
    match e.1.getLast? with
    | some name => if e.1.dropLast = place then some name else none
    | none => none

/-- The names in the directory that a path leads to. -/
def namesAt (t : FileTree) (env : Environment) (path : String) : List String :=
  match t.follow env path with
  | .ok (place, _) => t.namesIn place
  | .error _ => []

/-- The tree with a directory made. -/
def makeDirectory (t : FileTree) (env : Environment) (path : String) :
    Except FileError FileTree := do
  let (place, _) ← t.follow env path
  match t.find? place with
  | some _ => throw (.refused .alreadyExists path)
  | none => return t.put place .directory

/-- The last directory of a path and its name, past slashes at the end. -/
def lastStep (path : String) : String × String :=
  let (head, tail) := Path.splitLast path
  if tail.isEmpty then Path.splitLast head else (head, tail)

/-- The tree with a directory made unless it is there already, once those before it are. -/
def makeLast (t : FileTree) (env : Environment) (path : String) :
    FileTree × Except FileError Unit :=
  match t.makeDirectory env path with
  | .ok t => (t, .ok ())
  | .error .nullCharacter => (t, .error .nullCharacter)
  | .error e => if t.isDirectory env path then (t, .ok ()) else (t, .error e)

/-- The tree with a directory and all before it made where they are missing. -/
def makeDirectories (env : Environment) : Nat → FileTree → String →
    FileTree × Except FileError Unit
  | 0, t, path => t.makeLast env path
  | fuel + 1, t, path =>
      let (head, tail) := lastStep path
      if head.isEmpty || tail.isEmpty || t.pathExists env head then t.makeLast env path
      else
        match makeDirectories env fuel t head with
        | (t, .error (.refused .alreadyExists _)) | (t, .ok ()) =>
            if tail == "." then (t, .ok ()) else t.makeLast env path
        | failed => failed

/-- The tree with a directory and all before it made where they are missing. Embeds `safe_mkdir`. -/
def ensureDirectory (t : FileTree) (env : Environment) (path : String) :
    FileTree × Except FileError Unit := makeDirectories env path.length t path

/-- The files of a tree that another does not have with the same content. -/
def changedFiles (before after : FileTree) : List (List String × List UInt8) :=
  after.entries.filterMap fun e =>
    match e.2 with
    | .file bytes => if before.find? e.1 = some (.file bytes) then none else some (e.1, bytes)
    | .directory => none

/-- What was put in a place is found there. -/
theorem find?_put (t : FileTree) {place : List String} (h : place ≠ []) (e : FileEntry) :
    (t.put place e).find? place = some e := by
  have hnone : (t.entries.filter fun f => f.1 ≠ place).find? (fun f => f.1 = place) = none := by
    simp [List.find?_eq_none]
  cases place with
  | nil => exact absurd rfl h
  | cons name rest => simp only [find?, put, List.find?_append, hnone]; simp

/-- Putting something in one place leaves the others as they were. -/
theorem find?_put_of_ne (t : FileTree) {place other : List String} (h : other ≠ place)
    (e : FileEntry) : (t.put place e).find? other = t.find? other := by
  simp only [find?, put, List.find?_append]
  split
  · rfl
  · have hfind : (t.entries.filter fun f => f.1 ≠ place).find? (fun f => f.1 = other) =
        t.entries.find? fun f => f.1 = other := by
      rw [List.find?_filter]
      congr 1
      funext f
      by_cases hf : f.1 = other <;> simp [hf, h]
    rw [hfind]
    cases t.entries.find? fun f => f.1 = other with
    | some _ => simp
    | none => simp [Ne.symm h]

end FileTree

end Groundplan
