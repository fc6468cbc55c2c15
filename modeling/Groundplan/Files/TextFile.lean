import Groundplan.Files.Tree

/-!
# Text files

Texts in UTF-8. Reading takes each way of ending a line for a line break; writing makes the missing
directories first.
-/

namespace Groundplan.FileTree

/-- A list with every way of ending a line made a line break. -/
def unifyLines : List Char → List Char
  | [] => []
  | '\r' :: '\n' :: rest => '\n' :: unifyLines rest
  | '\r' :: rest => '\n' :: unifyLines rest
  | c :: rest => c :: unifyLines rest

/-- The text of bytes in a file. -/
def textOf (bytes : List UInt8) : Except FileError String :=
  match Text.ofUtf8 bytes with
  | .ok s => .ok (String.ofList (unifyLines s.toList))
  | .error e => .error (.undecodable e)

/-- The text of a file. Embeds `read_text_file`. -/
def readText (t : FileTree) (env : Environment) (path : String) : Except FileError String := do
  textOf (← t.readBytes env path)

/-- The tree with a text written to a file, and with the directories before it. Embeds
`write_text_file`. -/
def writeText (t : FileTree) (env : Environment) (path content : String) :
    FileTree × Except FileError Unit :=
  let parent := Path.directory (Path.absolute env path)
  match t.ensureDirectory env parent with
  | (t, .ok ()) =>
      match t.writeBytes env path (Text.utf8 content) with
      | .ok t => (t, .ok ())
      | .error e => (t, .error e)
  | (t, .error e) =>
      (t, .error (if e.isSystem then .noDirectory parent e.message else e))

end Groundplan.FileTree
