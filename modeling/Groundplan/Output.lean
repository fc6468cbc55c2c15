import Groundplan.Event
import Groundplan.Failure
import Groundplan.Files.TextFile
import Groundplan.Workspace.Builder

/-!
# Documents on disk

Each document has a directory of its own: `stacks` under the output directory, then the stack's name.
A blank output directory means the default one.
-/

namespace Groundplan.Output

/-- The directory that holds the stacks of an output directory. -/
def stacksName : String := "stacks"

/-- The name of a document's file. -/
def fileName : String := "cdk.tf.json"

/-- The directory of a stack. Embeds `get_stack_output_dir`. -/
def stackDirectory (outdir name : String) : String :=
  let stripped := Text.strip outdir
  let base := if stripped.isEmpty then Workspace.defaultOutdir else stripped
  Path.join (Path.join base stacksName) name

/-- The path of a stack's document. Embeds `get_document_path`. -/
def documentPath (outdir name : String) : String := Path.join (stackDirectory outdir name) fileName

/-- The names of the stacks that have a document, in ascending order. Embeds
`list_synthesized_stacks`. -/
def stackNames (t : FileTree) (env : Environment) (outdir : String) : List String :=
  let directory := Path.join outdir stacksName
  if t.isDirectory env directory then
    ((t.namesAt env directory).filter fun name =>
      t.isFile env (Path.join (Path.join directory name) fileName)).mergeSort fun a b => a ≤ b
  else []

/-- Writes a document with a line break at its end, and answers with the path that it went to.
Embeds `write_document`. -/
def writeDocument (t : FileTree) (env : Environment) (doc : Document) (outdir : String)
    (layout : Json.Layout) : FileTree × Except Failure String :=
  let path := Path.absolute env (documentPath outdir doc.stackName)
  match doc.toJson layout with
  | .error fault => (t, .error (.json fault))
  | .ok text =>
      match t.writeText env path (text ++ "\n") with
      | (t, .ok ()) => (t, .ok path)
      | (t, .error e) => (t, .error (.file e))

end Groundplan.Output
