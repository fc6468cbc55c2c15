import Groundplan.Document.Query
import Groundplan.Session

/-!
# Trials

Short cuts for programs that try out constructs: a fresh app, a stack made only to see what it
becomes, and a document written where nobody minds. Without an output directory of its own, a trial
writes to a scratch directory, which is made first.
-/

namespace Groundplan.Trial

/-- The reply that is a node or an app; other replies have none. -/
def idOf : Reply → Nat
  | .app id | .node id => id
  | _ => 0

/-- Makes the scratch directory, and answers with its path. -/
def scratchDirectory (scratch : String) : Work String := do
  Session.withFiles fun env t =>
    let (t, result) := t.ensureDirectory env scratch
    (t, result.mapError .file)
  return scratch

/-- The output directory that is named, or the scratch directory for want of one. -/
def directoryOr (scratch outdir : String) : Work String :=
  if outdir.isEmpty then scratchDirectory scratch else pure outdir

/-- A fresh app. Embeds `Testing.app`. -/
def app (scratch outdir : String) : Work AppId := do
  return idOf (← Session.perform (.createApp (← directoryOr scratch outdir)))

/-- The document that something becomes, if it is a stack. -/
def document (target : Value) (emitMetadata : Bool) : Work Document := do
  match ← Session.perform (.synthesize target emitMetadata) with
  | .document doc => return doc
  | _ => return { stackName := "" }

/-- The text of the document that a stack becomes. Embeds `Testing.synth`. -/
def synth (target : Value) (emitMetadata : Bool) (layout : Json.Layout) : Work String := do
  let doc ← document target emitMetadata
  Session.orFail .json (doc.toJson layout)

/-- The layout of a document unless another is asked for. -/
def defaultLayout : Json.Layout := .ofSpaces Settings.defaults.indent

/-- The text of the document that a stack becomes once it is built. Embeds `Testing.synth_scope`. -/
def synthScope (scratch : String) (name : Value) (build : NodeId → Work Unit) : Work String := do
  let a ← app scratch ""
  let stack := idOf (← Session.perform (.createStack a name))
  build stack
  synth (.atom (.entity (.node stack true))) true defaultLayout

/-- The output directory of a stack's app; what has no app has none. -/
def appDirectory (w : Workspace) : Value → String
  | .atom (.entity (.node n _)) =>
      (((w.node n).stack.bind (·.app)).map fun a => (w.app a).outdir).getD ""
  | _ => ""

/-- Writes the document that a stack becomes, and answers with its directory. Embeds
`Testing.full_synth`. -/
def fullSynth (scratch : String) (target : Value) (outdir : String) : Work String := do
  let own := appDirectory (← get).workspace target
  let base ← directoryOr scratch (if outdir.isEmpty then own else outdir)
  let path ← Session.writeDocument (← document target true) base defaultLayout
  return Path.directory path

end Groundplan.Trial
