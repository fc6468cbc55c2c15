import Groundplan.Event
import Groundplan.Synthesis.Basic
import Groundplan.Workspace.Builder

/-!
# Calls

Everything that a program can ask of a workspace, as data: to declare, to change, to keep containers
of its own and to synthesise. `perform` answers a call; a call that is refused leaves a fault in place
of a reply. What is worth a line in a log is listed beside the reply.
-/

namespace Groundplan

/-- A request to a workspace. -/
inductive Call where
  | createApp (outdir : String)
  | createStack (app : AppId) (name : Value)
  | addConstruct (parent : NodeId) (id : Value)
  | addBlock (parent : NodeId) (kind : TypedKind) (typeTag id properties : Value)
  | addOutput (parent : NodeId) (id value description sensitive : Value)
  | setProperty (node : NodeId) (key value : Value)
  | addOverride (node : NodeId) (path value : Value)
  | keep (cell : Cell)
  | push (list : CellId) (item : Value)
  | put (mapping : CellId) (key : Key) (value : Value)
  | synthesize (target : Value) (emitMetadata : Bool)
  | synthesizeApp (app : AppId) (emitMetadata : Bool)

/-- What a request is answered with. -/
inductive Reply where
  | done
  | app (id : AppId)
  | node (id : NodeId)
  | cell (id : CellId)
  | document (doc : Document)
  | documents (docs : List (String × Document))

/-- What a request leads to. -/
structure Outcome where
  workspace : Workspace
  reply : Except Fault Reply
  events : List Event := []

namespace Workspace

/-- The outcome of a request that is refused and changes nothing. -/
def refused (w : Workspace) (fault : Fault) : Outcome := ⟨w, .error fault, []⟩

/-- The outcome of a request that may be refused and otherwise changes a workspace. -/
def outcomeOf {α : Type} (w : Workspace) (result : Except Fault (Workspace × α))
    (reply : α → Reply) (events : Workspace → α → List Event) : Outcome :=
  match result with
  | .error fault => w.refused fault
  | .ok (w, a) => ⟨w, .ok (reply a), events w a⟩

/-- The event of a new node. -/
def added (w : Workspace) (n : NodeId) : List Event :=
  [.constructAdded (w.path n) (w.node n).kind]

/-- The event of a stack that became a document. -/
def synthesized (w : Workspace) (stack : NodeId) : Event :=
  .synthesized (w.node stack).id (w.blockNodes stack).length

/-- Answers a request. -/
def perform (w : Workspace) : Call → Outcome
  | .createApp outdir =>
      let (w, a) := w.createApp outdir
      ⟨w, .ok (.app a), []⟩
  | .createStack app name =>
      w.outcomeOf (w.createStack app name) .node fun w n => [.stackCreated (w.node n).id]
  | .addConstruct parent id => w.outcomeOf (w.addConstruct parent id) .node added
  | .addBlock parent kind typeTag id properties =>
      w.outcomeOf (w.addBlock parent kind typeTag id properties) .node added
  | .addOutput parent id value description sensitive =>
      w.outcomeOf (w.addOutput parent id value description sensitive) .node added
  | .setProperty node key value =>
      w.outcomeOf ((w.setProperty node key value).map fun w => (w, ())) (fun _ => .done)
        fun _ _ => []
  | .addOverride node path value =>
      w.outcomeOf ((w.addOverride node path value).map fun w => (w, ())) (fun _ => .done)
        fun _ _ => []
  | .keep cell =>
      let (h, id) := w.heap.alloc cell
      ⟨w.withHeap h, .ok (.cell id), []⟩
  | .push list item => ⟨w.withHeap (w.heap.pushItem list item), .ok .done, []⟩
  | .put mapping key value => ⟨w.withHeap (w.heap.setEntry mapping key value), .ok .done, []⟩
  | .synthesize target emitMetadata =>
      let (after, made) := w.synthesize target emitMetadata
      let events :=
        match target, made with
        | .atom (.entity (.node stack _)), .ok _ => [after.synthesized stack]
        | _, _ => []
      ⟨after, made.map .document, events⟩
  | .synthesizeApp app emitMetadata =>
      let (after, docs, fault) := w.synthesizeApp app emitMetadata
      let made := (w.app app).registry.take docs.length
      ⟨after,
        match fault with
        | some fault => .error fault
        | none => .ok (.documents docs),
        made.map fun (_, stack) => after.synthesized stack⟩

/-- The workspace after a list of requests, whatever became of each. -/
def run (w : Workspace) (calls : List Call) : Workspace :=
  calls.foldl (fun w call => (w.perform call).workspace) w

/-- Requests are answered one after the other. -/
@[simp] theorem run_cons (w : Workspace) (call : Call) (calls : List Call) :
    w.run (call :: calls) = (w.perform call).workspace.run calls := rfl

end Workspace

end Groundplan
