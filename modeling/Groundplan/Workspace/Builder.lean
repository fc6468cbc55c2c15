import Groundplan.Workspace.Validation

/-!
# Declaring and changing

The operations that grow a workspace. Each checks all it is given before it changes anything, so a
refused request leaves the workspace as it was. A stack that has been synthesised is closed: nothing
below it is added or changed any more. Properties are copied at their first level only; an override
copies every mapping on its way, so that containers shared with a caller are never written.
-/

namespace Groundplan

namespace Heap

/-- The heap with a key of an open mapping leading to a value. -/
def setEntry (h : Heap) (id : CellId) (key : Key) (v : Value) : Heap :=
  match h.cells[id]? with
  | some (.mapping es) => h.write id (.mapping (es.set key v))
  | _ => h

/-- What a key of an open mapping leads to. -/
def valueAt? (h : Heap) (id : CellId) (key : Key) : Option Value :=
  match h.cells[id]? with
  | some (.mapping es) => es.get? key
  | _ => none

/-- The heap with a nested entry set: every mapping on the way is copied first, and what is no
mapping gives way to a new one. Embeds the descent of `add_override`. -/
def setNested (h : Heap) (id : CellId) : List String → Value → Heap
  | [], _ => h
  | [last], v => h.setEntry id (.text last) v
  | segment :: rest, v =>
      let found := ((h.valueAt? id (.text segment)).bind h.entriesOf?).getD []
      let (h, copy) := h.alloc (.mapping found)
      (h.setEntry id (.text segment) (.cell copy)).setNested copy rest v

/-- The heap with a value added to the end of a list. -/
def pushItem (h : Heap) (id : CellId) (v : Value) : Heap :=
  match h.cells[id]? with
  | some (.list items) => h.write id (.list (items ++ [v]))
  | _ => h

end Heap

namespace Workspace

/-- The directory that documents go to unless an app names another. -/
def defaultOutdir : String := "cdktf.out"

/-- A new app; an empty directory name stands for the default one. Embeds `create_app`. -/
def createApp (w : Workspace) (outdir : String) : Workspace × AppId :=
  ({ w with apps := w.apps.push { outdir := if outdir.isEmpty then defaultOutdir else outdir } },
    w.apps.size)

/-- Adds a node with entries of its own for properties. -/
def addOwning (w : Workspace) (n : Node) (entries : Entries Value) : Workspace × NodeId :=
  let (h, id) := w.heap.alloc (.mapping entries)
  (w.withHeap h).addNode { n with properties := .cell id }

/-- A new, empty stack of an app. Embeds `create_stack`. -/
def createStack (w : Workspace) (a : AppId) (name : Value) : Except Fault (Workspace × NodeId) := do
  let name ← checkIdentifier w.naming "stack name" (w.heap.datum name)
  if (w.findStack a name).isSome then throw (.duplicateName name)
  let (w, stack) := w.addOwning { id := name, stack := some { app := some a } } []
  return (w.modifyApp a fun app => { app with registry := app.registry ++ [(name, stack)] }, stack)

/-- Refuses changes below a stack that has been synthesised. Embeds `_ensure_mutable`. -/
def checkOpen (w : Workspace) (n : NodeId) : Except Fault Unit :=
  if w.state? n = some .synthesized then .error (.locked (w.node (w.root n)).id) else .ok ()

/-- Refuses changes to the properties of what has none. Embeds `_ensure_block`. -/
def checkBlock (w : Workspace) (n : NodeId) : Except Fault Unit :=
  if (w.node n).kind = .group then .error (.property (.grouping (w.path n))) else .ok ()

/-- Moves an empty stack on to building. Embeds `_mark_building`. -/
def markBuilding (w : Workspace) (n : NodeId) : Workspace :=
  w.modifyNode (w.root n) fun node =>
    { node with stack := node.stack.map fun s =>
        { s with state := if s.state = .empty then .building else s.state } }

/-- Puts a node that is not yet in the tree below a parent, once its place is known to be free.
Embeds `_attach`. -/
def place (w : Workspace) (parent : NodeId) (id : String) (n : Node) (entries : Entries Value) :
    Except Fault (Workspace × NodeId) := do
  if (w.findChild parent id).isSome then throw (.duplicateId id (w.path parent))
  let (w, child) := w.addOwning { n with id := id } entries
  return ((w.attach parent child).markBuilding parent, child)

/-- A new group that only scopes what is below it. Embeds `add_construct`. -/
def addConstruct (w : Workspace) (parent : NodeId) (id : Value) :
    Except Fault (Workspace × NodeId) := do
  w.checkOpen parent
  let id ← checkIdentifier w.naming "construct id" (w.heap.datum id)
  w.place parent id {} []

/-- A new block with the entries given for properties. -/
def addEntries (w : Workspace) (parent : NodeId) (kind : BlockKind) (typeTag : Option String)
    (id : String) (entries : Entries Value) : Except Fault (Workspace × NodeId) := do
  w.checkOpen parent
  w.place parent id { kind := .block kind, typeTag := typeTag } entries

/-- The type of a block, if it may be one; a block may go without. -/
def checkTypeTag (naming : Naming) (d : Datum) : Except Fault (Option String) :=
  match d with
  | .atom (.scalar .null) => .ok none
  | d => (checkIdentifier naming "type tag" d).map some

/-- A new resource, data source or provider. Embeds `_add_block`, with `add_resource`,
`add_data_source` and `add_provider` as its kinds. -/
def addBlock (w : Workspace) (parent : NodeId) (kind : TypedKind) (typeTag id properties : Value) :
    Except Fault (Workspace × NodeId) := do
  let typeTag ← checkTypeTag w.naming (w.heap.datum typeTag)
  let id ← checkIdentifier w.naming "construct id" (w.heap.datum id)
  let entries ← (w.validProperties (w.path parent ++ "/" ++ id) properties).mapError .property
  w.addEntries parent kind.kind typeTag id entries

/-- The properties of an output: what it is not told is left out. -/
def outputEntries (value description sensitive : Value) : Entries Value :=
  [(.text "value", value)] ++
    (if description.isNull then [] else [(.text "description", description)]) ++
    (if sensitive.isNull then [] else [(.text "sensitive", sensitive)])

/-- A new output. Embeds `add_output`. -/
def addOutput (w : Workspace) (parent : NodeId) (id value description sensitive : Value) :
    Except Fault (Workspace × NodeId) := do
  let id ← checkIdentifier w.naming "construct id" (w.heap.datum id)
  let entries := outputEntries value description sensitive
  (w.checkProperties (w.path parent ++ "/" ++ id) entries).mapError .property
  w.addEntries parent .output none id entries

/-- The place of a node's properties on the heap. -/
def propertyCell (w : Workspace) (n : NodeId) : CellId :=
  match (w.node n).properties with
  | .cell id => id
  | .atom _ => w.heap.cells.size

/-- Sets one property of a block. Embeds `set_property`. -/
def setProperty (w : Workspace) (n : NodeId) (key value : Value) : Except Fault Workspace := do
  w.checkOpen n
  w.checkBlock n
  let key ← (checkKeyDatum w.naming (w.path n) (w.heap.datum key)).mapError .property
  (w.checkValue (keyPath (w.path n) key) value).mapError .property
  return (w.withHeap (w.heap.setEntry (w.propertyCell n) (.text key) value)).markBuilding n

/-- Sets a nested property of a block, by segments between dots. Embeds `add_override`. -/
def addOverride (w : Workspace) (n : NodeId) (path value : Value) : Except Fault Workspace := do
  w.checkOpen n
  w.checkBlock n
  let path := w.heap.datum path
  let segments ← (splitOverridePath path).mapError .property
  (w.checkValue (keyPath (w.path n) (path.plain w.naming)) value).mapError .property
  return (w.withHeap (w.heap.setNested (w.propertyCell n) segments value)).markBuilding n

/-- A reference to an attribute of a resource or data source. Embeds `ConstructNode.ref`. -/
def ref (w : Workspace) (n : NodeId) (attr : Value) : Except Fault Reference :=
  let node := w.node n
  if !node.kind.isReferenceable then
    .error (.property (.notReferenceable (w.path n) (node.kind.name?.getD "None")))
  else
    match attr.text? with
    | some s =>
        if Text.isBlankText s then .error (.property (.blankAttribute (w.path n)))
        else .ok ⟨n, Text.strip s⟩
    | none => .error (.property (.blankAttribute (w.path n)))

end Workspace

end Groundplan
