import Groundplan.Heap
import Groundplan.Text.Digest
import Groundplan.Text.Encoding

/-!
# Construct trees

A workspace holds apps, the nodes of their construct trees and the heap of containers that
properties share. A node points at its parent, lists its children in the order in which they were
attached and indexes them by their ids; a stack is a node with a lifecycle. A node's path runs from
the root's id down to its own, and its logical id tells it apart inside a document: a direct child
keeps its id, deeper nodes join the ids below the root and end in a digest of them.
-/

namespace Groundplan

/-- The kinds of block that a document holds. -/
inductive BlockKind where
  | provider
  | data
  | resource
  | output
deriving DecidableEq

namespace BlockKind

/-- The name of a kind in documents. -/
def name : BlockKind → String
  | .provider => "provider"
  | .data => "data"
  | .resource => "resource"
  | .output => "output"

/-- The kinds in the order in which documents hold them. -/
def all : List BlockKind := [.provider, .data, .resource, .output]

/-- The kind of a name. -/
def ofName? (s : String) : Option BlockKind := all.find? fun k => k.name == s

/-- The section of a kind is found under its name. -/
abbrev key (k : BlockKind) : Key := .text k.name

/-- Every kind is among all of them. -/
theorem mem_all (k : BlockKind) : k ∈ all := by cases k <;> decide

end BlockKind

/-- The kinds of block that stand under a type. -/
inductive TypedKind where
  | resource
  | data
  | provider
deriving DecidableEq

namespace TypedKind

/-- The kind of block that a kind with types is. -/
def kind : TypedKind → BlockKind
  | .resource => .resource
  | .data => .data
  | .provider => .provider

/-- The kinds with types in the order in which a choice of them is offered. -/
def all : List TypedKind := [.resource, .data, .provider]

/-- The name of a kind. -/
def name (k : TypedKind) : String := k.kind.name

/-- The kind of a name. -/
def ofName? (s : String) : Option TypedKind := all.find? fun k => k.name == s

end TypedKind

/-- What a node is declared as: a mere group, a block, or something that no document holds. -/
inductive NodeKind where
  | group
  | block (kind : BlockKind)
  | unknown (name : String)
deriving DecidableEq

namespace NodeKind

/-- The name of a kind; a group has none. -/
def name? : NodeKind → Option String
  | .group => none
  | .block k => some k.name
  | .unknown s => some s

/-- The kind that a name stands for. -/
def ofName? : Option String → NodeKind
  | none => .group
  | some s =>
      match BlockKind.ofName? s with
      | some k => .block k
      | none => .unknown s

/-- Whether nodes of this kind can be pointed at. -/
def isReferenceable : NodeKind → Bool
  | .block .resource | .block .data => true
  | _ => false

end NodeKind

/-- The lifecycle of a stack. Embeds `StackState`. -/
inductive StackState where
  | empty
  | building
  | synthesized
deriving DecidableEq

/-- The name of a state. -/
def StackState.name : StackState → String
  | .empty => "empty"
  | .building => "building"
  | .synthesized => "synthesized"

/-- What a stack has beyond a node: its place in the lifecycle, and its app. -/
structure StackInfo where
  state : StackState := .empty
  app : Option AppId := none

/-- A node of a construct tree. Its children are listed in the order of attachment, and a second time
by their ids, the latest first. Embeds `ConstructNode` and, with what a stack has besides, `Stack`. -/
structure Node where
  id : String := ""
  kind : NodeKind := .group
  typeTag : Option String := none
  properties : Value := .null
  parent : Option NodeId := none
  children : List NodeId := []
  index : List (String × NodeId) := []
  stack : Option StackInfo := none

instance : Inhabited Node := ⟨{}⟩

/-- Whether a node is a stack. -/
def Node.isStack (n : Node) : Bool := n.stack.isSome

/-- Stacks by name, in the order of their creation. Embeds `App`. -/
structure App where
  outdir : String := ""
  registry : List (String × NodeId) := []

instance : Inhabited App := ⟨{}⟩

/-- Apps, nodes and the containers that they share, and the limits under which they are worked on. -/
structure Workspace where
  heap : Heap := {}
  nodes : Array Node := #[]
  apps : Array App := #[]
  limits : Limits := {}

namespace Workspace

/-- A node by its id. -/
def node (w : Workspace) (n : NodeId) : Node := w.nodes.getD n {}

/-- An app by its id. -/
def app (w : Workspace) (a : AppId) : App := w.apps.getD a {}

/-- The workspace with one node changed. -/
def modifyNode (w : Workspace) (n : NodeId) (f : Node → Node) : Workspace :=
  { w with nodes := w.nodes.modify n f }

/-- The workspace with one app changed. -/
def modifyApp (w : Workspace) (a : AppId) (f : App → App) : Workspace :=
  { w with apps := w.apps.modify a f }

/-- The workspace under other limits. -/
def under (w : Workspace) (limits : Limits) : Workspace := { w with limits := limits }

/-- The workspace with another heap. -/
def withHeap (w : Workspace) (h : Heap) : Workspace := { w with heap := h }

/-- A node and those above it, the root last; at most `fuel` of them above. -/
def upward (w : Workspace) : Nat → NodeId → List NodeId
  | 0, n => [n]
  | fuel + 1, n =>
      match (w.node n).parent with
      | some p => n :: w.upward fuel p
      | none => [n]

/-- A node and those above it, the root last. -/
def lineage (w : Workspace) (n : NodeId) : List NodeId := w.upward w.nodes.size n

/-- The node above which there is none. Embeds `ConstructNode.root`. -/
def root (w : Workspace) (n : NodeId) : NodeId := (w.lineage n).getLastD n

/-- The ids from just below the root down to a node. Embeds `ConstructNode.scope_path`. -/
def scopePath (w : Workspace) (n : NodeId) : List String :=
  (w.lineage n).dropLast.reverse.map fun m => (w.node m).id

/-- Ids set between slashes. -/
def joinIds (ids : List String) : String := "/".intercalate ids

/-- The path of a node, with the root's id first. Embeds `ConstructNode.path`. -/
def path (w : Workspace) (n : NodeId) : String :=
  joinIds ((w.node (w.root n)).id :: w.scopePath n)

/-- How many digits of the digest a logical id ends in. -/
def digestLength : Nat := 8

/-- The end of a nested node's logical id: a digest of the ids down to it, in capitals. -/
def digestOf (ids : List String) : String :=
  String.ofList (((Text.Digest.md5 (Text.utf8 (joinIds ids))).take digestLength).map Char.toUpper)

/-- The logical id of a node with this id and these ids down to it. -/
def logicalIdOf (id : String) : List String → String
  | [] => id
  | [own] => own
  | ids => "_".intercalate (ids ++ [digestOf ids])

/-- What tells a node apart inside a document. Embeds `ConstructNode.logical_id`. -/
def logicalId (w : Workspace) (n : NodeId) : String := logicalIdOf (w.node n).id (w.scopePath n)

/-- A node and all below it, each before those below it, in the order of attachment; at most `fuel`
levels below. -/
def downward (w : Workspace) : Nat → NodeId → List NodeId
  | 0, n => [n]
  | fuel + 1, n => n :: (w.node n).children.flatMap (w.downward fuel)

/-- A node and all below it, each before those below it, in the order of attachment. Embeds
`ConstructNode.walk`. -/
def walk (w : Workspace) (n : NodeId) : List NodeId := w.downward w.nodes.size n

/-- The child with an id, as it is indexed; of several the one attached last. Embeds
`ConstructNode.find_child`. -/
def findChild (w : Workspace) (n : NodeId) (id : String) : Option NodeId :=
  (w.node n).index.lookup id

/-- The stack of an app with a name. Embeds `App.get_stack`. -/
def findStack (w : Workspace) (a : AppId) (name : String) : Option NodeId :=
  ((w.app a).registry.find? fun s => s.1 == name).map (·.2)

/-- The lifecycle of the tree that a node belongs to, if its root is a stack. -/
def state? (w : Workspace) (n : NodeId) : Option StackState :=
  (w.node (w.root n)).stack.map (·.state)

/-- The text that a reference becomes in a document. Embeds `Reference.render`. -/
def token (w : Workspace) (r : Reference) : String :=
  let target := w.node r.target
  let scope := if target.kind = .block .data then "data." else ""
  "$\x7b" ++ scope ++ tagText target.typeTag ++ "." ++ w.logicalId r.target ++ "." ++ r.attr ++
    "\x7d"
where
  /-- A type tag as a token shows it. -/
  tagText (type : Option String) : String := type.getD "None"

/-- The properties of a node, read through their containers. -/
def propertiesOf (w : Workspace) (n : NodeId) : Datum := w.heap.datum (w.node n).properties

/-- Adds a node without a place in any tree. -/
def addNode (w : Workspace) (n : Node) : Workspace × NodeId :=
  ({ w with nodes := w.nodes.push n }, w.nodes.size)

/-- Makes a node the last child of another and indexes it, without any check. Embeds
`ConstructNode.attach`. -/
def attach (w : Workspace) (parent child : NodeId) : Workspace :=
  let id := (w.node child).id
  (w.modifyNode child fun n => { n with parent := some parent }).modifyNode parent
    fun n => { n with children := n.children ++ [child], index := (id, child) :: n.index }

end Workspace

end Groundplan
