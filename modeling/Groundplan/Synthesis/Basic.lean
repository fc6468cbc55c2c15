import Groundplan.Document.Basic
import Groundplan.Synthesis.References
import Groundplan.Synthesis.Resolution

/-!
# Synthesis

A stack becomes a document: its nodes are visited in order, each block's properties are resolved, and
each block takes its slot. Resources and data sources are told apart by type and id, outputs by id,
and the configurations of one provider type by their alias. The stack is closed from the first attempt
on, whether or not it succeeds.
-/

namespace Groundplan

/-- A block with the slot that it takes. -/
structure Placed where
  node : NodeId
  kind : BlockKind
  typeTag : Option String
  id : String
  body : Datum

namespace Placed

/-- The alias of a provider configuration; without one, nothing. -/
def providerAlias (p : Placed) : Datum := (p.body.field? "alias").getD .null

/-- The key of the type of a block. -/
def typeKey (p : Placed) : Key := Key.ofText? p.typeTag

end Placed

/-- The blocks that have their slots: by type and id, or of providers in order; outputs by id. Embeds
`blocks` of `synthesize`. -/
structure Blocks where
  provider : Entries (List Datum) := []
  data : Entries (Entries Datum) := []
  resource : Entries (Entries Datum) := []
  output : Entries Datum := []

namespace Blocks

/-- The entries of the section of a kind. -/
def entriesOf (blocks : Blocks) : BlockKind → Entries Datum
  | .provider => blocks.provider.mapValues .list
  | .data => blocks.data.mapValues (.mapping false)
  | .resource => blocks.resource.mapValues (.mapping false)
  | .output => blocks.output

/-- The sections in the order of the kinds and without empty ones, and resources in any case. Embeds
`emitted` of `synthesize`. -/
def emitted (blocks : Blocks) : Entries Datum :=
  Document.withResources
    ((BlockKind.all.filter fun kind => !(blocks.entriesOf kind).isEmpty).map
      fun kind => (kind.key, .mapping false (blocks.entriesOf kind)))

end Blocks

namespace Workspace

/-- What a reference becomes in the document of a stack: the target must belong to it. Embeds
`_render_reference`. -/
def renderIn (w : Workspace) (stack : NodeId) : Rendering := fun path r =>
  if w.root r.target = stack then .ok (w.token r)
  else .error (.unresolved path (w.path r.target) (w.node stack).id)

/-- Resolves a node that is no group: the block that is to take a slot. -/
def resolveBlock (w : Workspace) (stack n : NodeId) : Except SynthesisFault Placed := do
  let node := w.node n
  let path := w.path n
  let body ← resolve w.naming w.limits.resolving (w.renderIn stack) path (w.propertiesOf n)
  match node.kind with
  | .block kind => return ⟨n, kind, node.typeTag, w.logicalId n, body⟩
  | kind => throw (.unknownKind path (kind.name?.getD "None"))

/-- Takes the place of a block under its id, unless it is taken. Embeds `_claim`. -/
def claimId (w : Workspace) (p : Placed) (slot : Entries Datum) :
    Except SynthesisFault (Entries Datum) :=
  if slot.has (.text p.id) then .error (.slotTaken (w.path p.node) p.id)
  else .ok (slot.set (.text p.id) p.body)

/-- Takes the place of a block under its type and id. -/
def claimOfType (w : Workspace) (p : Placed) (byType : Entries (Entries Datum)) :
    Except SynthesisFault (Entries (Entries Datum)) := do
  let slot ← w.claimId p ((byType.get? p.typeKey).getD [])
  return byType.set p.typeKey slot

/-- Why a provider cannot be configured: its alias is taken. -/
def aliasFault (w : Workspace) (p : Placed) : SynthesisFault :=
  match p.providerAlias.shown w.naming with
  | .ok shown => .aliasTaken (w.path p.node) p.typeTag shown
  | .error cause => .breakdown cause

/-- Adds a configuration to those of its provider, unless one of them has its alias. -/
def configureProvider (w : Workspace) (p : Placed) (byType : Entries (List Datum)) :
    Except SynthesisFault (Entries (List Datum)) :=
  let configs := (byType.get? p.typeKey).getD []
  if configs.any fun config => p.providerAlias.same ((config.field? "alias").getD .null) then
    .error (w.aliasFault p)
  else .ok (byType.set p.typeKey (configs ++ [p.body]))

/-- Lets a block take its slot among those that have theirs. Embeds `_place`. -/
def takeSlot (w : Workspace) (blocks : Blocks) (p : Placed) : Except SynthesisFault Blocks := do
  match p.kind with
  | .resource => return { blocks with resource := ← w.claimOfType p blocks.resource }
  | .data => return { blocks with data := ← w.claimOfType p blocks.data }
  | .output => return { blocks with output := ← w.claimId p blocks.output }
  | .provider => return { blocks with provider := ← w.configureProvider p blocks.provider }

/-- The nodes below a stack that are no groups, in order. -/
def blockNodes (w : Workspace) (stack : NodeId) : List NodeId :=
  (w.walk stack).filter fun n => (w.node n).kind ≠ .group

/-- The blocks of a stack, each in its slot. Embeds the loop of `synthesize` over the nodes. -/
def collect (w : Workspace) (stack : NodeId) : Except SynthesisFault Blocks :=
  (w.blockNodes stack).foldlM (fun blocks n => do w.takeSlot blocks (← w.resolveBlock stack n)) {}

/-- The blocks of a stack with the nodes that each points at. -/
def referenceGraph (w : Workspace) (stack : NodeId) : References.Graph NodeId :=
  (w.blockNodes stack).map fun n => (n, (w.propertiesOf n).referenced)

/-- What a document states about itself. -/
def metadata (stackName : String) : Entries Datum :=
  [(.text "metadata", .record
    [("backend", .text "local"), ("stackName", .text stackName), ("version", .text version)])]

/-- The document of a stack. Embeds what `synthesize` does once the stack is closed. -/
def documentOf (w : Workspace) (stack : NodeId) (emitMetadata : Bool) :
    Except SynthesisFault Document := do
  let blocks ← w.collect stack
  match References.cycle? (w.referenceGraph stack) with
  | some cycle => throw (.cycle (cycle.map w.path))
  | none =>
      let name := (w.node stack).id
      return .of name blocks.emitted (if emitMetadata then metadata name else [])

/-- Closes a stack. -/
def close (w : Workspace) (stack : NodeId) : Workspace :=
  w.modifyNode stack fun node =>
    { node with stack := node.stack.map fun s => { s with state := .synthesized } }

/-- Closes a stack and makes its document; anything else is refused as it is. Embeds `synthesize`. -/
def synthesize (w : Workspace) (target : Value) (emitMetadata : Bool) :
    Workspace × Except Fault Document :=
  match target with
  | .atom (.entity (.node stack true)) =>
      let w := w.close stack
      (w, (w.documentOf stack emitMetadata).mapError .synthesis)
  | v => (w, .error (.synthesis (.notStack (w.heap.typeName v))))

/-- Makes the documents of stacks in order, up to the first that fails: those made, and why it
stopped. -/
def synthesizeStacks (w : Workspace) (emitMetadata : Bool) :
    List (String × NodeId) → Workspace × List (String × Document) × Option Fault
  | [] => (w, [], none)
  | (name, stack) :: rest =>
      match w.synthesize (.atom (.entity (.node stack true))) emitMetadata with
      | (w, .error e) => (w, [], some e)
      | (w, .ok doc) =>
          let (w, docs, fault) := w.synthesizeStacks emitMetadata rest
          (w, (name, doc) :: docs, fault)

/-- Makes the documents of all stacks of an app, in the order of their creation. Embeds
`synthesize_app`. -/
def synthesizeApp (w : Workspace) (a : AppId) (emitMetadata : Bool) :
    Workspace × List (String × Document) × Option Fault :=
  w.synthesizeStacks emitMetadata (w.app a).registry

end Workspace

end Groundplan
