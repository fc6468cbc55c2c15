import Groundplan.Fault
import Groundplan.Json.Printer
import Groundplan.Workspace.Basic

/-!
# Documents

A document is the configuration of one stack: sections by kind of block, and metadata. Resources and
data sources stand under their type and id, providers in a list under their type, outputs under their
id. A document is fixed: its containers are not shared with anyone who could change them.
-/

namespace Groundplan

/-- The version that documents and the command line state. -/
def version : String := "0.1.0"

/-- The configuration of one stack. Embeds `SynthesizedDocument`. -/
structure Document where
  stackName : String
  blocks : Entries Datum := []
  metadata : Entries Datum := []

namespace Document

/-- Where the metadata stands in a document's JSON text. -/
def metadataKey : Key := .text "//"

/-- A document with the sections and the metadata given, fixed. -/
def of (stackName : String) (blocks metadata : Entries Datum) : Document where
  stackName := stackName
  blocks := blocks.mapValues Datum.freeze
  metadata := metadata.mapValues Datum.freeze

/-- The entries with an empty section of resources after them, unless they have one. -/
def withResources (blocks : Entries Datum) : Entries Datum :=
  if blocks.has BlockKind.resource.key then blocks
  else blocks ++ [(BlockKind.resource.key, .mapping false [])]

/-- The section of a kind. -/
def section? (doc : Document) (kind : BlockKind) : Option Datum := doc.blocks.get? kind.key

/-- The entries of the section of a kind. -/
def entriesOf (doc : Document) (kind : BlockKind) : Entries Datum :=
  ((doc.section? kind).map Datum.entries).getD []

/-- Whether a document has anything in the section of a kind. -/
def hasSection (doc : Document) (kind : BlockKind) : Bool :=
  ((doc.section? kind).map Datum.isTruthy).getD false

/-- A document without any block. Embeds `SynthesizedDocument.is_empty`. -/
def isEmpty (doc : Document) : Bool := !BlockKind.all.any doc.hasSection

/-- The sections that hold anything, in the order of the kinds. -/
def filledSections (doc : Document) : Entries Datum :=
  BlockKind.all.filterMap fun kind =>
    match doc.section? kind with
    | some d => if d.isTruthy then some (kind.key, d.thaw) else none
    | none => none

/-- A document as a datum that may be changed: metadata first, then the sections that hold
anything. Embeds `SynthesizedDocument.to_dict`. -/
def toDatum (doc : Document) : Datum :=
  .mapping false
    ((if doc.metadata.isEmpty then [] else
        [(metadataKey, .mapping false (doc.metadata.mapValues Datum.thaw))]) ++
      doc.filledSections)

/-- The JSON text of a document. Embeds `to_json`. -/
def toJson (doc : Document) (layout : Json.Layout) : Except WriteFault String :=
  Json.print layout doc.toDatum

/-- Equality of documents, whatever the order of their mappings. -/
def same (a b : Document) : Bool :=
  a.stackName == b.stackName && (Datum.mapping true a.blocks).same (.mapping true b.blocks) &&
    (Datum.mapping true a.metadata).same (.mapping true b.metadata)

/-- A section is kept fixed under its kind. -/
theorem section?_of (stackName : String) (blocks metadata : Entries Datum) (kind : BlockKind) :
    (of stackName blocks metadata).section? kind = (blocks.get? kind.key).map Datum.freeze := by
  simp only [section?, of, Entries.mapValues, Entries.get?]
  induction blocks with
  | nil => rfl
  | cons e es ih =>
    by_cases h : kind.key.same e.1 = true
    · simp [h]
    · have h := Bool.eq_false_iff.2 h
      simpa [h] using ih

end Document

end Groundplan
