import Groundplan.Document.Basic
import Groundplan.Json.Parser

/-!
# Loading documents

A document is taken from JSON text, from bytes of it or from a mapping of the same shape. The first
departure from the shape is the fault: top-level names first, then the metadata, then the sections in
the order of the kinds. What is left out at the top is empty; a document always has resources.
-/

namespace Groundplan.Document

/-- The entries of a mapping that must stand in a place of a document. Embeds `_require_mapping`. -/
def requireMapping (block : String) : Datum → Except DocumentFault (Entries Datum)
  | .mapping _ es => .ok es
  | d => .error (.blockNotMapping block d.typeName)

/-- Type by type, id by id, mappings. Embeds `_check_typed_section`. -/
def checkTyped (naming : Naming) (kind : BlockKind) (types : Entries Datum) :
    Except DocumentFault Unit :=
  types.forM fun (type, byId) => do
    let block := kind.name ++ "." ++ type.plain naming
    let instances ← requireMapping block byId
    instances.forM fun (id, body) => do
      let _ ← requireMapping (block ++ "." ++ id.plain naming) body

/-- Configurations from an index on, each a mapping. -/
def checkConfigurations (block : String) (index : Nat) : List Datum → Except DocumentFault Unit
  | [] => .ok ()
  | d :: ds => do
      let _ ← requireMapping s!"{block}[{index}]" d
      checkConfigurations block (index + 1) ds

/-- Type by type a sequence of mappings. Embeds `_check_provider_section`. -/
def checkProviders (naming : Naming) (types : Entries Datum) : Except DocumentFault Unit :=
  types.forM fun (type, configurations) =>
    match configurations with
    | .sequence _ items =>
        checkConfigurations (BlockKind.provider.name ++ "." ++ type.plain naming) 0 items
    | _ => .error (.providerNotList (type.plain naming))

/-- Id by id a mapping that has a value. Embeds `_check_output_section`. -/
def checkOutputs (naming : Naming) (outputs : Entries Datum) : Except DocumentFault Unit :=
  outputs.forM fun (id, body) => do
    let name := id.plain naming
    let fields ← requireMapping (BlockKind.output.name ++ "." ++ name) body
    unless Entries.has fields (.text "value") do throw (.outputWithoutValue name)

/-- The section of a kind, in the shape of that kind. -/
def checkSection (naming : Naming) (kind : BlockKind) (d : Datum) : Except DocumentFault Unit := do
  let entries ← requireMapping kind.name d
  match kind with
  | .resource | .data => checkTyped naming kind entries
  | .provider => checkProviders naming entries
  | .output => checkOutputs naming entries

/-- The name under which a document may have something at its top. -/
def isTopLevel (k : Key) : Bool :=
  k.same metadataKey || BlockKind.all.any fun kind => k.same kind.key

/-- What metadata have for the name of the stack. -/
def nameIn? (metadata : Entries Datum) : Option Datum :=
  match metadata.get? (.text "metadata") with
  | some (.mapping _ inner) => Entries.get? inner (.text "stackName")
  | _ => none

/-- The stack that metadata name. -/
def stackNameOf (naming : Naming) (metadata : Entries Datum) : String :=
  ((nameIn? metadata).map (Datum.plain naming)).getD ""

/-- The metadata that a mapping has. -/
def metadataIn (entries : Entries Datum) : Entries Datum :=
  ((entries.get? metadataKey).getD (.mapping false [])).entries

/-- The sections that a mapping has, each in the shape of its kind. -/
def checkedSections (naming : Naming) (entries : Entries Datum) :
    List BlockKind → Except DocumentFault (Entries Datum)
  | [] => .ok []
  | kind :: kinds =>
      match entries.get? kind.key with
      | none => checkedSections naming entries kinds
      | some d => do
          checkSection naming kind d
          let rest ← checkedSections naming entries kinds
          return (kind.key, d) :: rest

/-- The document that a mapping is. Embeds what `load_document` does with a mapping. -/
def ofEntries (naming : Naming) (entries : Entries Datum) : Except DocumentFault Document := do
  let unknown := entries.keys.filter fun k => !isTopLevel k
  unless unknown.isEmpty do throw (.unknownBlocks (unknown.map (Key.plain naming)))
  let metadata ← requireMapping "//" ((entries.get? metadataKey).getD (.mapping false []))
  let blocks ← checkedSections naming entries BlockKind.all
  return .of (stackNameOf naming metadata) (withResources blocks) metadata

/-- The document that a datum other than a text is. -/
def ofDatum (naming : Naming) : Datum → Except DocumentFault Document
  | .mapping _ entries => ofEntries naming entries
  | d => .error (.notMapping d.typeName)

/-- What reading JSON gave, as a document. -/
def ofRead (naming : Naming) : Except Json.ReadFault Datum → Except DocumentFault Document
  | .ok d => ofDatum naming d
  | .error fault => .error (.notJson fault.message)

/-- Whether the name that a mapping has for its stack cannot be made a text, since an integer in it
has too many digits. What JSON is read as has no such integer. -/
def hasLongName (d : Datum) : Bool :=
  ((nameIn? (metadataIn d.entries)).map Json.hasLong).getD false

/-- What is given where a document is asked for: what a text or bytes are the JSON of, where there
is room to read that, or the datum itself. -/
def given (room : Room) : Datum → Except Json.ReadFault Datum
  | .atom (.scalar (.text s)) => Json.readWithin room s
  | .atom (.bytes bytes) => Json.readBytesWithin room bytes
  | d => .ok d

/-- The document that a datum is, or that its text or bytes are the JSON of. -/
def load (naming : Naming) (d : Datum) : Except DocumentFault Document := ofRead naming (given none d)

/-- The document that a datum is, or that its text or bytes are the JSON of, where there is room to
read that. Embeds `load_document`. -/
def loadWithin (room : Room) (naming : Naming) (d : Datum) :
    Except Breakdown (Except DocumentFault Document) :=
  match given room d with
  | .error (.breakdown cause) => .error cause
  | r => .ok (ofRead naming r)

/-- How many containers one inside the other are frozen to make a document. -/
def depth (doc : Document) : Nat :=
  max (Datum.depth (.mapping true doc.blocks)) (Datum.depth (.mapping true doc.metadata))

end Groundplan.Document
