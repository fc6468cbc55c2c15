import Groundplan.Datum.Basic
import Groundplan.Limits

/-!
# Faults

The causes for which a declaration, a synthesis or a query is refused. Each has a stable code, a
message and details; the wording is here and nowhere else. Beside these a request may break down at a
limit of the machine, which has no code and no details.
-/

namespace Groundplan

/-- Why properties, an override or a reference are refused. -/
inductive PropertyFault where
  | notMapping (path typeName : String)
  | badKey (key path : String)
  | notFinite (path number : String)
  | unsupported (path typeName : String)
  | overrideNotText (typeName : String)
  | badOverride (path : String)
  | grouping (path : String)
  | notReferenceable (path kind : String)
  | blankAttribute (path : String)
  | breakdown (cause : Breakdown)
deriving DecidableEq

/-- Why a tree is no document. -/
inductive SynthesisFault where
  | notStack (typeName : String)
  | notFinite (path : String)
  | selfContaining (path : String)
  | unsupported (path typeName : String)
  | unresolved (path target stack : String)
  | cycle (paths : List String)
  | aliasTaken (path : String) (type : Option String) (shown : String)
  | unknownKind (path kind : String)
  | slotTaken (path id : String)
  | breakdown (cause : Breakdown)
deriving DecidableEq

/-- Why something is no document. -/
inductive DocumentFault where
  | notJson (reason : String)
  | notMapping (typeName : String)
  | unknownBlocks (names : List String)
  | blockNotMapping (block typeName : String)
  | providerNotList (type : String)
  | outputWithoutValue (id : String)
deriving DecidableEq

/-- Why a request is refused. Embeds `TfSynthError` and its kinds. -/
inductive Fault where
  | blankIdentifier (label shown : String)
  | separatorInIdentifier (label value : String)
  | duplicateName (name : String)
  | duplicateId (id parent : String)
  | property (fault : PropertyFault)
  | locked (stack : String)
  | synthesis (fault : SynthesisFault)
  | document (fault : DocumentFault)
  | breakdown (cause : Breakdown)
deriving DecidableEq

/-- A type tag as messages show it. -/
def tagText (type : Option String) : String := type.getD "None"

/-- Details that name a path. -/
def pathDetail (path : String) : List (String × Datum) := [("path", .text path)]

/-- A list of texts as a datum. -/
def textList (texts : List String) : Datum := .list (texts.map .text)

namespace PropertyFault

/-- The wording of a refusal. -/
def message : PropertyFault → String
  | .notMapping path typeName => s!"Properties of '{path}' must be a mapping, got {typeName}."
  | .badKey key path => s!"Invalid property key {key} in '{path}': keys must be non-empty strings."
  | .notFinite path number => s!"Invalid value at '{path}': non-finite float {number}."
  | .unsupported path typeName =>
      s!"Unsupported value type '{typeName}' at '{path}'. " ++
        "Expected a scalar, list, mapping or reference."
  | .overrideNotText typeName => s!"Override path must be a string, got {typeName}."
  | .badOverride path => s!"Invalid override path '{path}'."
  | .grouping path => s!"'{path}' is a grouping construct and has no properties."
  | .notReferenceable path kind => s!"Node '{path}' of kind '{kind}' cannot be referenced."
  | .blankAttribute path => s!"Reference to '{path}' needs a non-empty attribute name."
  | .breakdown cause => cause.message

/-- What a refusal is about. -/
def details : PropertyFault → List (String × Datum)
  | .notMapping path _ | .badKey _ path | .notFinite path _ | .grouping path
  | .notReferenceable path _ | .blankAttribute path => pathDetail path
  | .unsupported path typeName => pathDetail path ++ [("type", .text typeName)]
  | .overrideNotText _ | .breakdown _ => []
  | .badOverride path => [("override", .text path)]

end PropertyFault

namespace SynthesisFault

/-- The wording of a refusal. -/
def message : SynthesisFault → String
  | .notStack typeName => s!"Only stacks can be synthesized, got {typeName}."
  | .notFinite path => s!"Non-finite float at '{path}'."
  | .selfContaining path => s!"Self-referential property value at '{path}'."
  | .unsupported path typeName => s!"Unsupported value type '{typeName}' at '{path}'."
  | .unresolved path target stack =>
      s!"Unresolved reference at '{path}': '{target}' is not part of stack '{stack}'."
  | .cycle paths => "Cyclic reference: " ++ " -> ".intercalate paths ++ "."
  | .aliasTaken path type shown =>
      s!"Provider '{tagText type}' is configured twice with alias {shown} (second at '{path}')."
  | .unknownKind path kind => s!"Unknown block kind '{kind}' at '{path}'."
  | .slotTaken path id =>
      s!"Two constructs resolve to the same id '{id}' (second at '{path}')."
  | .breakdown cause => cause.message

/-- What a refusal is about. -/
def details : SynthesisFault → List (String × Datum)
  | .notStack _ | .breakdown _ => []
  | .notFinite path | .selfContaining path | .unknownKind path _ => pathDetail path
  | .unsupported path typeName => pathDetail path ++ [("type", .text typeName)]
  | .unresolved path target _ => pathDetail path ++ [("target", .text target)]
  | .cycle paths => [("cycle", textList paths)]
  | .aliasTaken path type _ =>
      pathDetail path ++ [("type", (type.map Datum.text).getD .null)]
  | .slotTaken path id => pathDetail path ++ [("id", .text id)]

end SynthesisFault

namespace DocumentFault

/-- The wording of a refusal. -/
def message : DocumentFault → String
  | .notJson reason => s!"Document is not valid JSON: {reason}"
  | .notMapping typeName => s!"Expected a synthesized document, got {typeName}."
  | .unknownBlocks names => "Unknown top-level block(s): " ++ ", ".intercalate names ++ "."
  | .blockNotMapping block typeName => s!"Block '{block}' must be an object, got {typeName}."
  | .providerNotList type => s!"Provider '{type}' must hold a list of configurations."
  | .outputWithoutValue id => s!"Output '{id}' has no value."

/-- What a refusal is about. -/
def details : DocumentFault → List (String × Datum)
  | .notJson _ | .notMapping _ => []
  | .unknownBlocks names => [("blocks", textList names)]
  | .blockNotMapping block _ => [("block", .text block)]
  | .providerNotList type => [("block", .text ("provider." ++ type))]
  | .outputWithoutValue id => [("block", .text ("output." ++ id))]

end DocumentFault

namespace Fault

/-- How a request broke down, if that is why there is no reply. -/
def breakdown? : Fault → Option Breakdown
  | .property (.breakdown cause) | .synthesis (.breakdown cause) | .breakdown cause => some cause
  | _ => none

/-- The stable code of a fault. -/
def code : Fault → String
  | .blankIdentifier .. | .separatorInIdentifier .. => "INVALID_ID"
  | .duplicateName _ => "DUPLICATE_NAME"
  | .duplicateId .. => "DUPLICATE_ID"
  | .property _ => "INVALID_PROPERTY"
  | .locked _ => "STACK_LOCKED"
  | .synthesis _ => "SYNTHESIS_FAILED"
  | .document _ => "MALFORMED_DOCUMENT"
  | .breakdown _ => ""

/-- The message of a fault. -/
def message : Fault → String
  | .blankIdentifier label shown => s!"Invalid {label} {shown}: expected a non-empty string."
  | .separatorInIdentifier label value => s!"Invalid {label} '{value}': must not contain '/'."
  | .duplicateName name => s!"Stack name '{name}' is already used in this app."
  | .duplicateId id parent => s!"There is already a construct with id '{id}' in '{parent}'."
  | .property fault => fault.message
  | .locked stack => s!"Stack '{stack}' has been synthesized and can no longer be modified."
  | .synthesis fault => fault.message
  | .document fault => fault.message
  | .breakdown cause => cause.message

/-- What a fault is about. -/
def details : Fault → List (String × Datum)
  | .blankIdentifier .. | .separatorInIdentifier .. | .breakdown _ => []
  | .duplicateName name => [("stackName", .text name)]
  | .duplicateId id parent => [("id", .text id), ("parent", .text parent)]
  | .property fault => fault.details
  | .locked stack => [("stackName", .text stack)]
  | .synthesis fault => fault.details
  | .document fault => fault.details

/-- Code, message and details as one report. Embeds `TfSynthError.to_dict`. -/
def report (f : Fault) : Datum :=
  .record ([("errorCode", .text f.code), ("message", .text f.message)] ++ f.details)

end Fault

end Groundplan
