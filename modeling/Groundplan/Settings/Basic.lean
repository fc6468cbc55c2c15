import Groundplan.Failure
import Groundplan.Text.Case
import Groundplan.Text.Digits
import Groundplan.Workspace.Builder

/-!
# Settings

The settings of a project. `check` takes settings as a file or a caller gave them and makes sound ones
of them. Where it is strict, the first value that is not accepted is a fault; where it is lenient,
values are converted or replaced by their defaults, and every such step but silent defaults leaves a
warning.
-/

namespace Groundplan

/-- Sound settings. -/
structure Settings where
  outputDir : String
  indent : Int
  emitMetadata : Bool
  logLevel : String
  logFile : String
  logMaxBytes : Int
  logBackupCount : Int
deriving DecidableEq

namespace Settings

/-- The settings that hold unless a project says otherwise. Embeds `get_default_config`. -/
def defaults : Settings where
  outputDir := Workspace.defaultOutdir
  indent := 2
  emitMetadata := true
  logLevel := "INFO"
  logFile := ""
  logMaxBytes := 1024 * 1024
  logBackupCount := 2

/-- Settings as entries, in the order in which they are always listed. -/
def toEntries (s : Settings) : Entries Datum :=
  [(.text "output_dir", .text s.outputDir), (.text "indent", .int s.indent),
   (.text "emit_metadata", .bool s.emitMetadata), (.text "log_level", .text s.logLevel),
   (.text "log_file", .text s.logFile), (.text "log_max_bytes", .int s.logMaxBytes),
   (.text "log_backup_count", .int s.logBackupCount)]

/-- Settings as a datum. -/
def toDatum (s : Settings) : Datum := .mapping false s.toEntries

/-- The default settings as entries. -/
def defaultEntries : Entries Datum := defaults.toEntries

/-- The default settings with those of a mapping that have the name of one. -/
def overlay (entries : Entries Datum) : Entries Datum :=
  defaultEntries.setAll (entries.filter fun (k, _) => defaultEntries.has k)

/-- The largest indentation. -/
def maxIndent : Int := 8

/-- The largest size of a log file. -/
def maxLogBytes : Int := 100 * 1024 * 1024

/-- The largest number of old log files. -/
def maxLogBackups : Int := 50

/-- The names of levels and their numbers. -/
def levels : List (String × Int) :=
  [("DEBUG", 10), ("INFO", 20), ("WARNING", 30), ("WARN", 30), ("ERROR", 40), ("CRITICAL", 50)]

/-- A value that was accepted or made, and the warnings about it. -/
abbrev Checked (α : Type) := Except SettingFault (α × List String)

/-- A value that is accepted without a word. -/
def accept {α : Type} (value : α) : Checked α := .ok (value, [])

/-- A value that is not accepted: a fault where checking is strict, else a warning. -/
def refuse {α : Type} (strict : Bool) (fallback : α) (notes : List String)
    (fault : SettingFault) : Checked α :=
  if strict then .error fault
  else .ok (fallback, notes ++ [fault.message ++ " Using fallback."])

/-- A text, without blanks around it. Embeds `_as_str`. -/
def checkText (strict : Bool) (field fallback : String) (allowEmpty : Bool) (d : Datum) :
    Checked String :=
  match d with
  | .atom (.scalar .null) => accept fallback
  | .atom (.scalar (.text s)) =>
      let stripped := Text.strip s
      accept (if stripped.isEmpty && !allowEmpty then fallback else stripped)
  | d => refuse strict fallback [] (.wrongType field "str" d.typeName)

/-- The truth value of a number that is one or zero. -/
def boolOfNumber? : Datum → Option (Bool × String)
  | .atom (.scalar (.int i)) =>
      if i = 0 ∨ i = 1 then some (i == 1, intText i) else none
  | .atom (.scalar (.float x)) =>
      if x.eqInt 0 || x.eqInt 1 then some (x.eqInt 1, x.text) else none
  | _ => none

/-- The truth value that a word stands for. -/
def boolOfWord? (s : String) : Option Bool :=
  let word := Text.smalls (Text.strip s)
  if ["true", "1", "yes", "y", "on"].contains word then some true
  else if ["false", "0", "no", "n", "off"].contains word then some false
  else none

/-- A truth value as a warning shows it. -/
def boolText (b : Bool) : String := if b then "True" else "False"

/-- A truth value. Embeds `_as_bool`. -/
def checkBool (strict : Bool) (field : String) (fallback : Bool) (d : Datum) : Checked Bool :=
  let refused := refuse strict fallback [] (.wrongType field "bool" d.typeName)
  match d with
  | .atom (.scalar (.bool b)) => accept b
  | .atom (.scalar .null) => accept fallback
  | .atom (.scalar (.text s)) =>
      if strict then refused
      else
        match boolOfWord? s with
        | some b =>
            .ok (b, [s!"Field '{field}' converted from '{s}' to " ++ boolText b ++ "."])
        | none => refused
  | d =>
      if strict then refused
      else
        match boolOfNumber? d with
        | some (b, number) =>
            .ok (b, [s!"Field '{field}' converted from number {number} to bool."])
        | none => refused

/-- An integer between bounds. One with too many digits cannot even be named in a message. -/
def checkRange (strict : Bool) (field : String) (fallback low high : Int) (notes : List String)
    (i : Int) : Checked Int :=
  if low ≤ i ∧ i ≤ high then .ok (i, notes)
  else if Json.isLong (.int i) then .error .longInteger
  else refuse strict fallback notes (.outOfRange field i low high)

/-- An integer between bounds, or digits that stand for one. Embeds `_as_int`. -/
def checkInt (strict : Bool) (field : String) (fallback low high : Int) (d : Datum) :
    Checked Int :=
  let refused := refuse strict fallback [] (.wrongType field "int" d.typeName)
  match d with
  | .atom (.scalar .null) => accept fallback
  | .atom (.scalar (.int i)) => checkRange strict field fallback low high [] i
  | .atom (.scalar (.text s)) =>
      let stripped := Text.strip s
      if strict || !Text.isDigits stripped then refused
      else
        match Text.readDigits stripped.toList with
        | .ok n =>
            checkRange strict field fallback low high
              [s!"Field '{field}' converted from '{s}' to int."] n
        | .error (.tooLong digits) => .error (.longNumeral digits)
        | .error .notDecimal => .error (.notNumeral stripped)
  | _ => refused

/-- The name of a level, in capitals. Embeds `_as_level`. -/
def checkLevel (strict : Bool) (fallback : String) (d : Datum) : Checked String :=
  match d with
  | .atom (.scalar .null) => accept fallback
  | .atom (.scalar (.text s)) =>
      let name := Text.capitals (Text.strip s)
      if levels.any fun l => l.1 == name then accept name
      else refuse strict fallback [] (.unknownLevel s)
  | d => refuse strict fallback [] (.wrongType "log_level" "str" d.typeName)

/-- The name of a key that is no setting, unless an integer in it has too many digits. -/
def unknownName (naming : Naming) (k : Key) : Except SettingFault String :=
  if Json.keyHasLong k then .error .longInteger else .ok (k.plain naming)

/-- Warnings about the names in a mapping that are no settings. -/
def checkNames (naming : Naming) (strict : Bool) (entries : Entries Datum) :
    Except SettingFault (List String) :=
  (entries.keys.filter fun k => !defaultEntries.has k).mapM fun k => do
    let name ← unknownName naming k
    if strict then throw (.unknownField name)
    return (SettingFault.unknownField name).message ++ " Ignored."

/-- Sound settings from entries that give all of them. -/
def checkEntries (strict : Bool) (entries : Entries Datum) :
    Except SettingFault (Settings × List String) := do
  let get (name : String) : Datum := (entries.get? (.text name)).getD .null
  let d := defaults
  let (outputDir, w1) ← checkText strict "output_dir" d.outputDir false (get "output_dir")
  let (logFile, w2) ← checkText strict "log_file" "" true (get "log_file")
  let (emitMetadata, w3) ← checkBool strict "emit_metadata" d.emitMetadata (get "emit_metadata")
  let (indent, w4) ← checkInt strict "indent" d.indent 0 maxIndent (get "indent")
  let (logMaxBytes, w5) ←
    checkInt strict "log_max_bytes" d.logMaxBytes 1 maxLogBytes (get "log_max_bytes")
  let (logBackupCount, w6) ←
    checkInt strict "log_backup_count" d.logBackupCount 0 maxLogBackups (get "log_backup_count")
  let (logLevel, w7) ← checkLevel strict d.logLevel (get "log_level")
  return (⟨outputDir, indent, emitMetadata, logLevel, logFile, logMaxBytes, logBackupCount⟩,
    w1 ++ w2 ++ w3 ++ w4 ++ w5 ++ w6 ++ w7)

/-- Sound settings from what a file or a caller gave. Embeds `validate_config`. -/
def check (naming : Naming) (strict : Bool) (d : Datum) :
    Except SettingFault (Settings × List String) :=
  match d with
  | .mapping false entries => do
      let w ← checkNames naming strict entries
      let (settings, ws) ← checkEntries strict (overlay entries)
      return (settings, w ++ ws)
  | d =>
      let fault := SettingFault.notMapping d.typeName
      if strict then .error fault
      else .ok (defaults, [fault.message ++ " Using defaults."])

end Settings

end Groundplan
