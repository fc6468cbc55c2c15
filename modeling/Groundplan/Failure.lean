import Groundplan.Document.Query
import Groundplan.Files.Tree
import Groundplan.Json.Parser

/-!
# Failures

All ways in which a request can end without an answer: a fault of the domain, a value that has no JSON
form, a predicate that is none, a setting that is not accepted, a file that cannot be used. A caller's
own code can raise failures of other kinds, and be interrupted.
-/

namespace Groundplan

/-- Why a setting is not accepted. -/
inductive SettingFault where
  | notMapping (typeName : String)
  | unknownField (name : String)
  | wrongType (field expected received : String)
  | outOfRange (field : String) (value low high : Int)
  | unknownLevel (value : String)
  | longNumeral (digits : Nat)
  | notNumeral (text : String)
  | longInteger
deriving DecidableEq

namespace SettingFault

/-- How much of a text that is no number a message shows. -/
def shownLength : Nat := 200

/-- The message about a setting. -/
def message : SettingFault → String
  | .notMapping typeName => s!"Invalid config type: expected dict, received {typeName}."
  | .unknownField name => s!"Unknown field '{name}'."
  | .wrongType field expected received =>
      s!"Invalid field '{field}': expected {expected}, received {received}."
  | .outOfRange field value low high =>
      s!"Invalid field '{field}': " ++ intText value ++ s!" is outside {low}..{high}."
  | .unknownLevel value => s!"Invalid field 'log_level': unknown level '{value}'."
  | .longNumeral digits => Json.longNumeralMessage digits
  | .notNumeral text =>
      "invalid literal for int() with base 10: " ++
        String.ofList ((Text.quoted text).toList.take shownLength)
  | .longInteger => WriteFault.longNumeral.message

/-- Whether a setting has the wrong type, and not an unfit value. -/
def isType : SettingFault → Bool
  | .notMapping _ | .wrongType _ _ _ => true
  | _ => false

end SettingFault

/-- Why a request ended without an answer. -/
inductive Failure where
  | fault (fault : Fault)
  | json (fault : WriteFault)
  | predicate (fault : PredicateFault)
  | setting (fault : SettingFault)
  | file (error : FileError)
  | raised (kind message : String)
  | interrupted

/-- The failure that a breakdown is. -/
def Failure.ofBreakdown (cause : Breakdown) : Failure := .raised cause.kind cause.message

/-- The failure that a fault is: one of the domain, or a breakdown. -/
def Failure.ofFault (f : Fault) : Failure := (f.breakdown?.map ofBreakdown).getD (.fault f)

/-- The message of a failure. -/
def Failure.message : Failure → String
  | .fault f => f.message
  | .json f => f.message
  | .predicate f => f.message
  | .setting f => f.message
  | .file e => e.message
  | .raised _ message => message
  | .interrupted => ""

end Groundplan
