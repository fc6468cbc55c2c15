import Groundplan.Event
import Groundplan.Settings.Basic

/-!
# Log records

A record is a message with its level, the name of its logger and the time at which it was made. On the
console it is one line without the time; in a file the line starts with the time and the name of the
level has a column of its own. A level without a name shows its number.
-/

namespace Groundplan.Logging

/-- One message of a log. -/
structure Record where
  level : Int
  logger : String
  message : String
  time : String
deriving DecidableEq

/-- The name of a level. -/
def levelName (level : Int) : String :=
  match Severity.all.find? fun s => s.level == level with
  | some severity => severity.name
  | none => "Level " ++ intText level

/-- The level that a text names, whatever its case and the blanks around it. Without a text, or where
the text names no level, it is that of information. Embeds `_parse_level`. -/
def parseLevel (d : Datum) : Int :=
  let name := (d.text?.map fun s => Text.capitals (Text.strip s)).getD ""
  ((Settings.levels.find? fun l => l.1 == name).map (·.2)).getD Severity.info.level

/-- The width of the column that holds the names of levels in a file. -/
def levelColumn : Nat := 8

/-- A text with spaces after it up to a width. -/
def padRight (width : Nat) (s : String) : String :=
  s ++ String.ofList (List.replicate (width - s.length) ' ')

/-- The name that the logger without a name has. -/
def rootName : String := "root"

/-- The name of a record's logger. -/
def Record.loggerName (r : Record) : String := if r.logger.isEmpty then rootName else r.logger

/-- A record as the console shows it. -/
def Record.consoleLine (r : Record) : String :=
  s!"tfsynth {levelName r.level} {r.loggerName}: {r.message}\n"

/-- A record as a file keeps it. -/
def Record.fileLine (r : Record) : String :=
  s!"{r.time} " ++ padRight levelColumn (levelName r.level) ++
    s!" {r.loggerName} [MainThread] {r.message}\n"

/-- The record of an event. -/
def Record.ofEvent (e : Event) (time : String) : Record :=
  ⟨e.severity.level, e.source.loggerName, e.message, time⟩

end Groundplan.Logging
