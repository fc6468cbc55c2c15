import Groundplan.Datum.Display
import Groundplan.Workspace.Basic

/-!
# Events

What is worth a line in a log: the event, how severe it is, and which part of the library reports it.
-/

namespace Groundplan

/-- How severe an event is. -/
inductive Severity where
  | debug
  | info
  | warning
  | error
  | critical
deriving DecidableEq

namespace Severity

/-- The number of a severity; a greater one is more severe. -/
def level : Severity → Int
  | .debug => 10
  | .info => 20
  | .warning => 30
  | .error => 40
  | .critical => 50

/-- The name of a severity. -/
def name : Severity → String
  | .debug => "DEBUG"
  | .info => "INFO"
  | .warning => "WARNING"
  | .error => "ERROR"
  | .critical => "CRITICAL"

/-- The severities in ascending order. -/
def all : List Severity := [.debug, .info, .warning, .error, .critical]

end Severity

/-- The part of the library that reports an event. -/
inductive Source where
  | builder
  | synthesizer
  | query
  | settings
  | validator
  | commandLine
deriving DecidableEq

/-- The name of a part's logger. -/
def Source.loggerName : Source → String
  | .builder => "tfsynth.core.builder"
  | .synthesizer => "tfsynth.core.synthesizer"
  | .query => "tfsynth.core.query"
  | .settings => "tfsynth.domain.config"
  | .validator => "tfsynth.core.validator"
  | .commandLine => "tfsynth.interface.cli.app"

/-- Something worth a line in a log. -/
inductive Event where
  | stackCreated (name : String)
  | constructAdded (path : String) (kind : NodeKind)
  | synthesized (stack : String) (blocks : Nat)
  | documentWritten (path : String)
  | documentLoaded (stack : String) (blocks : List Key)
  | settingsMissing (path : String)
  | settingsUnreadable (path reason : String)
  | settingsCorrupted
  | settingsUnknown (names : List String)
  | settingsSaved (path : String)
  | settingsRejected (reason : String)
  | constraint (warning : String)
  | checked (kind type predicate : String) (isMatch : Bool)
  | synthesisFailed (reason : String)
  | failed (reason : String)

namespace Event

/-- How severe an event is. -/
def severity : Event → Severity
  | .stackCreated _ | .constructAdded _ _ | .documentLoaded _ _ | .settingsMissing _
  | .settingsSaved _ | .checked _ _ _ _ => .debug
  | .synthesized _ _ | .documentWritten _ => .info
  | .settingsUnreadable _ _ | .settingsCorrupted | .settingsUnknown _ | .settingsRejected _
  | .constraint _ => .warning
  | .synthesisFailed _ | .failed _ => .error

/-- The part of the library that reports an event. -/
def source : Event → Source
  | .stackCreated _ | .constructAdded _ _ => .builder
  | .synthesized _ _ | .documentWritten _ => .synthesizer
  | .documentLoaded _ _ => .query
  | .settingsMissing _ | .settingsUnreadable _ _ | .settingsCorrupted | .settingsUnknown _
  | .settingsSaved _ => .settings
  | .settingsRejected _ => .validator
  | .constraint _ | .checked _ _ _ _ | .synthesisFailed _ | .failed _ => .commandLine

/-- A kind of node as a log shows it. -/
def kindText (kind : NodeKind) : String :=
  match kind.name? with
  | some name => if name.isEmpty then "construct" else name
  | none => "construct"

/-- The message of an event. -/
def message : Event → String
  | .stackCreated name => s!"Stack created: {name}"
  | .constructAdded path kind => s!"Construct added: {path} ({kindText kind})"
  | .synthesized stack blocks => s!"Synthesized stack '{stack}' ({blocks} blocks)"
  | .documentWritten path => s!"Document written: {path}"
  | .documentLoaded stack blocks =>
      s!"Loaded external document (stack='{stack}', blocks=" ++
        "[" ++ commaJoined (blocks.map (Key.display Naming.bare)) ++ "])"
  | .settingsMissing path => s!"Config file not found at {path}. Using defaults."
  | .settingsUnreadable path reason =>
      s!"Failed to load config '{path}': {reason}. Using defaults."
  | .settingsCorrupted => "Corrupted config file. Using defaults."
  | .settingsUnknown names => "Ignoring unknown config keys: " ++ commaJoined names
  | .settingsSaved path => s!"Configuration saved to {path}"
  | .settingsRejected reason => reason
  | .constraint warning => s!"Configuration constraint: {warning}"
  | .checked kind type predicate isMatch =>
      s!"check kind={kind} type={type} predicate={predicate} -> " ++
        (if isMatch then "True" else "False")
  | .synthesisFailed reason => s!"Synthesis failed: {reason}"
  | .failed reason => reason

end Event

end Groundplan
