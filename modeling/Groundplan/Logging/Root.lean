import Groundplan.Logging.Sink

/-!
# The root logger

Records that are severe enough go to every handler of the root logger. One of the handlers may be
its own: it puts records into a queue, from which a listener takes them, the oldest first, to write
them to the sinks. What is still in the queue when the listener is stopped is written then. Handlers
that others have installed stay where they are. A severe record that no handler takes in is written
beside the log.
-/

namespace Groundplan.Logging

/-- What logging is set up with. Embeds `LoggingConfig`. -/
structure LogSettings where
  level : Int := Severity.info.level
  console : Bool := true
  file : Option String := none
  limit : Int := Settings.defaults.logMaxBytes
  backups : Int := Settings.defaults.logBackupCount
deriving DecidableEq

/-- The part of sound settings that logging goes by. -/
def LogSettings.ofSettings (s : Settings) (console : Bool) : LogSettings where
  level := parseLevel (.text s.logLevel)
  console := console
  file := if s.logFile.isEmpty then none else some s.logFile
  limit := s.logMaxBytes
  backups := s.logBackupCount

/-- The part of settings that logging goes by, as they were given: what counts as nothing stands for
the default level or for no file. Embeds `LoggingConfig.from_config`. -/
def givenSettings (entries : Entries Datum) (console : Bool) : Entries Datum :=
  let chosen (name : String) (fallback : Datum) : Datum :=
    match entries.get? (.text name) with
    | some d => if d.isTruthy then d else fallback
    | none => fallback
  let given (name : String) (fallback : Int) : Datum :=
    (entries.get? (.text name)).getD (.int fallback)
  [(.text "level", chosen "log_level" (.text Severity.info.name)),
   (.text "console", .bool console),
   (.text "log_file", chosen "log_file" .null),
   (.text "max_bytes", given "log_max_bytes" Settings.defaults.logMaxBytes),
   (.text "backup_count", given "log_backup_count" Settings.defaults.logBackupCount)]

/-- A handler of the root logger: one of its own, which puts records into a queue, or one that others
have installed. -/
inductive Handler where
  | own (queue : Nat)
  | foreign (serial : Nat)
deriving DecidableEq

/-- Whether a handler is one of the root logger's own. -/
def Handler.isOwn : Handler → Bool
  | .own _ => true
  | .foreign _ => false

/-- The queues after a handler took a record in: one of the root logger's own puts it at the end of
its queue. -/
def Handler.take (r : Record) (queues : List (List Record)) : Handler → List (List Record)
  | .own queue => queues.modify queue (· ++ [r])
  | .foreign _ => queues

/-- What takes records out of a queue, and the sinks that it writes them to if they are severe
enough. -/
structure Listener where
  queue : Nat
  level : Int
  sinks : List Sink

/-- Writes a record to every sink, unless it is less severe than they ask for. -/
def Listener.write (l : Listener) (env : Environment) (o : Outlets) (r : Record) : Outlets :=
  if l.level ≤ r.level then l.sinks.foldl (fun o s => s.write env o r) o else o

/-- The root logger, with the records in each queue that was ever made. -/
structure Root where
  level : Int := Severity.warning.level
  isConfigured : Bool := false
  handlers : List Handler := []
  listener : Option Listener := none
  queues : List (List Record) := []

namespace Root

/-- The handlers of its own. -/
def ownHandlers (root : Root) : List Handler := root.handlers.filter Handler.isOwn

/-- Whether a record of a level is taken notice of. -/
def isEnabled (root : Root) (level : Int) : Bool := 0 < level && root.level ≤ level

/-- The records that wait in a queue, the oldest first. -/
def queued (root : Root) (queue : Nat) : List Record := root.queues.getD queue []

/-- Hands a record to every handler; if there is none and the record is severe, it goes beside the
log. -/
def log (root : Root) (o : Outlets) (r : Record) : Root × Outlets :=
  if !root.isEnabled r.level then (root, o)
  else
    ({ root with queues := root.handlers.foldl (Handler.take r) root.queues },
      if root.handlers.isEmpty && Severity.warning.level ≤ r.level then o.warn (r.message ++ "\n")
      else o)

/-- Takes the handlers of its own away. Embeds `_remove_our_handlers`. -/
def removeOwn (root : Root) : Root :=
  { root with handlers := root.handlers.filter fun h => !h.isOwn }

/-- Stops the listener, which first writes all that waits in its queue. Embeds
`_stop_existing_listener`. -/
def stopListener (root : Root) (env : Environment) (o : Outlets) : Root × Outlets :=
  match root.listener with
  | none => (root, o)
  | some l =>
      ({ root with listener := none, queues := root.queues.set l.queue [] },
        (root.queued l.queue).foldl (l.write env) o)

/-- Opens the file of a log: it comes to be if it is missing, with the directories before it. Embeds
`_create_rotating_file_handler`. -/
def openFile (env : Environment) (s : LogSettings) (path : String) (t : FileTree) :
    FileTree × Except FileError RotatingFile :=
  let absolute := Path.absolute env path
  match t.ensureDirectory env (Path.directory absolute) with
  | (t, .error e) => (t, .error e)
  | (t, .ok ()) =>
      match t.appendBytes env absolute [] with
      | .ok t => (t, .ok ⟨absolute, s.limit, s.backups⟩)
      | .error e => (t, .error e)

/-- Opens the sinks that settings ask for. Where the system refuses the file there is a warning in its
stead; a path that can be none is the caller's fault. -/
def openSinks (env : Environment) (s : LogSettings) (o : Outlets) :
    Outlets × Except FileError (List Sink) :=
  let console := if s.console then [Sink.console] else []
  match s.file with
  | none => (o, .ok console)
  | some path =>
      let (files, opened) := openFile env s path o.files
      let o := { o with files := files }
      match opened with
      | .ok file => (o, .ok (console ++ [.file file]))
      | .error e =>
          if e.isSystem then
            (o.warn (s!"WARNING: cannot open log file '{path}': {e.message}\n"), .ok console)
          else (o, .error e)

/-- Sets logging up anew if it is not set up yet, or in any case if it is forced to. Embeds
`configure_logging`. -/
def configure (root : Root) (env : Environment) (s : LogSettings) (force : Bool) (o : Outlets) :
    Root × Outlets × Except FileError Unit :=
  if root.isConfigured && !force then (root, o, .ok ())
  else
    let (root, o) := { root with level := s.level }.removeOwn.stopListener env o
    match openSinks env s o with
    | (o, .error e) => (root, o, .error e)
    | (o, .ok []) => ({ root with isConfigured := true }, o, .ok ())
    | (o, .ok sinks) =>
        let queue := root.queues.length
        ({ root with
            isConfigured := true
            handlers := root.handlers ++ [.own queue]
            listener := some ⟨queue, s.level, sinks⟩
            queues := root.queues ++ [[]] }, o, .ok ())

/-- Stops logging; the level stays. Embeds `shutdown_logging`. -/
def shutDown (root : Root) (env : Environment) (o : Outlets) : Root × Outlets :=
  let (root, o) := root.stopListener env o
  ({ root.removeOwn with isConfigured := false }, o)

end Root

end Groundplan.Logging
