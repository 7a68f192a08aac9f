import DeferredOps.Counters
import DeferredOps.Event
import DeferredOps.Store.Trees
import DeferredOps.Terminal

/-!
# Runs

The state that operations work on: the store, and what they have counted, reported and written so
far. An operation that fails leaves the state as it then is.
-/

namespace DeferredOps

/-- The levels of log records. -/
inductive LogLevel
  | info
  | warning
  | error
  deriving DecidableEq, Repr

/-- The name of a level. -/
def LogLevel.name : LogLevel → String
  | .info => "INFO"
  | .warning => "WARNING"
  | .error => "ERROR"

/-- A record of the log. -/
structure LogRecord where
  level : LogLevel
  message : String
  deriving DecidableEq, Repr

/-- The line of a record that was written at a time. -/
def LogRecord.line (r : LogRecord) (time : Timestamp) : String :=
  time.logStamp ++ " - " ++ r.level.name ++ " - " ++ r.message

/-- The source of fresh names: their common beginning, and how many were given out. -/
structure NameSource where
  stem : String
  used : Nat
  deriving DecidableEq, Repr

/-- The state of a run. -/
structure Run where
  store : Store
  counters : Counters
  journal : Journal
  clock : Clock
  names : NameSource
  log : List LogRecord
  /-- The file that this run's log goes to, once it has one. -/
  logFile : Option Path
  /-- The command lines that were handed to a command runner. -/
  commands : List String
  /-- The lines that were printed, each with its end. -/
  output : String
  /-- Whether what is printed goes to a terminal, which understands control sequences. -/
  onTerminal : Bool
  deriving Repr

/-- An operation within a run. -/
abbrev RunAction (α : Type) := ExceptT Failure (StateM Run) α

namespace RunAction

/-- Act on the store. -/
def onStore (action : StoreAction α) : RunAction α := do
  let run ← get
  let (result, store) := action.run run.store
  set { run with store }
  match result with
  | .ok value => return value
  | .error f => throw f

/-- Ask about the store. -/
def ask (question : Store → Except Failure α) : RunAction α := do
  match question (← get).store with
  | .ok answer => return answer
  | .error f => throw f

/-- Add one to a counter. -/
def count (name : String) : RunAction Unit :=
  modify fun run ↦ { run with counters := run.counters.increment name }

/-- Write a record to the log. -/
def log (level : LogLevel) (message : String) : RunAction Unit :=
  modify fun run ↦ { run with log := run.log ++ [⟨level, message⟩] }

/-- Print a line. Control sequences are for terminals only. -/
def printLine (text : String) : RunAction Unit := do
  let run ← get
  match if run.onTerminal then some text else Terminal.plain? text with
  | some text => set { run with output := run.output ++ text ++ "\n" }
  | none => throw .windowTitle

/-- A fresh name. -/
def freshName : RunAction String := do
  let run ← get
  let used := run.names.used + 1
  set { run with names := { run.names with used } }
  return run.names.stem ++ used.repr

/-- Read the clock. -/
def now : RunAction Timestamp := do
  let run ← get
  let (time, clock) := run.clock.read
  set { run with clock }
  return time

/-! ## Reporting -/

/-- Add an event to the event file. A failure is logged and does not stop the run. -/
def writeEvent (file : Path) (event : Event) : RunAction Unit :=
  tryCatch
    (onStore (StoreAction.write file fun content ↦
      content ++ Utf8.encodeString (event.line ++ "\n")))
    fun f ↦
      if f.isSystem then log .error ("Failed to write event to file: " ++ f.message) else throw f

/-- Report an event. -/
def emit (severity : Severity) (message : String) (context : Json) : RunAction Event := do
  let id ← freshName
  let time ← now
  let journal := (← get).journal
  let event : Event := ⟨id, time, severity, message, context, some journal.session⟩
  modify fun run ↦ { run with journal := { journal with events := journal.events ++ [event] } }
  if journal.console then
    log (match severity with
      | .info => .info
      | .warning => .warning) message
  match journal.file with
  | some file => writeEvent file event
  | none => pure ()
  return event

/-- Report progress. -/
def info (message : String) : RunAction Unit :=
  discard (emit .info message (.obj []))

/-- Report a problem. -/
def warn (message : String) : RunAction Unit :=
  discard (emit .warning message (.obj []))

/-- The events of a severity, with a text in their message, that are not before a time. -/
def events (severity : Option Severity) (part : String) (since : Option Timestamp) :
    RunAction (List Event) := do
  match (← get).journal.querySince? severity part since with
  | some events => return events
  | none => throw .incomparableTimes

/-- Open a journal, with a fresh name for its session unless one is given, and make the directory of
its file. -/
def openJournal (file : Option Path) (session : Option String) (console : Bool) :
    RunAction Unit := do
  let session ← match session.filter (!·.isEmpty) with
    | some session => pure session
    | none => freshName
  modify fun run ↦ { run with journal := ⟨file, session, console, []⟩ }
  match file with
  | some file => onStore (StoreAction.ensureDirectory file.parent)
  | none => pure ()

/-! ## Failures that a run survives -/

/-- Do an operation and then, however it ends, another one. A failure of the second one counts before
one of the first. -/
def ending (operation last : RunAction Unit) : RunAction Unit := do
  let outcome ← tryCatch (do operation; return none) fun f ↦ return some f
  last
  match outcome with
  | none => pure ()
  | some f => throw f

/-- Do an operation; a failure of the file system or of a command is counted and reported, and does
not go on. -/
def surviving (report : Failure → String) (operation : RunAction Unit) : RunAction Unit :=
  tryCatch operation fun f ↦
    if f.isSystem then do
      count "failed"
      warn (report f)
    else throw f

end RunAction

end DeferredOps
