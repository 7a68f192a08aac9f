import DeferredOps.Batch
import DeferredOps.CommandLine.Arguments
import DeferredOps.HostProcess
import DeferredOps.LogFolder

/-!
# The program

The program reads its arguments and its configuration, opens its log and its event file, and then
either prints what the instruction file asks for, or waits for the host process and applies the
file. Waiting is left to the caller: the program stops before it and goes on with the answer.
-/

namespace DeferredOps.Program

open RunAction Terminal

/-- The configuration file that is read when the arguments name none. -/
def defaultConfig : Path := Path.ofString "config_files/config.json"

/-- The wait that a program asks for: the process, and the seconds to wait, as configured. -/
structure WaitRequest where
  pid : NumberValue
  timeout : Json
  deriving Repr

/-- The wait in full, unless its values are empty. The process is looked at twice a second. -/
def WaitRequest.full? (w : WaitRequest) (pidTaken : Bool) : Option HostProcess.Request :=
  match w.pid, w.timeout with
  | .whole pid, .int n => some ⟨pid, n, Json.intText n, 1 / 2, pidTaken⟩
  | _, _ => none

/-- How far a program has come: to its end with an exit code, or to the point where the instruction
file can be applied, after a wait if there is one to make. -/
inductive Stage
  | ended (code : Nat)
  | ready (batch : Batch) (wait : Option WaitRequest)

/-- The first of two texts that is given and not empty. -/
def firstGiven (first second : Option String) : Option String :=
  match first.filter (!·.isEmpty) with
  | some text => some text
  | none => second.filter (!·.isEmpty)

/-- The settings with a value from the arguments, if they give one that is not empty. -/
def override (config : Config) (name : String) (value : Option String) : Config :=
  match value.filter (!·.isEmpty) with
  | some text => config.put name (.str text)
  | none => config

/-- The configuration file. -/
def configFile (options : Options) : Path :=
  match options.config.filter (!·.isEmpty) with
  | some text => Path.ofString text
  | none => defaultConfig

/-- The settings of the configuration file and the arguments. -/
def configuration (options : Options) : RunAction Config := do
  let path := configFile options
  let config ← Config.load (if ← ask (·.exists? path) then some path else none)
  let config := override config "base_path" (firstGiven options.base options.basePath)
  let config := override config "working_directory" options.workingDirectory
  return override config "event_log" options.eventLog

/-! ## Printing -/

/-- A text with blanks in front up to a width. -/
def alignRight (width : Nat) (text : String) : String :=
  String.ofList (List.replicate (width - text.length) ' ') ++ text

/-- The line across the page. -/
def rule : String :=
  String.ofList (List.replicate 70 '=')

/-- The text of a path, or of its absence. -/
def pathText : Option Path → String
  | some path => path.text
  | none => "None"

/-- The line of the printed plan for a line of the instruction file. -/
def planLine (line : PlannedLine) : String :=
  let number := alignRight 4 line.lineNumber.repr
  match line.outcome with
  | .ok instruction =>
    "  " ++ styled .green (number ++ "  +") ++ " " ++ instruction.directive.describe
  | .error _ => "  " ++ styled .red (number ++ "  ?") ++ " " ++ line.text

/-- Whether a line of a plan is no instruction. -/
def isUnrecognized (line : PlannedLine) : Bool :=
  match line.outcome with
  | .ok _ => false
  | .error _ => true

/-- Print what the instruction file asks for. -/
def printPlan (batch : Batch) : RunAction Unit := do
  let lines ← batch.plan
  let file := pathText (← ask fun _ ↦ batch.config.instructionsFile)
  if lines.isEmpty then printLine (styled .yellow ("No instruction file at " ++ file))
  else
    printLine ("\n" ++ styled .cyan rule)
    printLine (styled .cyan ("INSTRUCTIONS - " ++ file))
    printLine (styled .cyan rule ++ "\n")
    lines.forM fun line ↦ printLine (planLine line)
    let bad := lines.countP isUnrecognized
    printLine ("\n  " ++ lines.length.repr ++ " instruction lines, " ++
      styled (if bad = 0 then .green else .red) (bad.repr ++ " unrecognized") ++ "\n")

/-- The counters of the summary, each with its label and the style of its value. -/
def summaryLabels : List (String × String × Style) :=
  [("moved........", "moved", .green), ("merged.......", "merged", .cyan),
    ("deleted......", "deleted", .green), ("skipped......", "skipped", .yellow),
    ("failed.......", "failed", .red), ("unrecognized.", "unrecognized", .red)]

/-- Print the counters of a pass and the number of its warnings. -/
def printSummary : RunAction Unit := do
  let run ← get
  let value (name : String) : String := Json.intText (run.counters.value name)
  printLine ("\n  " ++ styled .green "[COMPLETE]" ++ " " ++ styled .dim "lines:" ++ " " ++
    styled .white (value "lines"))
  summaryLabels.forM fun (label, name, style) ↦
    printLine ("     " ++ styled .dim label ++ " " ++ styled style (alignRight 4 (value name)))
  printLine ""
  let warnings := run.journal.warningCount
  if 0 < warnings then
    printLine ("  " ++ styled .yellow ("[!] warnings: " ++ warnings.repr ++ " (see log)") ++ "\n")

/-! ## Stages -/

/-- Open the log of the run and note its beginning. -/
def openLog (config : Config) : RunAction Unit := do
  let value := config.get "log_folder"
  let folder ← match value.text? with
    | some folder => pure folder
    | none => throw (Config.noPath value.kindName)
  let most := match config.get "max_log_files" with
    | .int n => n
    | _ => 0
  let file ← LogFolder.setup folder most
  log .info rule
  log .info "copyops started"
  log .info ("Log file: " ++ file.text)
  log .info ("Instruction file: " ++ pathText (← ask fun _ ↦ config.instructionsFile))

/-- Open the log of the run. A failure of the file system is printed and ends the program. -/
def logIsOpen (config : Config) : RunAction Bool :=
  tryCatch (do openLog config; return true) fun f ↦ do
    if !f.isSystem then throw f
    printLine (styled .red ("Error setting up logging: " ++ f.message))
    return false

/-- The wait that the arguments and the configuration ask for. -/
def waitRequest (options : Options) (config : Config) : Option WaitRequest :=
  options.waitPid.map fun pid ↦
    ⟨pid, match options.waitTimeout with
      | some n => n.toJson
      | none => (Json.field? config.settings "wait_timeout_seconds").getD (.int 60)⟩

/-- Go on to the point where the instruction file can be applied. -/
def start (options : Options) (environment : Environment) : RunAction Stage := do
  if options.noColor then modify fun run ↦ { run with onTerminal := false }
  let config ← configuration options
  if !config.basePath.isGiven then
    printLine (styled .red
      "No base path given. Pass BASE_PATH or --base, or set base_path in config.")
    return .ended 1
  if !(← logIsOpen config) then return .ended 1
  let eventLog ← ask fun _ ↦ config.eventLog
  openJournal eventLog none true
  let batch ← Batch.create config environment
  if options.check then
    printPlan batch
    return .ended 0
  let wait := waitRequest options config
  match wait with
  | some request =>
    printLine (styled .cyan
      ("Waiting for host process " ++ request.pid.toJson.plain ++ " to exit..."))
  | none => pure ()
  return .ready batch wait

/-- Apply the instruction file and print the summary. A failure that ends the pass is logged and
printed. Returns the exit code. -/
def apply (batch : Batch) : RunAction Nat :=
  tryCatch
    (do
      batch.run
      log .info "copyops finished"
      printSummary
      return 0)
    fun f ↦
      match f with
      | .wildcard _ | .instruction _ => aborted f
      | f => if f.isSystem then aborted f else throw f
where
  /-- Report the end of a pass before its time. -/
  aborted (f : Failure) : RunAction Nat := do
    log .error ("File operations aborted: " ++ f.message)
    printLine (styled .red ("File operations aborted: " ++ f.message))
    return 1

/-- Go on from a stage to the exit code; `gone` answers whether a process has ended. -/
def finish (gone : WaitRequest → Bool) : Stage → RunAction Nat
  | .ended code => return code
  | .ready batch none => apply batch
  | .ready batch (some request) => do
    if gone request then apply batch
    else
      printLine (styled .red ("Host process " ++ request.pid.toJson.plain ++
        " is still running; instructions not applied."))
      return 1

/-- Run the program with options that were read. -/
def run (options : Options) (environment : Environment) (gone : WaitRequest → Bool) :
    RunAction Nat := do
  finish gone (← start options environment)

/-- What a program that is not started says about its arguments. -/
def complaint (e : UsageError) : String :=
  "copyops: error: " ++ e.message

/-- What is printed when help is asked for. -/
def usage : String :=
  "\n".intercalate
    ["usage: copyops [options] [BASE_PATH]",
      "",
      "Apply the deferred file operations of the instruction file of a base path.",
      "",
      "  -b, --base PATH         base path; goes before BASE_PATH",
      "  -w, --working-dir DIR   directory that relative paths are taken from",
      "  -c, --config FILE       configuration file",
      "  --check                 show the instructions and change nothing",
      "  --wait-pid PID          wait for the end of this host process first",
      "  --wait-timeout SECONDS  how long to wait for it",
      "  --event-log FILE        file that events are added to",
      "  --no-color              write no control sequences",
      "  -h, --help              show this text"]

/-- The exit code of a program that is not started: asking for help is no error. -/
def refusalCode : UsageError → Nat
  | .help => 0
  | _ => 2

/-! ## Places -/

/-- The paths of the files and the folder that a program uses for itself. -/
def ownPlaces (config : Config) : List Path :=
  [config.instructionsFile, config.eventLog, config.path? "log_folder"].flatMap fun place ↦
    match place with
    | .ok path? => path?.toList
    | .error _ => []

/-- The path that an operand is about: itself, or for a pattern the directory of its matches. -/
def operandPlace (directory : Path) (operand : String) : Path :=
  let path := Path.resolve operand directory
  if Path.hasWildcard operand then path.parent else path

/-- The paths that the lines of a plan are about. -/
def plannedPlaces (batch : Batch) (lines : List PlannedLine) : List Path :=
  lines.flatMap fun line ↦
    match line.outcome with
    | .ok instruction =>
      instruction.directive.operands.map (operandPlace batch.executor.workingDirectory)
    | .error _ => []

end DeferredOps.Program
