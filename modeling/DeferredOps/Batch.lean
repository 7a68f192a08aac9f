import DeferredOps.Config
import DeferredOps.Instruction.Parse

/-!
# Batches

A batch applies the instruction file of a base path, line by line, and removes the file at the end,
however the pass ends. A line that is no instruction is reported and skipped. Each line is read after
the one before it has been applied, so a file that grows in the meantime is read further; it stays
readable when its name is gone. A plan reads the file in the same way and changes nothing.
-/

namespace DeferredOps

/-- A configuration with the executor that was made from it, and the environment of operands. -/
structure Batch where
  config : Config
  executor : Executor
  environment : Environment

/-- A line of a plan: what it was read as, or the error. -/
structure PlannedLine where
  lineNumber : Nat
  text : String
  outcome : Except InstructionError Instruction

namespace Batch

open RunAction

/-- The text of a line without the blanks at its front, unless the line is blank. -/
def lineText? (line : Bytes) : Option String :=
  let text := Text.trimStart (Utf8.decodeReplacing line)
  if text.isEmpty then none else some (String.ofList text)

/-- The lines of an instruction file that are not blank, numbered from one. -/
def numberedLines (content : Bytes) : List (Nat × String) :=
  ((Text.lines (Utf8.dropByteOrderMark content)).zipIdx 1).filterMap fun (line, number) ↦
    (lineText? line).map (number, ·)

/-- Start the counters of a batch, with no value from before. -/
def startCounters : RunAction Unit :=
  modify fun run ↦
    { run with counters := ["lines", "comments", "unrecognized"].foldl Counters.start .empty }

/-- A batch for a configuration. -/
def create (config : Config) (environment : Environment) : RunAction Batch := do
  startCounters
  let workingDirectory ← config.workingDirectory
  Executor.startCounters
  return ⟨config, ⟨workingDirectory, none⟩, environment⟩

/-- The instruction file, if there is one. -/
def file? (batch : Batch) : RunAction (Option Path) := do
  match ← ask fun _ ↦ batch.config.instructionsFile with
  | none => return none
  | some path => return if ← ask (·.isFile path) then some path else none

/-- Read the instruction of a line. -/
def parseLine (batch : Batch) (lineNumber : Nat) (line : String) :
    Except InstructionError Instruction :=
  Instruction.parse batch.environment lineNumber line

/-- Apply one line. -/
def processLine (batch : Batch) (lineNumber : Nat) (line : String) : RunAction Unit := do
  count "lines"
  info ("(" ++ lineNumber.repr ++ ") File operation: " ++ line)
  match batch.parseLine lineNumber line with
  | .error _ =>
    count "unrecognized"
    warn (Report.unknownInstruction line lineNumber)
  | .ok instruction =>
    if instruction.directive.isComment then count "comments"
    batch.executor.execute instruction

/-- The most lines that a pass adds to its own instruction file and goes on to apply. -/
def growthLimit : Nat := 1000000

/-- Apply the lines of an open file from an offset on. -/
def processFrom (batch : Batch) (file : Nat) : (budget offset lineNumber : Nat) → RunAction Unit
  | 0, _, _ => throw .endlessBatch
  | budget + 1, offset, lineNumber => do
    match ((← get).store.openContent file).drop offset with
    | [] => pure ()
    | content =>
      let (line, size) := Text.firstLine content
      match lineText? line with
      | some text => batch.processLine lineNumber text
      | none => pure ()
      batch.processFrom file budget (offset + size) (lineNumber + 1)

/-- Apply the lines of a file. -/
def processFile (batch : Batch) (path : Path) : RunAction Unit := do
  let (file, content) ← onStore (StoreAction.openFile path)
  let start := content.length - (Utf8.dropByteOrderMark content).length
  ending (batch.processFrom file (content.length + growthLimit) start 1)
    (modify fun run ↦ { run with store := run.store.closeFile file })

/-- Apply the instruction file, if there is one, and remove it. -/
def run (batch : Batch) : RunAction Unit := do
  match ← batch.file? with
  | none => pure ()
  | some path => ending (batch.processFile path) (onStore (StoreAction.unlinkIfThere path))

/-- Read the instruction file, if there is one, without applying it. -/
def plan (batch : Batch) : RunAction (List PlannedLine) := do
  match ← batch.file? with
  | none => return []
  | some path =>
    let content ← onStore (StoreAction.read path)
    return (numberedLines content).map fun (lineNumber, line) ↦
      ⟨lineNumber, line, batch.parseLine lineNumber line⟩

end Batch

end DeferredOps
