import DeferredOps.CommandLine.Program
import DeferredOps.Store.Difference
import Std.Time.Zoned

/-!
# The command

The program on the files of the machine. What lies at the paths that a part of the program is about
is taken up into a store, the part runs on the store, and the difference is carried out on the
machine. What the program does is decided in the other modules.
-/

namespace DeferredOps.Command

/-! ## Taking up -/

/-- The files that were taken up so far, and the directories with all their names. -/
structure Survey where
  store : Store
  listed : List Location

/-- The path of a location. -/
def pathOf (location : Location) : String :=
  "/" ++ "/".intercalate location

/-- The location of the current directory. -/
def currentLocation : IO Location := do
  return (Path.ofString (← IO.currentDir).toString).parts

/-- The text that a symbolic link is taken with: the path that it leads to, or if it leads nowhere a
text that is no path. -/
def linkText (path : String) (freshId : Nat) : IO String := do
  try
    return (← IO.FS.realPath path).toString
  catch _ =>
    return "\x00" ++ freshId.repr

/-- What stands at a location. -/
def observe (location : Location) (freshId : Nat) : IO (Option Entry) := do
  let path := (← IO.currentDir) / pathOf location
  try
    match (← path.symlinkMetadata).type with
    | .dir => return some .dir
    | .file => return some (.file freshId (← IO.FS.readBinFile path).data.toList)
    | .other => return some (.file freshId [])
    | .symlink => return some (.link (← linkText (pathOf location) freshId))
  catch _ =>
    return none

/-- Take up what stands at a location, unless that was done before. -/
def takeEntry (location : Location) : StateT Survey IO (Option Entry) := do
  let survey ← get
  match survey.store.entry? location with
  | some entry => return some entry
  | none =>
    match ← observe location survey.store.freshId with
    | none => return none
    | some entry =>
      let store := survey.store.put location entry
      set { survey with store := { store with freshId := store.freshId + 1 } }
      return some entry

mutual

/-- Take up what the names lead to from a directory, and with `deep` all that is in it. -/
partial def take (deep : Bool) (directory : Location) : List String → StateT Survey IO Unit
  | [] => if deep then takeNames directory else pure ()
  | name :: rest =>
    if name = "." then take deep directory rest
    else if name = ".." then take deep directory.dropLast rest
    else if name.toList.contains '\x00' then pure ()
    else do
      match ← takeEntry (directory ++ [name]) with
      | some .dir => take deep (directory ++ [name]) rest
      | some (.link text) => take deep [] (Store.linkNames text ++ rest)
      | _ => pure ()

/-- Take up all that is in a directory. -/
partial def takeNames (directory : Location) : StateT Survey IO Unit := do
  let survey ← get
  if survey.listed.contains directory then return
  set { survey with listed := directory :: survey.listed }
  let path := (← IO.currentDir) / pathOf directory
  for entry in ← path.readDir do
    take true directory [entry.fileName]

end

/-- The store of what lies at some paths. -/
def storeOf (places : List Path) : IO Store := do
  let current ← currentLocation
  let taking : StateT Survey IO Unit := do
    take false [] current
    for place in places do
      take true (if place.isAbsolute then [] else current) place.parts
  let (_, survey) ← taking.run ⟨.empty, []⟩
  return { survey.store with current }

/-! ## Carrying out -/

/-- Move a file or a symbolic link. Where that is not possible in one step, a file is written anew
and then removed. -/
def transfer (source target : String) (entry : Entry) : IO Unit := do
  try IO.FS.rename source target
  catch e =>
    match entry with
    | .file _ content =>
      IO.FS.writeBinFile target ⟨content.toArray⟩
      IO.FS.removeFile source
    | _ => throw e

/-- Carry out a difference. What moves is kept in a directory of its own in the meantime. -/
def carryOut (d : Store.Difference) : IO Unit := do
  let waiting := (← IO.currentDir).toString ++ "/.moving-" ++ (← IO.monoNanosNow).repr
  let seat (number : Nat) : String := waiting ++ "/" ++ number.repr
  let moves := d.moved.zipIdx
  if !moves.isEmpty then IO.FS.createDir waiting
  for ((source, _, entry), number) in moves do
    transfer (pathOf source) (seat number) entry
  for location in d.removed do
    IO.FS.removeFile (pathOf location)
  for location in d.emptied do
    IO.FS.removeDir (pathOf location)
  for location in d.made do
    IO.FS.createDir (pathOf location)
  for ((_, target, entry), number) in moves do
    transfer (seat number) (pathOf target) entry
  if !moves.isEmpty then IO.FS.removeDir waiting
  for (location, content) in d.written do
    IO.FS.writeBinFile (pathOf location) ⟨content.toArray⟩
  for (location, _) in d.linked do
    IO.eprintln ("copyops: cannot make the symbolic link " ++ pathOf location)

/-! ## Running -/

/-- The time of day on this machine. -/
def currentTime : IO Timestamp := do
  let now ← Std.Time.PlainDateTime.now
  let date : Date := ⟨now.date.year.toInt.toNat, now.date.month.val.toNat, now.date.day.val.toNat⟩
  let time := Timestamp.ofDate date now.time.hour.val.toNat now.time.minute.val.toNat
    now.time.second.val.toNat
  return { time with microseconds := now.time.nanosecond.val.toNat / 1000 }

/-- The environment of this program. -/
def environment : IO Environment := do
  let content := (← IO.FS.readBinFile "/proc/self/environ").data.toList
  let values := (Text.splitOn '\x00' (Utf8.decodeReplacing content)).filterMap fun text ↦
    match text.dropWhile (· ≠ '=') with
    | _ :: value => some (String.ofList (text.takeWhile (· ≠ '=')), String.ofList value)
    | [] => none
  return ⟨values⟩

/-- The state of a run at its beginning. -/
def firstRun : IO Run := do
  let stem := (← IO.monoNanosNow).repr ++ "-"
  let onTerminal ← (← IO.getStdout).isTty
  return ⟨.empty, .empty, .silent, ⟨← currentTime, 0⟩, ⟨stem, 0⟩, [], none, [], "", onTerminal⟩

/-- A run at the beginning of a part that is about what lies at some paths. -/
def prepare (places : List Path) (run : Run) : IO Run := do
  let store ← storeOf places
  let clock : Clock := ⟨← currentTime, 0⟩
  return { run with store, clock, log := [], output := "" }

/-- What a part of the program would come to on what lies at some paths. -/
def rehearse (places : List Path) (part : RunAction α) (run : Run) : IO (Except Failure α) := do
  let (outcome, _) := part.run (← prepare places run)
  return outcome

/-- Write what a run has printed. -/
def print (run : Run) : IO Unit := do
  let out ← IO.getStdout
  out.putStr run.output
  out.flush

/-- Write what a run has logged. -/
def writeLog (run : Run) : IO Unit :=
  match run.logFile with
  | none => pure ()
  | some file => do
    let time ← currentTime
    try
      IO.FS.withFile file.text .append fun handle ↦
        handle.putStr (String.join (run.log.map fun record ↦ record.line time ++ "\n"))
    catch _ => pure ()

/-- Do a part of the program on what lies at some paths. -/
def act (places : List Path) (part : RunAction α) (run : Run) :
    IO (Except Failure α × Run) := do
  let before ← prepare places run
  let (outcome, after) := part.run before
  carryOut (before.store.difference after.store)
  print after
  writeLog after
  return (outcome, after)

/-! ## Waiting -/

/-- The state of a process. -/
def processState (pid : Int) : IO HostProcess.StateAnswer := do
  try
    let status ← IO.FS.readFile ("/proc/" ++ Json.intText pid ++ "/stat")
    match ((Text.splitOn ')' status.toList).getLast?.getD []).take 2 with
    | [' ', 'Z'] => return .zombie
    | _ => return .running
  catch _ => return .gone

/-- The turns of waiting for a process, at most some number of them. -/
def turns (pid : Int) : Nat → IO (List HostProcess.Turn)
  | 0 => return []
  | more + 1 => do
    match ← processState pid with
    | .running =>
      if 0 < more then IO.sleep 500
      return ⟨.running, 0, .expired 0⟩ :: (← turns pid more)
    | state => return [⟨state, 0, .ended⟩]

/-- Wait for a process. Returns whether it has ended, with the record for the log. -/
def wait (request : Program.WaitRequest) : IO (Bool × LogRecord) := do
  let some full := request.full? false
    | throw (IO.userError "a process and a timeout are needed to wait")
  let lookup ← match ← processState full.pid with
    | .gone => pure .missing
    | _ => pure (.there (← turns full.pid (full.timeout / full.pollInterval).ceil.toNat.succ))
  match HostProcess.wait .exact full 0 lookup with
  | .ok outcome => return (outcome.verdict.isGone full, outcome.verdict.record full)
  | .error _ => return (false, HostProcess.Verdict.record full .unreadable)

/-! ## The whole -/

/-- The exit code of a part of the program, or 1 with the failure that has ended it. -/
def exitCode : Except Failure Nat → IO UInt32
  | .ok code => return code.toUInt32
  | .error f => do
    IO.eprintln f.message
    return 1

/-- Go on from the point where the instruction file can be applied. -/
def finish (batch : Batch) (request : Option Program.WaitRequest) (run : Run) : IO UInt32 := do
  let (gone, run) ← match request with
    | none => pure (true, run)
    | some request => do
      let (gone, record) ← wait request
      let run := { run with log := [record] }
      writeLog run
      pure (gone, run)
  let own := Program.ownPlaces batch.config
  let planned ← rehearse own batch.plan run
  let lines := match planned with
    | .ok lines => lines
    | .error _ => []
  let places := own ++ Program.plannedPlaces batch lines
  let (outcome, _) ← act places (Program.finish (fun _ ↦ gone) (.ready batch request)) run
  exitCode outcome

/-- Run the program with options that were read. -/
def run (options : Options) : IO UInt32 := do
  let environment ← environment
  let first ← firstRun
  let file := Program.configFile options
  let config ← rehearse [file] (Program.configuration options) first
  let own := match config with
    | .ok config => Program.ownPlaces config
    | .error _ => []
  let (stage, run) ← act (file :: own) (Program.start options environment) first
  match stage with
  | .error f => exitCode (.error f)
  | .ok (.ended code) => exitCode (.ok code)
  | .ok (.ready batch request) => finish batch request run

end DeferredOps.Command

/-- Read the arguments and run the program. -/
def main (arguments : List String) : IO UInt32 := do
  match DeferredOps.Arguments.parse arguments with
  | .ok options => DeferredOps.Command.run options
  | .error .help =>
    IO.println DeferredOps.Program.usage
    return 0
  | .error e =>
    IO.eprintln (DeferredOps.Program.complaint e)
    return (DeferredOps.Program.refusalCode e).toUInt32
