import DeferredOps.Report
import DeferredOps.Run

/-!
# Executing instructions

Relative paths are taken from a working directory. A deletion removes a file, a directory with all
that is in it, or the files that match a pattern. A move carries a file, a directory or the files
that match a pattern; where something is already there, the policy decides between replacing it and
keeping it. Failures of the file system are reported, and the run goes on.
-/

namespace DeferredOps

/-- What runs a command line: the failure it reports, or nothing. -/
abbrev CommandRunner := String → Option ExternalFailure

/-- What instructions are executed with. -/
structure Executor where
  workingDirectory : Path
  runner : Option CommandRunner

namespace Executor

open RunAction

/-- The counters of an executor. -/
def counterNames : List String :=
  ["deleted", "moved", "merged", "skipped", "failed", "commands"]

/-- Start the counters of an executor. -/
def startCounters : RunAction Unit :=
  modify fun run ↦ { run with counters := counterNames.foldl Counters.start run.counters }

/-- The current directory as a path. -/
def currentDirectory : RunAction Path := do
  return ⟨.top, ← onStore StoreAction.currentDirectory⟩

/-- The path of a directory that may be left open, which means the current one. -/
def directoryOr (text : Option String) : RunAction Path :=
  match text.filter (!·.isEmpty) with
  | some text => return Path.ofString text
  | none => currentDirectory

/-- An executor in a working directory. -/
def create (workingDirectory : Option String) (runner : Option CommandRunner) :
    RunAction Executor := do
  let directory ← directoryOr workingDirectory
  startCounters
  return ⟨directory, runner⟩

/-- Split a wildcard pattern. -/
def splitWildcard (pattern : String) : RunAction Wildcard :=
  match Wildcard.ofString pattern with
  | .ok wildcard => return wildcard
  | .error e => throw (.wildcard e)

/-- The files that a wildcard pattern stands for. -/
def matchingFiles (x : Executor) (wildcard : Wildcard) : RunAction (List Path) :=
  ask (·.matchingFiles (Path.below x.workingDirectory wildcard.parent) wildcard.expression)

/-! ## Deleting -/

/-- Delete one of the files that a pattern stands for. -/
def deleteFile (file : Path) : RunAction Unit := do
  info ("Delete file: " ++ file.text)
  onStore (StoreAction.unlink file)
  count "deleted"

/-- Delete what a path names, if it is there. -/
def deletePlain (target : Path) : RunAction Unit := do
  if ← ask (·.isDirectory target) then
    info ("Delete directory recursively: " ++ target.text)
    onStore (StoreAction.removeTree target)
    count "deleted"
  else if ← ask (·.isFile target) then deleteFile target
  else if ← ask (·.isLink target) then deleteFile target

/-- Delete a file, a directory, or the files that a pattern stands for. -/
def delete (x : Executor) (pattern : String) : RunAction Unit :=
  let target := Path.resolve pattern x.workingDirectory
  surviving (fun f ↦ Report.failedDelete target f.reason) do
    if Path.hasWildcard pattern then
      let wildcard ← splitWildcard pattern
      (← x.matchingFiles wildcard).forM deleteFile
    else deletePlain target

/-! ## Moving -/

/-- The path in a directory that has the last name of another path. -/
def within (directory source : Path) : Path :=
  match source.parts.getLast? with
  | some name => directory.child name
  | none => directory

/-- Whether a move to a path goes on although something may be there. -/
def mayReplace (policy : OverwritePolicy) (target : Path) : RunAction Bool :=
  match policy with
  | .replace => return true
  | .merge => return !(← ask (·.exists? target))

/-- Remove what stands in the way of a directory. -/
def removeTarget (target : Path) : RunAction Unit := do
  if ← ask (·.isDirectory target) then onStore (StoreAction.removeTree target)
  else if ← ask (·.exists? target) then onStore (StoreAction.unlink target)

/-- The names in a directory, in ascending order. -/
def sortedNames (directory : Path) : RunAction (List String) :=
  ask fun s ↦ (s.list directory).map Store.sortNames

/-- Merge a directory into another by moving what is in it, and remove it if nothing is left. -/
def mergeDirectory (moveChild : Path → Path → RunAction Unit) (source target : Path) :
    RunAction Unit := do
  info ("Merge directory " ++ source.text ++ " into " ++ target.text)
  for name in ← sortedNames source do
    moveChild (source.child name) target
  count "merged"
  if (← ask (·.list source)).isEmpty then onStore (StoreAction.removeDirectory source)

/-- Move a directory: to a new path, or into a directory that is there. In the second case what has
its name there is replaced, or the two are merged. -/
def moveDirectory (moveChild : Path → Path → RunAction Unit) (source destination : Path)
    (policy : OverwritePolicy) : RunAction Unit := do
  if !(← ask (·.isDirectory destination)) then
    info ("Move/rename directory " ++ source.text ++ " to directory " ++ destination.text)
    onStore (StoreAction.moveEntry source destination)
    count "moved"
  else
    info ("Move directory " ++ source.text ++ " into existing directory " ++ destination.text)
    let target := within destination source
    if ← ask (·.samePlace source target) then
      info ("Move directory " ++ source.text ++ " onto itself skipped")
      count "skipped"
    else if ← mayReplace policy target then
      removeTarget target
      onStore (StoreAction.moveEntry source target)
      count "moved"
    else mergeDirectory moveChild source target

/-- Move a file: to a path, or into a directory that is there. What has its name there is replaced
or kept. -/
def moveFile (source destination : Path) (policy : OverwritePolicy) : RunAction Unit := do
  let target := if ← ask (·.isDirectory destination) then within destination source else destination
  if ← ask (·.samePlace source target) then
    info ("Move file " ++ source.text ++ " onto itself skipped")
    count "skipped"
  else if ← mayReplace policy target then
    info ("Move file " ++ source.text ++ " to " ++ target.text)
    if !(← ask (·.exists? source)) then throw (.ofPath .noEntry source)
    onStore (StoreAction.unlinkIfThere target)
    onStore (StoreAction.moveEntry source target)
    count "moved"
  else
    info ("Move file " ++ source.text ++ " overwrite skipped")
    count "skipped"

/-- Move what a path names; the names in it are taken literally. A merge moves the entries of a
directory by this same operation, with longer paths, so the limit on paths bounds the depth: at the
end of it the path is too long to be asked about. -/
def moveEntryFrom (policy : OverwritePolicy) : (depth : Nat) → (source destination : Path) →
    RunAction Unit
  | 0, source, destination =>
    surviving (fun f ↦ Report.failedMove source destination f.reason)
      (throw (.ofPath .nameTooLong source))
  | depth + 1, source, destination =>
    surviving (fun f ↦ Report.failedMove source destination f.reason) do
      if ← ask (·.isDirectory source) then
        moveDirectory (moveEntryFrom policy depth) source destination policy
      else moveFile source destination policy

/-- Move what a path names. -/
def moveEntry (source destination : Path) (policy : OverwritePolicy) : RunAction Unit :=
  moveEntryFrom policy Store.pathLimit source destination

/-- Move the files that a pattern stands for into a directory, which is made if it is missing. -/
def moveMatching (x : Executor) (pattern : String) (destination : Path)
    (policy : OverwritePolicy) : RunAction Unit := do
  let wildcard ← splitWildcard pattern
  onStore (StoreAction.ensureDirectory destination)
  for file in ← x.matchingFiles wildcard do
    info ("Recurse move of " ++ file.text ++ " into " ++ destination.text)
    moveEntry file destination policy

/-- Move a file, a directory, or the files that a pattern stands for. -/
def move (x : Executor) (source destination : String) (policy : OverwritePolicy) :
    RunAction Unit :=
  let sourcePath := Path.resolve source x.workingDirectory
  let destinationPath := Path.resolve destination x.workingDirectory
  if !Path.hasWildcard source then moveEntry sourcePath destinationPath policy
  else
    surviving (fun f ↦ Report.failedMove sourcePath destinationPath f.reason)
      (x.moveMatching source destinationPath policy)

/-! ## Commands -/

/-- Hand a command line to a command runner. -/
def callRunner (runner : CommandRunner) (commandLine : String) : RunAction Unit := do
  modify fun run ↦ { run with commands := run.commands ++ [commandLine] }
  match runner commandLine with
  | none => count "commands"
  | some f => throw (.external f)

/-- Hand a command line to the command runner, if there is one. -/
def runCommand (x : Executor) (commandLine : String) : RunAction Unit := do
  let commandLine := Text.trimmed commandLine
  match x.runner with
  | none => info ("Execute instruction not run (no command runner): " ++ commandLine)
  | some runner =>
    info ("Execute: " ++ commandLine)
    surviving (fun f ↦ Report.failedCommand commandLine f.message) (callRunner runner commandLine)

/-! ## Instructions -/

/-- Do what a line asks for. -/
def perform (x : Executor) : Directive → RunAction Unit
  | .comment text => info text
  | .delete target => x.delete target
  | .execute commandLine => x.runCommand commandLine
  | .move source destination policy => x.move source destination policy

/-- Execute an instruction. -/
def execute (x : Executor) (instruction : Instruction) : RunAction Unit :=
  x.perform instruction.directive

/-- Refuse to execute what is no instruction. -/
def executeValue (value : Json) : RunAction Unit :=
  throw (.notInstruction value)

end Executor

end DeferredOps
