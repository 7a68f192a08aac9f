import DeferredOps.Failure

/-!
# Error reports

A report says what failed, why, and what can be done about it, one indented line each, and then
where it failed and what else is known.
-/

namespace DeferredOps.Report

/-- A report from its parts. Empty details are left out. -/
def render (whatFailed reason action : String) (location : Option Path) (details : Option String) :
    String :=
  let lines := ["ERROR: " ++ whatFailed, "  Reason: " ++ reason, "  Action: " ++ action] ++
    (location.map fun p ↦ "  Location: " ++ p.text).toList ++
    ((details.filter fun text ↦ !text.isEmpty).map fun text ↦ "  Details: " ++ text).toList
  "\n".intercalate lines

/-- The report of a failed deletion. -/
def failedDelete (target : Path) (reason : String) : String :=
  render ("Failed to delete: " ++ target.text) reason
    "Check the target is not in use and is writable" (some target) none

/-- The report of a failed move, which names both paths. -/
def failedMove (source destination : Path) (reason : String) : String :=
  render ("Failed to rename/move: " ++ source.text ++ " to " ++ destination.text) reason
    "Check both paths exist and are writable" (some source)
    (some ("Destination: " ++ destination.text))

/-- The report of a command that failed. -/
def failedCommand (commandLine : String) (message : String) : String :=
  render ("Failed to execute: " ++ commandLine) message
    "Check the command exists and can be started" none none

/-- The report of a line that is no instruction. -/
def unknownInstruction (line : String) (lineNumber : Int) : String :=
  "Unknown file handling instruction (line " ++ Json.intText lineNumber ++ "): " ++ line

end DeferredOps.Report
