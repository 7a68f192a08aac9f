import DeferredOps.Run

/-!
# Log files

Each run has a log file of its own in a folder, named for the time of its start. Old ones are
removed before a new one is made. They are looked for with a pattern that starts with the folder's
own path, so the wildcard characters `*`, `?` and `[` in that path are wildcards too; a name that
starts with a point is matched only by an expression that does.
-/

namespace DeferredOps.LogFolder

open RunAction

/-- The expression that the names of log files match. -/
def expression : String := "copyops-*.log"

/-- The name of the log file of a time. -/
def fileName (time : Timestamp) : String :=
  "copyops-" ++ time.fileStamp ++ ".log"

/-! ## Searching -/

/-- Whether a name of a pattern is an expression and not a literal name. -/
def isExpression (name : String) : Bool :=
  name.toList.any fun c ↦ c == '*' || c == '?' || c == '['

/-- Whether a name starts with a point. -/
def isHidden (name : String) : Bool :=
  name.toList.head? = some '.'

/-- Whether an expression finds a name. -/
def finds (pattern name : String) : Bool :=
  (isHidden pattern || !isHidden name) && NamePattern.matchesName pattern name

/-- Whether a name in a directory is that of a directory, or of a symbolic link that leads to one. -/
def isDirectoryName (s : Store) (directory : Path) (location : Location) (name : String) : Bool :=
  match s.entry? (location ++ [name]) with
  | some .dir => true
  | some (.link _) => Store.cautious (s.isDirectory (directory.spelledChild name))
  | _ => false

/-- The names in a directory that an expression finds; only those of directories where more names
follow. A directory that cannot be listed has none. -/
def namesFound (s : Store) (pattern : String) (onlyDirectories : Bool) (directory : Path) :
    Except Failure (List String) :=
  match s.listed directory with
  | .error .embeddedNul => .error .embeddedNul
  | .error _ => .ok []
  | .ok location =>
    let names := (s.names location).filter fun name ↦
      !onlyDirectories || isDirectoryName s directory location name
    .ok (names.filter (finds pattern))

/-- Whether a name is there, whatever it stands for. -/
def isThere (s : Store) (path : Path) : Bool :=
  match s.entryAt .kept path with
  | .ok (some _) => true
  | _ => false

/-- Go on from the paths found so far to those with one more name. Before the first expression
names are taken as they are. -/
def extend (s : Store) (name : String) (isLast afterExpression : Bool) (found : List Path) :
    Except Failure (List Path) :=
  if isExpression name then do
    let lists ← found.mapM fun directory ↦ do
      return (← namesFound s name (!isLast) directory).map directory.child
    return lists.flatten
  else if afterExpression then
    .ok ((found.map (·.child name)).filter (isThere s))
  else .ok (found.map (·.child name))

/-- The paths that the names of a pattern lead to, from those found so far. -/
def searchFrom (s : Store) (afterExpression : Bool) (found : List Path) :
    List String → Except Failure (List Path)
  | [] => .ok found
  | name :: rest => do
    let found ← extend s name rest.isEmpty afterExpression found
    searchFrom s (afterExpression || isExpression name) found rest

/-- The log files of a folder, by the text of their paths in ascending order. -/
def logFiles (folder : Path) (s : Store) : Except Failure (List Path) := do
  let found ← searchFrom s false [⟨folder.anchor, []⟩] (folder.parts ++ [expression])
  return found.mergeSort fun a b ↦ decide (a.text ≤ b.text)

/-! ## Rotation -/

/-- Remove a log file. A failure is logged and does not stop the run. -/
def removeFile (file : Path) : RunAction Unit :=
  tryCatch (onStore (StoreAction.unlink file)) fun f ↦
    if f.isSystem then log .warning ("Could not remove old log file: " ++ f.message) else throw f

/-- Remove old log files so that no more than a number of them stay. The smallest names go. -/
def cleanup (folder : Path) (keep : Int) : RunAction Unit := do
  let files ← ask (logFiles folder)
  (files.take (files.length - keep.toNat)).forM removeFile

/-- Make the log folder, remove old log files so that there is room for one more, and make the log
file of this run, keeping one that is there. Returns its path. -/
def setup (folder : String) (most : Int) : RunAction Path := do
  let folder := Path.ofString folder
  onStore (StoreAction.makeDirectories true folder)
  let file := folder.child (fileName (← now))
  cleanup folder (most - 1)
  let place ← onStore (StoreAction.absolute file)
  onStore (StoreAction.write place fun content ↦ content)
  modify fun run ↦ { run with logFile := some place }
  return file

end DeferredOps.LogFolder
