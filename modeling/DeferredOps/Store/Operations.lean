import DeferredOps.Store.Queries

/-!
# Single changes of a store

The changes that the file system makes in one step. Each either happens as a whole or is refused
with an error and changes nothing. Changes that add or remove a name act on the name itself and
never on what a symbolic link there leads to; only opening a file for writing follows it.
-/

namespace DeferredOps.Store

/-- Remove a name that is no directory. -/
def unlink (s : Store) (p : Path) : Except SystemError Store := do
  match ← s.slot p with
  | .name directory name =>
    match s.entry? (directory ++ [name]) with
    | none => .error .noEntry
    | some .dir => .error .isDirectory
    | some _ => return s.erase (directory ++ [name])
  | _ => .error .isDirectory

/-- Remove an empty directory. -/
def removeDirectory (s : Store) (p : Path) : Except SystemError Store := do
  match ← s.slot p with
  | .name directory name =>
    let location := directory ++ [name]
    match s.entry? location with
    | none => .error .noEntry
    | some .dir => if s.isEmptyDir location then return s.erase location else .error .notEmpty
    | some _ => .error .notDirectory
  | .here => .error .invalidArgument
  | .above => .error .notEmpty
  | .top => .error .busy

/-- Put a new entry at a free name. -/
def create (s : Store) (p : Path) (entry : Entry) : Except SystemError Store := do
  match ← s.slot p with
  | .name directory name =>
    match s.entry? (directory ++ [name]) with
    | none => return s.put (directory ++ [name]) entry
    | some _ => .error .fileExists
  | _ => .error .fileExists

/-- Make a directory. -/
def makeDirectory (s : Store) (p : Path) : Except SystemError Store :=
  s.create p .dir

/-- Make a symbolic link. -/
def makeLink (s : Store) (text : String) (p : Path) : Except SystemError Store :=
  s.create p (.link text)

/-- Whether an entry may take the place of another: a directory that of an empty one, anything else
that of what is no directory. -/
def checkReplace (s : Store) (entry : Entry) (target : Location) (old : Entry) :
    Except SystemError Unit :=
  if entry.isDir then
    if !old.isDir then .error .notDirectory
    else if s.isEmptyDir target then .ok () else .error .notEmpty
  else if old.isDir then .error .isDirectory else .ok ()

/-- Carry an entry to another location, if it may go there. -/
def carryChecked (s : Store) (source target : Location) : Except SystemError Store :=
  match s.entry? source with
  | none => .error .noEntry
  | some entry =>
    if isStrictlyBelow target source then .error .invalidArgument
    else if isStrictlyBelow source target then .error .notEmpty
    else match s.entry? target with
      | none => .ok (s.carry source target)
      | some old =>
        if isSame (source, entry) (target, old) then .ok s
        else (s.checkReplace entry target old).map fun _ ↦ s.carry source target

/-- Give an entry another name, in place of what stood there. -/
def rename (s : Store) (source target : Path) : Except SystemError Store := do
  let sourceSlot ← s.slot source
  let targetSlot ← s.slot target
  match sourceSlot, targetSlot with
  | .name directory name, .name targetDirectory targetName =>
    s.carryChecked (directory ++ [name]) (targetDirectory ++ [targetName])
  | _, _ => .error .busy

/-- Give a file or a symbolic link one more name. -/
def addName (s : Store) (existing new : Path) : Except SystemError Store := do
  match ← s.target .kept existing with
  | .found _ entry => if entry.isDir then .error .isDirectory else s.create new entry
  | .absent _ _ => .error .noEntry

/-- Open a file for writing, making it if its name is free, and change its content. -/
def write (s : Store) (p : Path) (change : Bytes → Bytes) : Except SystemError Store := do
  match ← s.target .written p with
  | .found _ (.file id _) => return s.setContent id change
  | .found _ _ => .error .isDirectory
  | .absent directory name => return s.putFile (directory ++ [name]) (change [])

/-- The number and the content of a file. -/
def file (s : Store) (p : Path) : Except SystemError (Nat × Bytes) := do
  match ← s.target .followed p with
  | .found _ (.file id content) => return (id, content)
  | .found _ _ => .error .isDirectory
  | .absent _ _ => .error .noEntry

/-- The content of a file. -/
def read (s : Store) (p : Path) : Except SystemError Bytes :=
  (s.file p).map (·.2)

end DeferredOps.Store
