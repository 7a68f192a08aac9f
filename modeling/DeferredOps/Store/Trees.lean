import DeferredOps.Store.Operations

/-!
# Changes of whole directories

What takes more than one change of the store: making missing parents, removing a directory with all
that is in it, copying a directory, and moving an entry. These can fail half-way, and what was done
before a failure stays done, so they act on a store that outlives their failure.
-/

namespace DeferredOps

/-- An action on a store. A failure leaves the store as it then is. -/
abbrev StoreAction (α : Type) := ExceptT Failure (StateM Store) α

namespace StoreAction

/-- Ask a question. -/
def ask (question : Store → Except Failure α) : StoreAction α := do
  match question (← get) with
  | .ok answer => return answer
  | .error f => throw f

/-- Make one change about a path, or fail with its error under the given name. -/
def change (p : Path) (name : SystemError → Failure) (change : Store → Except SystemError Store) :
    StoreAction Unit := do
  if p.hasNul then throw .embeddedNul
  match change (← get) with
  | .ok s => set s
  | .error e => throw (name e)

/-- Remove a name that is no directory. -/
def unlink (p : Path) : StoreAction Unit :=
  change p (.ofPath · p) (·.unlink p)

/-- Remove a name that is no directory, unless it is not there. -/
def unlinkIfThere (p : Path) : StoreAction Unit :=
  tryCatch (unlink p) fun f ↦
    match f with
    | .system .noEntry _ _ => pure ()
    | f => throw f

/-- Remove an empty directory. -/
def removeDirectory (p : Path) : StoreAction Unit :=
  change p (.ofPath · p) (·.removeDirectory p)

/-- Make a directory. -/
def makeDirectory (p : Path) : StoreAction Unit :=
  change p (.ofPath · p) (·.makeDirectory p)

/-- Make a symbolic link. -/
def makeLink (text : String) (p : Path) : StoreAction Unit :=
  change p (.system · (some text) (some p.text)) (·.makeLink text p)

/-- Open a file for writing and change its content. -/
def write (p : Path) (update : Bytes → Bytes) : StoreAction Unit :=
  change p (.ofPath · p) (·.write p update)

/-- The content of a file. -/
def read (p : Path) : StoreAction Bytes := do
  if p.hasNul then throw .embeddedNul
  match (← get).read p with
  | .ok content => return content
  | .error e => throw (.ofPath e p)

/-- Open a file for reading. Returns its number and its content. -/
def openFile (p : Path) : StoreAction (Nat × Bytes) := do
  if p.hasNul then throw .embeddedNul
  match (← get).file p with
  | .ok (id, content) =>
    modify (·.openFile id content)
    return (id, content)
  | .error e => throw (.ofPath e p)

/-! ## Missing parents -/

/-- Make a directory unless there is one, and its missing parents before it. A path has at most as
many parents as it has names. -/
def makeDirectoryAndParents (p : Path) : (parents : Nat) → StoreAction Unit
  | 0 => makeUnlessThere
  | parents + 1 =>
    tryCatch (makeDirectory p) fun f ↦
      match f with
      | .system .noEntry _ _ =>
        if p.parts.isEmpty then throw f
        else do
          makeDirectoryAndParents p.parent parents
          makeUnlessThere
      | f => keepDirectory f
where
  /-- Overlook a failure to make a directory that is there. -/
  keepDirectory (f : Failure) : StoreAction Unit := do
    if !f.isSystem then throw f
    if !(← ask (·.isDirectory p)) then throw f
  /-- Make a directory unless there is one. -/
  makeUnlessThere : StoreAction Unit :=
    tryCatch (makeDirectory p) fun f ↦
      match f with
      | .system .noEntry _ _ => throw f
      | f => keepDirectory f

/-- Make a directory unless there is one, with its missing parents. -/
def ensureDirectory (p : Path) : StoreAction Unit :=
  makeDirectoryAndParents p p.parts.length

/-- Make a directory after those of its parents that are missing; `keep` allows the directory to be
there already. -/
def makeDirectoriesFrom (keep : Bool) (p : Path) : (parents : Nat) → StoreAction Unit
  | 0 => makeLast
  | parents + 1 => do
    if 2 ≤ p.parts.length && !Store.cautious ((← get).exists? p.parent) then
      tryCatch (makeDirectoriesFrom keep p.parent parents) fun f ↦
        match f with
        | .system .fileExists _ _ => pure ()
        | f => throw f
    makeLast
where
  /-- Make the directory itself. -/
  makeLast : StoreAction Unit :=
    tryCatch (makeDirectory p) fun f ↦ do
      if !f.isSystem then throw f
      if !keep || !Store.cautious ((← get).isDirectory p) then throw f

/-- Make a directory after those of its parents that are missing. -/
def makeDirectories (keep : Bool) (p : Path) : StoreAction Unit :=
  makeDirectoriesFrom keep p p.parts.length

/-! ## Removing a directory -/

/-- Remove a directory with everything in it. Symbolic links in it are removed and not followed; a
path that is itself one is refused. -/
def removeTree (p : Path) : StoreAction Unit := do
  if p.hasNul then throw .embeddedNul
  match (← get).target .kept p with
  | .error e => throw (.ofPath e p)
  | .ok (.absent _ _) => throw (.ofPath .noEntry p)
  | .ok (.found _ (.link _)) => throw .linkAsTree
  | .ok (.found _ (.file _ _)) => throw (.ofPath .notDirectory p)
  | .ok (.found location .dir) =>
    modify (·.clear location)
    removeDirectory p

/-! ## Copying -/

/-- Copy the content of a file to a path. -/
def copyFile (source destination : Path) : StoreAction Unit := do
  if Store.cautious ((← get).samePlace source destination) then
    throw (.ontoItself source.text destination.text)
  let content ← read source
  write destination fun _ ↦ content

/-- The failures that a directory's copy collects from the copy of one name in it. -/
def collected (source destination : Path) : Failure → StoreAction (List CopyFailure)
  | .partialCopy failures => pure failures
  | f =>
    if f.isSystem then pure [⟨source.text, destination.text, f.message⟩] else throw f

/-- Copy one name of a directory, given how a directory is copied. -/
def copyName (copyDirectory : Path → Path → StoreAction Unit) (source destination : Path) :
    Option Entry → StoreAction Unit
  | some .dir => copyDirectory source destination
  | some (.link text) => makeLink text destination
  | _ => copyFile source destination

/-- Copy a directory to a free path. Every name in it is tried, and the failures are reported
together in the end. The names are those that were there before the copy was begun. -/
def copyTreeFrom : (depth : Nat) → (source destination : Path) → StoreAction Unit
  | 0, _, _ => throw .endlessCopy
  | depth + 1, source, destination => do
    let directory ← ask (·.listed source)
    let s ← get
    let found := (s.names directory).map fun name ↦ (name, s.entry? (directory ++ [name]))
    makeDirectories false destination
    let failures ← found.mapM fun (name, entry) ↦
      let origin := source.spelledChild name
      let copy := destination.spelledChild name
      tryCatch (do copyName (copyTreeFrom depth) origin copy entry; return [])
        (collected origin copy)
    if !failures.flatten.isEmpty then throw (.partialCopy failures.flatten)

/-- How many directories deeper than all others a copy goes that keeps finding its own results. -/
def endlessDepth : Nat := 480

/-- Copy a directory to a free path. Nothing lies deeper in a store than it has entries, and making
the directory of the copy adds no more of them than its path has names, so only a copy that keeps
finding its own results goes on past that depth. It ends there unless its paths are too long
before. -/
def copyTree (source destination : Path) : StoreAction Unit := do
  let depth := (← get).entries.length + destination.parts.length + endlessDepth
  copyTreeFrom depth source destination

/-! ## Moving -/

/-- The location of the current directory, unless it has been removed. -/
def currentDirectory : StoreAction Location := do
  let location := (← get).current
  if Store.isRemoved location then throw (.system .noEntry none none) else return location

/-- The absolute form of a path, with each `..` taken together with the name before it as text. -/
def absolute (p : Path) : StoreAction Path := do
  if p.isAbsolute then return { p with parts := Path.collapse p.parts }
  else
    let location ← currentDirectory
    return ⟨.top, Path.collapse (location ++ p.parts)⟩

/-- Whether the absolute form of a path starts with that of another. -/
def liesWithin (p other : Path) : StoreAction Bool := do
  let other ← absolute other
  let p ← absolute p
  return p.anchor = other.anchor && other.parts.isPrefixOf p.parts

/-- Move an entry that cannot simply be renamed: a symbolic link is made anew, and a directory or a
file is copied and then removed. -/
def moveByCopy (source destination : Path) : StoreAction Unit := do
  match Store.entryAt (← get) .kept source with
  | .ok (some (_, .link text)) =>
    makeLink text destination
    unlink source
  | _ =>
    if Store.cautious ((← get).isDirectory source) then
      if ← liesWithin destination source then
        throw (.intoItself source.text destination.text)
      copyTree source destination
      removeTree source
    else
      copyFile source destination
      unlink source

/-- Move an entry to a path that leads to no directory. -/
def moveEntry (source destination : Path) : StoreAction Unit := do
  if source.hasNul || destination.hasNul then throw .embeddedNul
  match (← get).rename source destination with
  | .ok s => set s
  | .error _ => moveByCopy source destination

end StoreAction

end DeferredOps
