import DeferredOps.Failure
import DeferredOps.Store.Basic

/-!
# Following paths

A path is followed name by name from the place where it starts. Every symbolic link on the way is
replaced by the names of its text, the one at the end only where asked for, and no more than forty
of them. In a directory that has been removed there is no name but `.` and `..`.
-/

namespace DeferredOps.Store

/-- The longest name, in bytes. -/
def nameLimit : Nat := 255

/-- The length from which on a path is too long, in bytes. -/
def pathLimit : Nat := 4096

/-- The most symbolic links on the way of one path. -/
def linkLimit : Nat := 40

/-- What a path leads to: an entry, or a name that is free in an existing directory. -/
inductive Target
  | found (location : Location) (entry : Entry)
  | absent (directory : Location) (name : String)
  deriving DecidableEq, Repr

/-- The location of a directory that a path has led to. -/
def Target.directory : Target → Except SystemError Location
  | .found location .dir => .ok location
  | .found _ _ => .error .notDirectory
  | .absent _ _ => .error .noEntry

/-- What a symbolic link at the end of a path stands for. -/
inductive LastLink
  /-- The symbolic link itself. -/
  | kept
  /-- What it leads to. -/
  | followed
  /-- The place of a file, which is made if there is none. A text that ends in a slash can only be
  that of a directory. -/
  | written
  deriving DecidableEq, Repr

/-- The names of a symbolic link's text. -/
def textNames (text : String) : List String :=
  ((Text.splitOn '/' text.toList).filter (· ≠ [])).map String.ofList

/-- Whether a symbolic link's text ends in a slash after a name. -/
def endsInSlash (text : String) : Bool :=
  text.toList.getLast? = some '/' && !(textNames text).isEmpty

/-- The names that stand for a symbolic link on the way. A slash at the end of its text stands for a
last name `.`, so that only a directory can be meant. -/
def linkNames (text : String) : List String :=
  if endsInSlash text then textNames text ++ ["."] else textNames text

/-- Where the names of a symbolic link start: at the top, or in the directory of the link. -/
def linkStart (text : String) (directory : Location) : Location :=
  if text.toList.head? = some '/' then [] else directory

/-- Follow names from a directory. At a symbolic link that has to be followed, `follow` goes on with
the names that stand for it and those after it. -/
def walkNames (s : Store) (last : LastLink)
    (follow : LastLink → Location → List String → Except SystemError Target)
    (directory : Location) : List String → Except SystemError Target
  | [] => .ok (.found directory .dir)
  | name :: rest =>
    if name = "." then walkNames s last follow directory rest
    else if name = ".." then walkNames s last follow directory.dropLast rest
    else if isRemoved directory then .error .noEntry
    else if nameLimit < name.utf8ByteSize then .error .nameTooLong
    else
      let location := directory ++ [name]
      match s.entry? location with
      | none => if rest.isEmpty then .ok (.absent directory name) else .error .noEntry
      | some .dir => walkNames s last follow location rest
      | some (.file id content) =>
        if rest.isEmpty then .ok (.found location (.file id content)) else .error .notDirectory
      | some (.link target) =>
        if rest.isEmpty && last = .kept then .ok (.found location (.link target))
        else
          let start := linkStart target directory
          if rest.isEmpty && last = .written && endsInSlash target then
            match follow .followed start (textNames target).dropLast with
            | .ok parent => parent.directory.bind fun _ ↦ .error .isDirectory
            | .error e => .error e
          else follow last start (linkNames target ++ rest)

/-- Follow names from a directory, over at most `links` symbolic links; `last` says what one at the
end stands for. -/
def walk (s : Store) : LastLink → (links : Nat) → Location → List String → Except SystemError Target
  | last, 0 => walkNames s last fun _ _ _ ↦ .error .tooManyLinks
  | last, links + 1 => walkNames s last fun last ↦ walk s last links

/-- Where a path starts. -/
def start (s : Store) (p : Path) : Location :=
  if p.isAbsolute then [] else s.current

/-- The start of a path that is not too long. -/
def startChecked (s : Store) (p : Path) : Except SystemError Location :=
  if pathLimit ≤ p.text.utf8ByteSize then .error .nameTooLong else .ok (s.start p)

/-- Follow a path. -/
def target (s : Store) (last : LastLink) (p : Path) : Except SystemError Target := do
  s.walk last linkLimit (← s.startChecked p) p.parts

/-- The last name of a path in the directory that the others lead to, or one of the three paths that
have no last name of their own. -/
inductive Slot
  | name (directory : Location) (name : String)
  | here
  | above
  | top
  deriving DecidableEq, Repr

/-- Follow all names of a path but the last. -/
def slot (s : Store) (p : Path) : Except SystemError Slot := do
  let start ← s.startChecked p
  let directory ← (← s.walk .followed linkLimit start p.parts.dropLast).directory
  match p.parts.getLast? with
  | none => return if p.anchor = .here then .here else .top
  | some name =>
    if name = "." then return .here
    else if name = ".." then return .above
    else if isRemoved directory then .error .noEntry
    else if nameLimit < name.utf8ByteSize then .error .nameTooLong
    else return .name directory name

end DeferredOps.Store
