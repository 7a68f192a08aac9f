import DeferredOps.Text.Utf8

/-!
# Stores

A file system: what stands at each location. A location is the list of the names that lead to it
from the top directory; symbolic links are not followed in it. Several names may stand for one file,
which then have its number and its content in common. The top directory is always there. A file that
is open for reading keeps its content when its last name is gone.
-/

namespace DeferredOps

/-- The names from the top directory down. -/
abbrev Location := List String

/-- What stands at a location. -/
inductive Entry
  | dir
  /-- A file by its number, with its content. -/
  | file (id : Nat) (content : Bytes)
  /-- A symbolic link with its text. -/
  | link (target : String)
  deriving DecidableEq, Repr

/-- A file system. -/
structure Store where
  entries : List (Location × Entry)
  freshId : Nat
  /-- The directory in which paths without an anchor start. For each directory on the way to it that
  has been removed it has the empty name, which no entry has. -/
  current : Location
  /-- The files that are open, by their numbers, with their contents. -/
  opened : List (Nat × Bytes)
  deriving Repr

namespace Entry

/-- Whether an entry is a directory. -/
def isDir : Entry → Bool
  | .dir => true
  | _ => false

/-- Whether an entry is a file. -/
def isFile : Entry → Bool
  | .file .. => true
  | _ => false

/-- Whether an entry is a symbolic link. -/
def isLink : Entry → Bool
  | .link _ => true
  | _ => false

end Entry

namespace Store

/-- An empty file system. -/
def empty : Store := ⟨[], 0, [], []⟩

/-- What stands at a location. -/
def entry? (s : Store) (location : Location) : Option Entry :=
  if location = [] then some .dir else s.entries.lookup location

/-- The name of a location directly in a directory. -/
def nameIn? (directory location : Location) : Option String :=
  match location.getLast? with
  | some name => if location = directory ++ [name] then some name else none
  | none => none

/-- The names in a directory. -/
def names (s : Store) (directory : Location) : List String :=
  s.entries.filterMap fun entry ↦ nameIn? directory entry.1

/-- Whether nothing stands in a directory. -/
def isEmptyDir (s : Store) (directory : Location) : Bool :=
  (s.names directory).isEmpty

/-- The entries strictly below a location, by the names that lead to them from it. -/
def entriesBelow (s : Store) (location : Location) : List (Location × Entry) :=
  s.entries.filterMap fun entry ↦
    if location.isPrefixOf entry.1 && location ≠ entry.1 then
      some (entry.1.drop location.length, entry.2)
    else none

/-- Put an entry at a location, in place of what stood there. -/
def put (s : Store) (location : Location) (entry : Entry) : Store :=
  { s with entries := s.entries.filter (fun e ↦ e.1 ≠ location) ++ [(location, entry)] }

/-- Whether a location is that of a directory that has been removed. -/
def isRemoved (location : Location) : Bool :=
  location.getLast? = some ""

/-- The way from one location on, with the empty name for each directory that goes away. -/
def markRemoved (gone : Location → Bool) (before : Location) : Location → Location
  | [] => []
  | name :: rest =>
    (if gone (before ++ [name]) then "" else name) :: markRemoved gone (before ++ [name]) rest

/-- Take away the entries at the locations that satisfy a test. -/
def discard (s : Store) (gone : Location → Bool) : Store :=
  { s with
    entries := s.entries.filter fun e ↦ !gone e.1
    current := markRemoved gone [] s.current }

/-- Take away the entry at a location. -/
def erase (s : Store) (location : Location) : Store :=
  s.discard (· = location)

/-- Whether a location lies strictly below another. -/
def isStrictlyBelow (location other : Location) : Bool :=
  other.isPrefixOf location && location ≠ other

/-- Take away everything below a location. -/
def clear (s : Store) (location : Location) : Store :=
  s.discard (isStrictlyBelow · location)

/-- Where a location lies after what is at or below `source` has gone to `target`. -/
def relocated (source target location : Location) : Location :=
  if source.isPrefixOf location then target ++ location.drop source.length else location

/-- Carry the entry at a location, with everything below it, to another location, in place of what
stood there. -/
def carry (s : Store) (source target : Location) : Store :=
  { s with
    entries := (s.entries.filter fun e ↦ e.1 ≠ target).map fun e ↦
      (relocated source target e.1, e.2)
    current := relocated source target (markRemoved (· = target) [] s.current) }

/-- Put a new file at a location. -/
def putFile (s : Store) (location : Location) (content : Bytes) : Store :=
  { s.put location (.file s.freshId content) with freshId := s.freshId + 1 }

/-- Change the content of a file under all its names and where it is open. -/
def setContent (s : Store) (id : Nat) (change : Bytes → Bytes) : Store :=
  { s with
    entries := s.entries.map fun e ↦
      match e.2 with
      | .file other content => if other = id then (e.1, .file other (change content)) else e
      | _ => e
    opened := s.opened.map fun (other, content) ↦
      (other, if other = id then change content else content) }

/-- Open a file with this number and content. -/
def openFile (s : Store) (id : Nat) (content : Bytes) : Store :=
  { s with opened := (id, content) :: s.opened }

/-- The content of an open file. -/
def openContent (s : Store) (id : Nat) : Bytes :=
  (s.opened.lookup id).getD []

/-- Close a file. -/
def closeFile (s : Store) (id : Nat) : Store :=
  { s with opened := s.opened.filter fun file ↦ file.1 ≠ id }

end Store

end DeferredOps
