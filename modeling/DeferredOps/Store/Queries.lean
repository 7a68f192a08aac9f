import DeferredOps.NamePattern
import DeferredOps.Store.Walk

/-!
# Questions about a store

The questions that are asked before a change. A path that leads nowhere is answered with no; a path
that cannot be followed for another reason is a failure. The cautious questions answer no to both.
-/

namespace DeferredOps

/-- Whether a path holds the character NUL, which no path may. -/
def Path.hasNul (p : Path) : Bool :=
  p.parts.any fun name ↦ name.toList.contains '\x00'

namespace Store

/-- What a path leads to, if it leads to an entry. -/
def entryAt (s : Store) (last : LastLink) (p : Path) : Except Failure (Option (Location × Entry)) :=
  if p.hasNul then .ok none
  else match s.target last p with
    | .ok (.found location entry) => .ok (some (location, entry))
    | .ok (.absent _ _) => .ok none
    | .error e => if e.meansAbsent then .ok none else .error (.ofPath e p)

/-- Whether an answer is an entry that satisfies a test. -/
def answers (test : Entry → Bool) (answer : Option (Location × Entry)) : Bool :=
  answer.any fun found ↦ test found.2

/-- Whether a path leads to a directory. -/
def isDirectory (s : Store) (p : Path) : Except Failure Bool :=
  (s.entryAt .followed p).map (answers Entry.isDir)

/-- Whether a path leads to a file. -/
def isFile (s : Store) (p : Path) : Except Failure Bool :=
  (s.entryAt .followed p).map (answers Entry.isFile)

/-- Whether a path leads to anything. -/
def exists? (s : Store) (p : Path) : Except Failure Bool :=
  (s.entryAt .followed p).map (answers fun _ ↦ true)

/-- Whether a path itself is a symbolic link. -/
def isLink (s : Store) (p : Path) : Except Failure Bool :=
  (s.entryAt .kept p).map (answers Entry.isLink)

/-- The answer of a cautious question. -/
def cautious (answer : Except Failure Bool) : Bool :=
  match answer with
  | .ok b => b
  | .error _ => false

/-- Whether two entries are the same one: the same file, or at the same location. -/
def isSame (found other : Location × Entry) : Bool :=
  match found.2, other.2 with
  | .file id _, .file otherId _ => id = otherId
  | _, _ => found.1 = other.1

/-- Whether two paths lead to the same entry. The second one is asked about only if the first leads
to an entry. -/
def samePlace (s : Store) (p q : Path) : Except Failure Bool := do
  match ← s.entryAt .followed p with
  | none => return false
  | some found =>
    match ← s.entryAt .followed q with
    | none => return false
    | some other => return isSame found other

/-- The location of a directory that is to be listed. -/
def listed (s : Store) (p : Path) : Except Failure Location :=
  if p.hasNul then .error .embeddedNul
  else match s.target .followed p with
    | .ok target =>
      match target.directory with
      | .ok location => .ok location
      | .error e => .error (.ofPath e p)
    | .error e => .error (.ofPath e p)

/-- The names in a directory. -/
def list (s : Store) (p : Path) : Except Failure (List String) :=
  (s.listed p).map s.names

/-- Whether a name that was found in a directory is that of a file, or of a symbolic link that leads
to one. A link that leads to nothing is none; one that cannot be followed is a failure. -/
def isFileName (s : Store) (p : Path) (directory : Location) (name : String) :
    Except Failure Bool :=
  match s.entry? (directory ++ [name]) with
  | some (.file _ _) => .ok true
  | some (.link _) =>
    match s.target .followed (p.spelledChild name) with
    | .ok (.found _ entry) => .ok entry.isFile
    | .ok (.absent _ _) => .ok false
    | .error .noEntry => .ok false
    | .error e => .error (.ofPath e (p.spelledChild name))
  | _ => .ok false

/-- Texts in ascending order of their code points. -/
def sortNames (names : List String) : List String :=
  names.mergeSort fun a b ↦ decide (a ≤ b)

/-- The names of a directory's files that match an expression, in ascending order. Every name is
asked about, whether it matches or not. -/
def matchingNames (s : Store) (p : Path) (expression : String) : Except Failure (List String) := do
  let directory ← s.listed p
  let files ← (s.names directory).filterM (s.isFileName p directory)
  return sortNames (files.filter (NamePattern.matchesName expression))

/-- The files of a directory that match an expression, in ascending order. -/
def matchingFiles (s : Store) (p : Path) (expression : String) : Except Failure (List Path) :=
  (s.matchingNames p expression).map (·.map p.child)

end Store

end DeferredOps
