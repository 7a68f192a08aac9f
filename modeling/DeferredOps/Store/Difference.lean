import DeferredOps.Store.Basic

/-!
# Differences between stores

What has to be done to a store to make another one of it. Files are told apart by their numbers and
symbolic links by their texts, so one that has only changed its location is moved and not made anew.
-/

namespace DeferredOps

/-- Whether an entry is the same directory, file or symbolic link as another; a file stays the same
when its content changes. -/
def Entry.isSameAs : Entry → Entry → Bool
  | .dir, .dir => true
  | .file id _, .file other _ => id = other
  | .link text, .link other => text = other
  | _, _ => false

namespace Store

/-- What makes one store of another. The steps are taken in the order of the fields: first what
moves is taken from its location, then what goes away is removed, and so on. -/
structure Difference where
  /-- The files and symbolic links that move, with the locations they leave and go to. -/
  moved : List (Location × Location × Entry)
  /-- The files and symbolic links that go away. -/
  removed : List Location
  /-- The directories that go away, each after those in it. -/
  emptied : List Location
  /-- The new directories, each before those in it. -/
  made : List Location
  /-- The files with a content that they did not have before. -/
  written : List (Location × Bytes)
  /-- The new symbolic links. -/
  linked : List (Location × String)
  deriving Repr

/-- Whether the same entry stands at a location in two stores. -/
def staysAt (s t : Store) (location : Location) : Bool :=
  match s.entry? location, t.entry? location with
  | some entry, some other => entry.isSameAs other
  | _, _ => false

/-- The entries of a store that are not at their locations in another. -/
def entriesNotIn (s t : Store) : List (Location × Entry) :=
  s.entries.filter fun e ↦ !s.staysAt t e.1

/-- The moves by which entries come to their locations from among those that leave theirs. -/
def movesFrom (leaving : List (Location × Entry)) :
    List (Location × Entry) → List (Location × Location × Entry)
  | [] => []
  | (target, entry) :: arriving =>
    match leaving.find? fun e ↦ !entry.isDir && e.2.isSameAs entry with
    | some (source, _) =>
      (source, target, entry) :: movesFrom (leaving.filter fun e ↦ e.1 ≠ source) arriving
    | none => movesFrom leaving arriving

/-- Locations in the order of their depth. -/
def byDepth (locations : List Location) : List Location :=
  locations.mergeSort fun a b ↦ decide (a.length ≤ b.length)

/-- The locations of entries that satisfy a test. -/
def locationsOf (test : Entry → Bool) (entries : List (Location × Entry)) : List Location :=
  (entries.filter fun e ↦ test e.2).map (·.1)

/-- What makes one store of another. -/
def difference (s t : Store) : Difference :=
  let leaving := s.entriesNotIn t
  let arriving := t.entriesNotIn s
  let moved := movesFrom leaving arriving
  let isMoved (location : Location) : Bool := moved.any fun move ↦ move.2.1 = location
  { moved
    removed := (locationsOf (!·.isDir) leaving).filter fun location ↦
      moved.all fun move ↦ move.1 ≠ location
    emptied := (byDepth (locationsOf Entry.isDir leaving)).reverse
    made := byDepth (locationsOf Entry.isDir arriving)
    written := t.entries.filterMap fun (location, entry) ↦
      match entry with
      | .file _ content =>
        if s.entries.any (fun e ↦ e.2 = entry) then none else some (location, content)
      | _ => none
    linked := arriving.filterMap fun (location, entry) ↦
      match entry with
      | .link text => if isMoved location then none else some (location, text)
      | _ => none }

end Store

end DeferredOps
