import DeferredOps.Text.Blank

/-!
# Paths

A path is an anchor and the names below it. Reading a path drops empty names and the name `.`, and
keeps `..`; a slash at the end has no meaning. Nothing here looks at a file system.
-/

namespace DeferredOps

/-- Where a path starts: at the directory it is used in, at the top, or at the top written with
exactly two slashes. -/
inductive Anchor
  | here
  | top
  | doubleTop
  deriving DecidableEq, Repr

/-- A path: its anchor and its names from there. -/
structure Path where
  anchor : Anchor
  parts : List String
  deriving DecidableEq, Repr

namespace Path

/-- The slashes of an anchor. -/
def anchorText : Anchor → String
  | .here => ""
  | .top => "/"
  | .doubleTop => "//"

/-- The anchor that a path with this many slashes at its front has. -/
def anchorOfSlashes : Nat → Anchor
  | 0 => .here
  | 2 => .doubleTop
  | _ => .top

/-- The path of the directory it is used in. -/
def here : Path := ⟨.here, []⟩

/-- The names between the slashes of a text, without empty ones and `.`. -/
def partsOfText (text : List Char) : List String :=
  ((Text.splitOn '/' text).filter fun name ↦ name ≠ [] && name ≠ ['.']).map String.ofList

/-- Read a path. -/
def ofString (text : String) : Path :=
  let chars := text.toList
  ⟨anchorOfSlashes (chars.takeWhile (· = '/')).length, partsOfText chars⟩

/-- The text of a path; that of the empty path is `.`. -/
def text (p : Path) : String :=
  if p.anchor = .here && p.parts.isEmpty then "."
  else anchorText p.anchor ++ "/".intercalate p.parts

/-- Whether a path starts at the top. -/
def isAbsolute (p : Path) : Bool :=
  p.anchor ≠ .here

/-- The last name; empty if there is none. -/
def name (p : Path) : String :=
  p.parts.getLast?.getD ""

/-- The path without its last name. -/
def parent (p : Path) : Path :=
  { p with parts := p.parts.dropLast }

/-- A name below a path. -/
def child (p : Path) (name : String) : Path :=
  { p with parts := p.parts ++ [name] }

/-- A name below a path, written after the path's own text; below the empty path this keeps the
name `.` in front. -/
def spelledChild (p : Path) (name : String) : Path :=
  if p.anchor = .here && p.parts.isEmpty then { p with parts := [".", name] } else p.child name

/-- A path as seen from a directory: an absolute one as it is, another below the directory. -/
def below (directory p : Path) : Path :=
  if p.isAbsolute then p else { directory with parts := directory.parts ++ p.parts }

/-- Read a path as seen from a directory. -/
def resolve (text : String) (directory : Path) : Path :=
  below directory (ofString text)

/-- The names with each `..` taken together with the name before it, and none left at the top. -/
def collapse (parts : List String) : List String :=
  (parts.foldl (fun done part ↦
    if part = "." then done else if part = ".." then done.drop 1 else part :: done) []).reverse

end Path

end DeferredOps
